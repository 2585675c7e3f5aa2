import QueryBatch.Document.OfSource
import QueryBatch.Proofs.Document.Balance
import QueryBatch.Proofs.Document.Completeness

/-!
# Fragment definitions

A fragment definition is skipped up to the end of the next group in braces. That group is its
selection, unless an object stands in its directives. Main statements:

* `Grammar.RawValue.balanced`, `Grammar.RawSelection.balanced`: the braces of a phrase are balanced,
  whatever its literals are;
* `Grammar.FragmentTree.skipDefinition_iff`: which fragment definitions are skipped whole;
* `Document.skips_fragments`: a document of operations and such definitions is read as its
  operations, and one issue is raised for each definition.
-/

namespace QueryBatch

/-- Whether a token of this kind is a literal other than a word. -/
def Kind.isLiteral : Kind → Bool
  | .int | .float | .string | .blockString => true
  | _ => false

namespace Grammar

open Production

/-! ## Phrases that are not read -/

/-- A literal, which need not stand for a value. -/
abbrev RawLiteral := { t : Token // t.kind.isLiteral = true }

/-- A value that is not read. -/
inductive RawValue
  | literal (t : RawLiteral)
  | word (t : NameToken)
  | var (dollar : Mark .dollar) (name : NameToken)
  | list (items : Enclosed .bracketOpen .bracketClose RawValue)
  | object (entries : Enclosed .braceOpen .braceClose (EntryTree RawValue))

namespace RawValue

def tokens : RawValue → List Token
  | literal t => [t.1]
  | word t => [t.1]
  | var dollar name => [dollar.1, name.1]
  | list ⟨o, items, c⟩ => o.1 :: (items.flatMap (fun v => v.tokens) ++ [c.1])
  | object ⟨o, entries, c⟩ =>
    o.1 :: (entries.flatMap (fun e => e.key.1 :: e.colon.1 :: e.value.tokens) ++ [c.1])
decreasing_by
  · decreasing_tactic
  · have := EntryTree.sizeOf_value_lt ‹_›
    decreasing_tactic

end RawValue

abbrev RawArguments := Option (Enclosed .parenOpen .parenClose (EntryTree RawValue))

def RawArguments.tokens : RawArguments → List Token :=
  perhaps (Enclosed.tokens (EntryTree.tokens RawValue.tokens))

structure RawDirective where
  at_ : Mark .at
  name : NameToken
  arguments : RawArguments

def RawDirective.tokens (d : RawDirective) : List Token := d.at_.1 :: d.name.1 :: d.arguments.tokens

/-- The name of a type, behind the word that says that what follows is only for this type. -/
structure TypeCondition where
  on : { t : Token // t.kind = .keyword .on }
  type : NameToken

def TypeCondition.tokens (c : TypeCondition) : List Token := [c.on.1, c.type.1]

/-- A field, a fragment spread or an inline fragment, which is not read. -/
inductive RawSelection
  | field (head : HeadTree) (arguments : RawArguments) (directives : List RawDirective)
    (selection : Option (Enclosed .braceOpen .braceClose RawSelection))
  | spread (dots : Mark .spread) (name : NameToken) (directives : List RawDirective)
  | inline (dots : Mark .spread) (condition : Option TypeCondition)
    (directives : List RawDirective) (body : Enclosed .braceOpen .braceClose RawSelection)

namespace RawSelection

def tokens : RawSelection → List Token
  | field head args dirs none =>
    head.tokens ++ (args.tokens ++ dirs.flatMap RawDirective.tokens)
  | field head args dirs (some ⟨o, items, c⟩) =>
    head.tokens ++ (args.tokens ++ (dirs.flatMap RawDirective.tokens ++
      o.1 :: (items.flatMap (fun s => s.tokens) ++ [c.1])))
  | spread dots name dirs => dots.1 :: name.1 :: dirs.flatMap RawDirective.tokens
  | inline dots condition dirs ⟨o, items, c⟩ =>
    dots.1 :: (perhaps TypeCondition.tokens condition ++ (dirs.flatMap RawDirective.tokens ++
      o.1 :: (items.flatMap (fun s => s.tokens) ++ [c.1])))

end RawSelection

/-! ## Their braces are balanced -/

theorem HeadTree.balanced (h : HeadTree) : Balanced h.tokens := by
  obtain ⟨first, _ | ⟨colon, second⟩⟩ := h
  · exact .plain (isBrace_of_isName first.2) .nil
  · exact .plain (isBrace_of_isName first.2) (.plain (isBrace_of_mark colon.2 rfl)
      (.plain (isBrace_of_isName second.2) .nil))

theorem TypeCondition.isBrace_of_mem {c : TypeCondition} :
    ∀ t ∈ c.tokens, isBrace t.kind = false :=
  List.forall_mem_cons.2 ⟨by rw [c.on.2]; rfl,
    List.forall_mem_singleton.2 (isBrace_of_isName c.type.2)⟩

theorem EntryTree.balanced {τ : Type} {leaves : τ → List Token} {e : EntryTree τ}
    (h : Balanced (leaves e.value)) : Balanced (e.tokens leaves) :=
  .plain (isBrace_of_isName e.key.2) (.plain (isBrace_of_mark e.colon.2 rfl) h)

theorem RawValue.balanced (v : RawValue) : Balanced v.tokens := by
  fun_induction tokens v with
  | case1 t =>
    refine .plain ?_ .nil
    obtain ⟨t, ht⟩ := t
    show isBrace t.kind = false
    generalize t.kind = kind at ht
    cases kind <;> first | rfl | cases ht
  | case2 t => exact .plain (isBrace_of_isName t.2) .nil
  | case3 dollar name =>
    exact .plain (isBrace_of_mark dollar.2 rfl) (.plain (isBrace_of_isName name.2) .nil)
  | case4 o items c ih => exact Balanced.enclosed (e := ⟨o, items, c⟩) (.inr ⟨rfl, rfl⟩) ih
  | case5 o entries c ih =>
    show Balanced (Enclosed.tokens (EntryTree.tokens RawValue.tokens) ⟨o, entries, c⟩)
    exact Balanced.enclosed (.inl ⟨rfl, rfl⟩) fun e he => EntryTree.balanced (ih e he)

theorem RawArguments.balanced (args : RawArguments) : Balanced args.tokens :=
  Balanced.perhaps fun _ _ => Balanced.enclosed (.inr ⟨rfl, rfl⟩) fun e _ =>
    EntryTree.balanced e.value.balanced

theorem RawDirective.balanced (d : RawDirective) : Balanced d.tokens :=
  .plain (isBrace_of_mark d.at_.2 rfl) (.plain (isBrace_of_isName d.name.2) d.arguments.balanced)

theorem RawDirective.balanced_flatMap (dirs : List RawDirective) :
    Balanced (dirs.flatMap RawDirective.tokens) := Balanced.flatMap fun d _ => d.balanced

theorem RawSelection.balanced (s : RawSelection) : Balanced s.tokens := by
  have hdirs := RawDirective.balanced_flatMap
  fun_induction tokens s with
  | case1 head args dirs => exact head.balanced.append (args.balanced.append (hdirs dirs))
  | case2 head args dirs o items c ih =>
    exact head.balanced.append (args.balanced.append ((hdirs dirs).append
      (Balanced.enclosed (e := ⟨o, items, c⟩) (.inl ⟨rfl, rfl⟩) ih)))
  | case3 dots name dirs =>
    exact .plain (isBrace_of_mark dots.2 rfl) (.plain (isBrace_of_isName name.2) (hdirs dirs))
  | case4 dots condition dirs o items c ih =>
    have hcondition : Balanced (perhaps TypeCondition.tokens condition) :=
      Balanced.perhaps fun _ _ => Balanced.of_forall TypeCondition.isBrace_of_mem
    exact .plain (isBrace_of_mark dots.2 rfl) (hcondition.append ((hdirs dirs).append
      (Balanced.enclosed (e := ⟨o, items, c⟩) (.inl ⟨rfl, rfl⟩) ih)))

theorem RawSelection.skipBraces_tokens (body : Enclosed .braceOpen .braceClose RawSelection)
    (rest : List Token) : skipBraces (body.tokens tokens ++ rest) = rest :=
  skipBraces_enclosed (fun s _ => s.balanced) rest

/-! ## Fragment definitions -/

structure FragmentTree where
  keyword : { t : Token // t.kind = .keyword .fragment }
  name : NameToken
  condition : TypeCondition
  directives : List RawDirective
  selection : Enclosed .braceOpen .braceClose RawSelection

namespace FragmentTree

/-- The tokens before the selection. -/
def header (f : FragmentTree) : List Token :=
  f.keyword.1 :: f.name.1 :: (f.condition.tokens ++ f.directives.flatMap RawDirective.tokens)

def tokens (f : FragmentTree) : List Token :=
  f.header ++ f.selection.tokens RawSelection.tokens

/-- Whether no object stands in the directives. -/
def isFlat (f : FragmentTree) : Bool :=
  (f.directives.flatMap RawDirective.tokens).all fun t => t.kind != .punctuator .braceOpen

theorem balanced_header (f : FragmentTree) : Balanced f.header := by
  have hkeyword : isBrace f.keyword.1.kind = false := by rw [f.keyword.2]; rfl
  have hcondition : Balanced f.condition.tokens :=
    Balanced.of_forall TypeCondition.isBrace_of_mem
  exact .plain hkeyword (.plain (isBrace_of_isName f.name.2)
    (hcondition.append (RawDirective.balanced_flatMap f.directives)))

/-- Of the header, only the directives may have a group in braces. -/
theorem isFlat_iff {f : FragmentTree} :
    f.isFlat = true ↔ ∀ t ∈ f.header, t.kind ≠ .punctuator .braceOpen := by
  have hkeyword : f.keyword.1.kind ≠ .punctuator .braceOpen := by rw [f.keyword.2]; decide
  have hname := ne_braceOpen_of_isBrace (isBrace_of_isName f.name.2)
  have hcondition : ∀ t ∈ f.condition.tokens, t.kind ≠ .punctuator .braceOpen := fun t ht =>
    ne_braceOpen_of_isBrace (TypeCondition.isBrace_of_mem t ht)
  simp only [isFlat, header, List.all_eq_true, bne_iff_ne, List.forall_mem_cons,
    List.forall_mem_append]
  exact ⟨fun h => ⟨hkeyword, hname, hcondition, h⟩, fun h => h.2.2.2⟩

theorem skipDefinition_of_isFlat {f : FragmentTree} (h : f.isFlat = true) (rest : List Token) :
    skipDefinition (f.tokens ++ rest) = rest := by
  have hopen : headKind (f.selection.tokens RawSelection.tokens ++ rest) =
      .punctuator .braceOpen := f.selection.opening.2
  rw [tokens, List.append_assoc, skipDefinition_append (isFlat_iff.1 h) hopen,
    RawSelection.skipBraces_tokens]

/-- Where an object stands in the directives, what is skipped ends with it. -/
theorem exists_skipDefinition {f : FragmentTree} (h : f.isFlat = false) :
    ∃ before object after, f.header = before ++ (object ++ after) ∧ Balanced object ∧
      ∀ rest, skipDefinition (f.tokens ++ rest) =
        after ++ (f.selection.tokens RawSelection.tokens ++ rest) := by
  obtain ⟨before, o, inner, c, after, hheader, hbefore, ho, hinner, hc⟩ :=
    f.balanced_header.exists_group.resolve_left fun hnone => by
      rw [isFlat_iff.2 hnone] at h
      cases h
  have hopen : ∀ ts, headKind (o :: ts) = .punctuator .braceOpen := fun _ => ho
  refine ⟨before, o :: (inner ++ [c]), after, ?_, .group ho hinner hc .nil, fun rest => ?_⟩
  · rw [hheader, List.cons_append, List.append_assoc, List.singleton_append]
  · rw [tokens, hheader, List.append_assoc, List.append_assoc, List.cons_append, List.append_assoc,
      List.cons_append, skipDefinition_append hbefore (hopen _), skipBraces_group ho hinner hc]

/-- A fragment definition is skipped whole exactly if no object stands in its directives. -/
theorem skipDefinition_iff {f : FragmentTree} {rest : List Token} :
    skipDefinition (f.tokens ++ rest) = rest ↔ f.isFlat = true := by
  refine ⟨fun hskip => ?_, fun hflat => skipDefinition_of_isFlat hflat rest⟩
  cases hflat : f.isFlat with
  | true => rfl
  | false =>
    obtain ⟨_, _, after, _, _, hleft⟩ := exists_skipDefinition hflat
    -- The selection is left, which has its braces at least.
    have hlength := congrArg List.length ((hleft rest).symm.trans hskip)
    simp only [List.length_append, Enclosed.tokens, List.length_cons] at hlength
    omega

/-- A definition that is skipped whole raises one issue. -/
theorem definitionStep_apply {f : FragmentTree} (h : f.isFlat = true) (kept : List Operation)
    (rest : List Token) :
    (definitionStep kept (f.tokens ++ rest)).Raises kept rest [.fragmentDefinition] := by
  have hkind : headKind (f.tokens ++ rest) = .keyword .fragment := f.keyword.2
  rw [definitionStep, peek_bind, hkind, if_neg (by decide), if_pos rfl]
  have hskip : skip skipDefinition (f.tokens ++ rest) = ⟨(), rest, []⟩ := by
    rw [skip, skipDefinition_of_isFlat h]
  refine raises_bind_of_eq (raises_reportHere _ _) ?_
  rw [bind_of_eq hskip]
  rfl

end FragmentTree

/-! ## Documents with fragment definitions -/

/-- An operation, or a fragment definition. -/
inductive DefinitionItem
  | operation (o : OperationTree)
  | fragment (f : FragmentTree)

namespace DefinitionItem

def tokens : DefinitionItem → List Token
  | operation o => o.tokens
  | fragment f => f.tokens

def operation? : DefinitionItem → Option Operation
  | operation o => some o.operation
  | fragment _ => none

def fragment? : DefinitionItem → Option FragmentTree
  | operation _ => none
  | fragment f => some f

/-- What is raised by a definition: the undeclared variables of an operation are warned about. -/
def issues : DefinitionItem → List Issue
  | operation o => o.operation.undeclared.map .undeclaredVariable
  | fragment _ => [.fragmentDefinition]

theorem starts (d : DefinitionItem) : StartsWith (fun _ => True) d.tokens := by
  cases d with
  | operation o => exact o.isOperation.starts.imp fun _ _ => trivial
  | fragment f => exact ⟨_, _, rfl, trivial⟩

theorem definitionStep_apply {d : DefinitionItem} (h : ∀ f ∈ d.fragment?, f.isFlat = true)
    (kept : List Operation) (rest : List Token) :
    (definitionStep kept (d.tokens ++ rest)).Raises (kept ++ d.operation?.toList) rest
      d.issues := by
  cases d with
  | operation o =>
    rw [tokens, Production.definitionStep_apply o.isOperation kept rest]
    exact ⟨rfl, rfl, List.map_map⟩
  | fragment f =>
    rw [operation?, Option.toList_none, List.append_nil]
    exact f.definitionStep_apply (h f rfl) kept rest

end DefinitionItem

end Grammar

/-! ## Errors -/

/-- An undeclared variable is no error. -/
theorem filter_undeclared (names : List String) :
    (names.map Issue.undeclaredVariable).filter (·.severity == .error) = [] := by
  rw [List.filter_map]
  exact List.map_eq_nil_iff.2 (List.filter_eq_nil_iff.2 fun _ _ => Bool.false_ne_true)

/-- The errors among the issues that were raised. -/
theorem Reading.Raises.errors {α : Type} {r : Reading α} {a : α} {rest : List Token}
    {issues : List Issue} (h : r.Raises a rest issues) :
    (r.reports.filter (·.isError)).map (·.issue) = issues.filter (·.severity == .error) := by
  rw [← h.issues, List.filter_map]
  rfl

theorem Reading.codes_errors {α : Type} (r : Reading α) (source : String) :
    (r.diagnostics source).errors.map (·.code) =
      ((r.reports.filter (·.isError)).map (·.issue)).map Issue.code := by
  rw [Reading.diagnostics, DiagnosticBag.errors, List.filter_map, List.map_map, List.map_map]
  rfl

namespace Document

open Grammar Production

/-- A document is read by its definitions, each of which may be kept or not. -/
theorem raises_ofTokens {τ : Type} {leaves : τ → List Token} {value : τ → Option Operation}
    {issues : τ → List Issue} {items : List τ}
    (hstart : ∀ d ∈ items, StartsWith (fun _ => True) (leaves d))
    (hstep : ∀ d ∈ items, ∀ kept rest,
      (definitionStep kept (leaves d ++ rest)).Raises (kept ++ (value d).toList) rest (issues d)) :
    (ofTokens (items.flatMap leaves)).Raises ⟨items.filterMap value⟩ [] (items.flatMap issues) := by
  have hloop : (iterate (fun _ => false) definitionStep [] (items.flatMap leaves ++ [])).Raises
      ([] ++ items.filterMap value) [] (items.flatMap issues) :=
    raises_iterate (fun _ => true) (fun d hd => (hstart d hd).imp fun _ _ => ⟨rfl, rfl⟩)
      (fun d hd kept rest _ => hstep d hd kept rest) (.inl rfl) rfl []
  rw [List.append_nil] at hloop
  exact raises_bind_of_eq hloop rfl

theorem errors_issues (items : List DefinitionItem) :
    (items.flatMap DefinitionItem.issues).filter (·.severity == .error) =
      (items.filterMap DefinitionItem.fragment?).map fun _ => .fragmentDefinition := by
  induction items with
  | nil => rfl
  | cons d items ih =>
    rw [List.flatMap_cons, List.filter_append, ih, List.filterMap_cons]
    cases d with
    | operation o =>
      rw [DefinitionItem.issues, filter_undeclared]
      rfl
    | fragment f => rfl

/-- A source of operations and fragment definitions. A definition is skipped whole exactly if no
object stands in its directives. If all are, the source is read as its operations, and one error is
reported for each fragment definition. -/
structure Skips (source : String) (items : List DefinitionItem) : Prop where
  whole : ∀ f ∈ items.filterMap DefinitionItem.fragment?, ∀ rest,
    skipDefinition (f.tokens ++ rest) = rest ↔ f.isFlat = true
  operations : (∀ f ∈ items.filterMap DefinitionItem.fragment?, f.isFlat = true) →
    (ofSource source).value = ⟨items.filterMap DefinitionItem.operation?⟩
  errors : (∀ f ∈ items.filterMap DefinitionItem.fragment?, f.isFlat = true) →
    ((ofSource source).reports.filter (·.isError)).map (·.issue) =
      (items.filterMap DefinitionItem.fragment?).map fun _ => .fragmentDefinition
  codes : (∀ f ∈ items.filterMap DefinitionItem.fragment?, f.isFlat = true) →
    (diagnostics source).errors.map (·.code) =
      (items.filterMap DefinitionItem.fragment?).map fun _ => "E0010"

/-- Fragment definitions are skipped as a whole if their directives have no braces. What is read
are the tokens of the source, which the scanner of bytes gives up to `2 ^ 32 - 4` bytes. -/
theorem skips_fragments {source : String} {items : List DefinitionItem}
    (h : tokenize source = items.flatMap DefinitionItem.tokens) : Skips source items := by
  have hread : (∀ f ∈ items.filterMap DefinitionItem.fragment?, f.isFlat = true) →
      (ofSource source).Raises ⟨items.filterMap DefinitionItem.operation?⟩ []
        (items.flatMap DefinitionItem.issues) := by
    intro hflat
    rw [ofSource, h]
    refine raises_ofTokens (fun d _ => d.starts) fun d hd => d.definitionStep_apply fun f hf => ?_
    exact hflat f (List.mem_filterMap.2 ⟨d, hd, hf⟩)
  have herrors := fun hflat => (hread hflat).errors.trans (errors_issues items)
  refine ⟨fun f _ rest => FragmentTree.skipDefinition_iff, fun hflat => (hread hflat).value,
    herrors, fun hflat => ?_⟩
  rw [diagnostics, Reading.codes_errors, herrors hflat, List.map_map]
  rfl

/-- A brace in a string is no brace. -/
theorem skips_fragments_string :
    ∃ items : List DefinitionItem,
      tokenize "\x7ba\x7dfragment F on T@d(x:\"\x7b\")\x7b...G\x7d" =
          items.flatMap DefinitionItem.tokens ∧
        (∀ f ∈ items.filterMap DefinitionItem.fragment?, f.isFlat = true) ∧
        items.filterMap DefinitionItem.operation? =
          [⟨.query, none, [], [⟨none, "a", [], [], none⟩]⟩] ∧
        Skips "\x7ba\x7dfragment F on T@d(x:\"\x7b\")\x7b...G\x7d" items := by
  let operation : OperationTree := .short
    { opening := ⟨⟨.punctuator .braceOpen, "\x7b", 0⟩, rfl⟩
      first := ⟨⟨⟨⟨.name, "a", 1⟩, rfl⟩, none⟩, none, [], none⟩
      more := []
      closing := ⟨⟨.punctuator .braceClose, "\x7d", 2⟩, rfl⟩ }
  let argument : EntryTree RawValue :=
    { key := ⟨⟨.name, "x", 21⟩, rfl⟩
      colon := ⟨⟨.punctuator .colon, ":", 22⟩, rfl⟩
      value := .literal ⟨⟨.string, "\"\x7b\"", 23⟩, rfl⟩ }
  let directive : RawDirective :=
    { at_ := ⟨⟨.punctuator .at, "@", 18⟩, rfl⟩
      name := ⟨⟨.name, "d", 19⟩, rfl⟩
      arguments := some ⟨⟨⟨.punctuator .parenOpen, "(", 20⟩, rfl⟩, [argument],
        ⟨⟨.punctuator .parenClose, ")", 26⟩, rfl⟩⟩ }
  let fragment : FragmentTree :=
    { keyword := ⟨⟨.keyword .fragment, "fragment", 3⟩, rfl⟩
      name := ⟨⟨.name, "F", 12⟩, rfl⟩
      condition := ⟨⟨⟨.keyword .on, "on", 14⟩, rfl⟩, ⟨⟨.name, "T", 17⟩, rfl⟩⟩
      directives := [directive]
      selection := ⟨⟨⟨.punctuator .braceOpen, "\x7b", 27⟩, rfl⟩,
        [.spread ⟨⟨.punctuator .spread, "...", 28⟩, rfl⟩ ⟨⟨.name, "G", 31⟩, rfl⟩ []],
        ⟨⟨.punctuator .braceClose, "\x7d", 32⟩, rfl⟩⟩ }
  let items : List DefinitionItem := [.operation operation, .fragment fragment]
  have htokens : tokenize "\x7ba\x7dfragment F on T@d(x:\"\x7b\")\x7b...G\x7d" =
      items.flatMap DefinitionItem.tokens := by
    simp only [items, operation, fragment, directive, argument, List.flatMap_cons,
      List.flatMap_nil, DefinitionItem.tokens, OperationTree.tokens, SelectionTree.tokens,
      SelectionTree.enclosed, SelectionTree.items, FieldTree.tokens, HeadTree.tokens,
      ArgumentsTree.tokens, FragmentTree.tokens, FragmentTree.header, TypeCondition.tokens,
      RawDirective.tokens, RawArguments.tokens, Enclosed.tokens, EntryTree.tokens, RawValue.tokens,
      RawSelection.tokens, perhaps]
    decide +kernel
  have hflat : ∀ f ∈ items.filterMap DefinitionItem.fragment?, f.isFlat = true := by
    refine List.forall_mem_singleton.2 ?_
    simp only [FragmentTree.isFlat, fragment, directive, argument, List.flatMap_cons,
      List.flatMap_nil, RawDirective.tokens, RawArguments.tokens, Enclosed.tokens,
      EntryTree.tokens, RawValue.tokens, perhaps]
    rfl
  have hoperation : operation.operation = ⟨.query, none, [], [⟨none, "a", [], [], none⟩]⟩ := by
    simp only [operation, OperationTree.operation, SelectionTree.items, List.map_cons,
      List.map_nil, FieldTree.field]
    rfl
  exact ⟨items, htokens, hflat, congrArg (fun o => [o]) hoperation, skips_fragments htokens⟩

/-- A fragment definition that is not skipped whole: an operation is read, which there is none, and
an error is reported that the definition does not have. -/
theorem skips_fragments_object :
    (∃ f : FragmentTree, tokenize "fragment F on T@d(x:\x7ba:1\x7d)\x7bid\x7d" = f.tokens) ∧
      (ofSource "fragment F on T@d(x:\x7ba:1\x7d)\x7bid\x7d").value.operations.length = 1 ∧
      (diagnostics "fragment F on T@d(x:\x7ba:1\x7d)\x7bid\x7d").errors.map (·.code) =
        ["E0010", "E0001"] := by
  let entry : EntryTree RawValue :=
    { key := ⟨⟨.name, "a", 21⟩, rfl⟩
      colon := ⟨⟨.punctuator .colon, ":", 22⟩, rfl⟩
      value := .literal ⟨⟨.int, "1", 23⟩, rfl⟩ }
  let argument : EntryTree RawValue :=
    { key := ⟨⟨.name, "x", 18⟩, rfl⟩
      colon := ⟨⟨.punctuator .colon, ":", 19⟩, rfl⟩
      value := .object ⟨⟨⟨.punctuator .braceOpen, "\x7b", 20⟩, rfl⟩, [entry],
        ⟨⟨.punctuator .braceClose, "\x7d", 24⟩, rfl⟩⟩ }
  let directive : RawDirective :=
    { at_ := ⟨⟨.punctuator .at, "@", 15⟩, rfl⟩
      name := ⟨⟨.name, "d", 16⟩, rfl⟩
      arguments := some ⟨⟨⟨.punctuator .parenOpen, "(", 17⟩, rfl⟩, [argument],
        ⟨⟨.punctuator .parenClose, ")", 25⟩, rfl⟩⟩ }
  let fragment : FragmentTree :=
    { keyword := ⟨⟨.keyword .fragment, "fragment", 0⟩, rfl⟩
      name := ⟨⟨.name, "F", 9⟩, rfl⟩
      condition := ⟨⟨⟨.keyword .on, "on", 11⟩, rfl⟩, ⟨⟨.name, "T", 14⟩, rfl⟩⟩
      directives := [directive]
      selection := ⟨⟨⟨.punctuator .braceOpen, "\x7b", 26⟩, rfl⟩,
        [.field ⟨⟨⟨.name, "id", 27⟩, rfl⟩, none⟩ none [] none],
        ⟨⟨.punctuator .braceClose, "\x7d", 29⟩, rfl⟩⟩ }
  refine ⟨⟨fragment, ?_⟩, by decide +kernel, by decide +kernel⟩
  simp only [fragment, directive, argument, entry, List.flatMap_cons, List.flatMap_nil,
    FragmentTree.tokens, FragmentTree.header, TypeCondition.tokens, RawDirective.tokens,
    RawArguments.tokens, Enclosed.tokens, EntryTree.tokens, RawValue.tokens, RawSelection.tokens,
    HeadTree.tokens, perhaps]
  decide +kernel

end Document

end QueryBatch
