import QueryBatch.Proofs.Document.Fragments

/-!
# Fragment selections

A fragment selection is reported and left out of the selection in which it stands. Its directives
are read, and its body is not: what is skipped ends where the body does, because the braces of a
body are balanced. Main statements:

* `Production.skipFragmentSelection_apply`: what is skipped of a fragment selection;
* `Grammar.MixedTree.isErased`: a field is kept without the fragment selections inside it, and a
  fragment selection is not kept;
* `Document.erases_fragments`: a document with fragment selections is read as the one without them,
  and one issue is raised for each of them and for each selection in which no field is left.
-/

namespace QueryBatch

namespace Grammar

open Production

/-! ## Selections with fragments -/

/-- The name of a fragment. It is not `on`, which opens a type condition. -/
abbrev FragmentName := { t : Token // t.kind.isName = true ∧ t.kind ≠ .keyword .on }

/-- A field, a fragment spread or an inline fragment. -/
inductive MixedTree
  | field (head : HeadTree) (arguments : ArgumentsTree) (directives : List DirectiveTree)
    (selection : Option (Enclosed .braceOpen .braceClose MixedTree))
  | spread (dots : Mark .spread) (name : FragmentName) (directives : List DirectiveTree)
  | inline (dots : Mark .spread) (condition : Option TypeCondition)
    (directives : List DirectiveTree) (body : Enclosed .braceOpen .braceClose RawSelection)

namespace MixedTree

def tokens : MixedTree → List Token
  | field head args dirs none =>
    head.tokens ++ (args.tokens ++ dirs.flatMap DirectiveTree.tokens)
  | field head args dirs (some ⟨o, items, c⟩) =>
    head.tokens ++ (args.tokens ++ (dirs.flatMap DirectiveTree.tokens ++
      o.1 :: (items.flatMap (fun p => p.tokens) ++ [c.1])))
  | spread dots name dirs => dots.1 :: name.1 :: dirs.flatMap DirectiveTree.tokens
  | inline dots condition dirs body =>
    dots.1 :: (perhaps TypeCondition.tokens condition ++ (dirs.flatMap DirectiveTree.tokens ++
      body.tokens RawSelection.tokens))

/-- A field without the fragment selections inside it. Of a fragment selection nothing is left. -/
def field? : MixedTree → Option Field
  | field head args dirs none =>
    some ⟨head.alias?, head.name, args.arguments, dirs.map DirectiveTree.directive, none⟩
  | field head args dirs (some ⟨_, items, _⟩) =>
    some ⟨head.alias?, head.name, args.arguments, dirs.map DirectiveTree.directive,
      some (items.filterMap fun p => p.field?)⟩
  | spread .. | inline .. => none

/-- One issue for each fragment selection that stands in no other, and one for each selection
outside of them in which no field is left. -/
def issues : MixedTree → List Issue
  | field _ _ _ none => []
  | field _ _ _ (some ⟨_, items, _⟩) =>
    items.flatMap (fun p => p.issues) ++
      if (items.filterMap field?).isEmpty then [.emptySelection] else []
  | spread .. | inline .. => [.fragmentSelection]

@[elab_as_elim, induction_eliminator]
theorem induction {motive : MixedTree → Prop}
    (leaf : ∀ head args dirs, motive (.field head args dirs none))
    (branch : ∀ head args dirs (s : Enclosed .braceOpen .braceClose MixedTree),
      (∀ p ∈ s.items, motive p) → motive (.field head args dirs (some s)))
    (spread : ∀ dots name dirs, motive (.spread dots name dirs))
    (inline : ∀ dots condition dirs body, motive (.inline dots condition dirs body))
    (p : MixedTree) : motive p :=
  tokens.induct motive leaf (fun head args dirs o items c => branch head args dirs ⟨o, items, c⟩)
    spread inline p

theorem starts (p : MixedTree) :
    StartsWith (fun kind => isMark .braceClose kind = false ∧ endsField kind = true) p.tokens := by
  have hhead : ∀ head : HeadTree, StartsWith
      (fun kind => isMark .braceClose kind = false ∧ endsField kind = true) head.tokens :=
    fun head => head.isHead.starts.imp fun kind hkind =>
      ⟨isMark_of_isName hkind _, endsField_of_isName hkind⟩
  cases p with
  | field head args dirs selection =>
    obtain _ | ⟨o, items, c⟩ := selection
    · rw [tokens]
      exact (hhead head).append _
    · rw [tokens]
      exact (hhead head).append _
  | spread dots name dirs =>
    rw [tokens]
    exact ⟨_, _, rfl, by rw [dots.2]; exact ⟨rfl, rfl⟩⟩
  | inline dots condition dirs body =>
    rw [tokens]
    exact ⟨_, _, rfl, by rw [dots.2]; exact ⟨rfl, rfl⟩⟩

end MixedTree

/-- Fields and fragment selections in braces. -/
abbrev MixedSelection := Enclosed .braceOpen .braceClose MixedTree

namespace MixedSelection

def fields (s : MixedSelection) : List Field := s.items.filterMap MixedTree.field?

def issues (s : MixedSelection) : List Issue :=
  s.items.flatMap MixedTree.issues ++ if s.fields.isEmpty then [.emptySelection] else []

end MixedSelection

namespace MixedTree

variable (head : HeadTree) (args : ArgumentsTree) (dirs : List DirectiveTree) (s : MixedSelection)

@[simp] theorem tokens_some : (field head args dirs (some s)).tokens =
    head.tokens ++ (args.tokens ++ (dirs.flatMap DirectiveTree.tokens ++ s.tokens tokens)) := by
  obtain ⟨o, items, c⟩ := s
  rw [tokens]
  rfl

@[simp] theorem field?_some : (field head args dirs (some s)).field? =
    some ⟨head.alias?, head.name, args.arguments, dirs.map DirectiveTree.directive,
      some s.fields⟩ := by
  obtain ⟨o, items, c⟩ := s
  rw [field?]
  rfl

@[simp] theorem issues_some : (field head args dirs (some s)).issues = s.issues := by
  obtain ⟨o, items, c⟩ := s
  rw [issues]
  rfl

end MixedTree

/-- What follows the dots of a fragment selection: a name, a type condition, or nothing. -/
inductive IsFragmentHead : List Token → Prop
  | name {t : Token} (hname : t.kind.isName = true) (hon : t.kind ≠ .keyword .on) :
    IsFragmentHead [t]
  | on {t type : Token} (hon : t.kind = .keyword .on) (htype : type.kind.isName = true) :
    IsFragmentHead [t, type]
  | nil : IsFragmentHead []

theorem isFragmentHead_perhaps (condition : Option TypeCondition) :
    IsFragmentHead (perhaps TypeCondition.tokens condition) := by
  cases condition with
  | none => exact .nil
  | some condition => exact .on condition.on.2 condition.type.2

end Grammar

namespace Production

open Grammar

/-! ## Skipping a fragment selection -/

/-- The head and the directives are used, and then the body if there is one. Where neither a name
nor a condition stands there must be a body, since a name behind the dots would be taken for that of
a fragment. -/
theorem skipFragmentSelection_apply {dots : Token} {ts us rest : List Token} {ds : List Directive}
    (hhead : IsFragmentHead ts) (hdirs : Each IsDirective us ds)
    (hends : endsDirectives (headKind rest) = true)
    (hbody : ts = [] → headKind rest = .punctuator .braceOpen) :
    skipFragmentSelection (dots :: (ts ++ (us ++ rest))) = ⟨(), skipBraces rest, []⟩ := by
  have hafter : (directives >>= fun _ => skip skipBraces) (us ++ rest) =
      ⟨(), skipBraces rest, []⟩ := by
    rw [bind_of_eq (directives_apply hdirs hends)]
    rfl
  cases hhead with
  | @name t hname hon =>
    rw [skipFragmentSelection, advance_bind, List.tail_cons, List.singleton_append, peek_bind,
      headKind, if_neg hon, if_pos hname, advance_bind, List.tail_cons]
    exact hafter
  | @on t type hon htype =>
    have hskip : (advance *> discard name) (t :: type :: (us ++ rest)) = ⟨(), us ++ rest, []⟩ := by
      rw [seqRight_apply, advance_bind, List.tail_cons]
      exact map_of_eq (name_apply htype _) _
    rw [skipFragmentSelection, advance_bind, List.tail_cons, List.cons_append,
      List.singleton_append, peek_bind, headKind, if_pos hon, bind_of_eq hskip]
    exact hafter
  | nil =>
    have hname : (!(headKind (us ++ rest)).isName) = true :=
      headKind_directives (fun kind => !kind.isName) hdirs rfl (by rw [hbody rfl]; rfl)
    have hname' : (headKind (us ++ rest)).isName = false := by simpa using hname
    have hon : headKind (us ++ rest) ≠ .keyword .on := by
      intro hk
      rw [hk] at hname'
      cases hname'
    rw [skipFragmentSelection, advance_bind, List.tail_cons, List.nil_append, peek_bind,
      if_neg hon, hname', if_neg Bool.false_ne_true]
    exact hafter

theorem selectionStep_of_spread {selection : Production (List Field)} {dots : Token}
    {ts rest : List Token} (hdots : dots.kind = .punctuator .spread)
    (h : skipFragmentSelection (dots :: ts) = ⟨(), rest, []⟩) (kept : List Field) :
    (selectionStep selection kept (dots :: ts)).Raises kept rest [.fragmentSelection] := by
  rw [selectionStep, peek_bind, headKind, if_pos hdots]
  refine raises_bind_of_eq (raises_reportHere _ _) ?_
  rw [bind_of_eq h]
  rfl

/-- A field is kept as it is read. -/
theorem selectionStep_of_field {selection : Production (List Field)} {ts rest : List Token}
    {f : Field} {issues : List Issue} (hname : (headKind ts).isName = true)
    (h : (field selection ts).Raises f rest issues) (kept : List Field) :
    (selectionStep selection kept ts).Raises (kept ++ [f]) rest issues := by
  rw [selectionStep, peek_bind, if_neg (ne_punctuator_of_isName hname _), ← map_eq_pure_bind]
  exact raises_map h _

theorem raises_reportEmpty (fields : List Field) (rest : List Token) :
    ((do
      if fields.isEmpty then reportHere [.emptySelection]
      pure fields : Production (List Field)) rest).Raises fields rest
        (if fields.isEmpty then [.emptySelection] else []) := by
  cases fields with
  | nil => exact ⟨rfl, rfl, rfl⟩
  | cons f fields => exact raises_of_eq rfl

end Production

namespace Grammar

open Production

/-! ## Selections without their fragments -/

/-- Wherever it stands, a selection is read as what is left of it. -/
def MixedTree.IsErased (p : MixedTree) : Prop :=
  ∀ (depth : Nat) (kept : List Field) (rest : List Token), p.tokens.length ≤ depth →
    endsField (headKind rest) = true →
      (selectionStep (selectionWithin depth) kept (p.tokens ++ rest)).Raises
        (kept ++ p.field?.toList) rest p.issues

namespace MixedSelection

variable {s : MixedSelection}

theorem length_tokens_lt {p : MixedTree} (hp : p ∈ s.items) :
    p.tokens.length + 1 < (s.tokens MixedTree.tokens).length := by
  have hmem : p.tokens ∈ s.items.map MixedTree.tokens := List.mem_map_of_mem hp
  have hle := (List.sublist_flatten_of_mem hmem).length_le
  rw [Enclosed.tokens, List.length_cons, List.length_append, List.flatMap_def,
    List.length_singleton]
  omega

/-- A selection is read if what stands in it is, and reported if no field is left. -/
theorem raises_selectionWithin (h : ∀ p ∈ s.items, p.IsErased) {depth : Nat}
    (hlen : (s.tokens MixedTree.tokens).length ≤ depth) (rest : List Token) :
    (selectionWithin depth (s.tokens MixedTree.tokens ++ rest)).Raises s.fields rest s.issues := by
  cases depth with
  | zero => exact absurd hlen (Nat.not_succ_le_zero _)
  | succ depth =>
    have hstep : ∀ p ∈ s.items, ∀ kept rest, endsField (headKind rest) = true →
        (selectionStep (selectionWithin depth) kept (p.tokens ++ rest)).Raises
          (kept ++ p.field?.toList) rest p.issues := by
      intro p hp kept rest
      have hlt := length_tokens_lt hp
      exact h p hp depth kept rest (by omega)
    have hloop := raises_iterate endsField (fun p _ => p.starts) hstep
      (.inr (isMark_self s.closing.2 rest)) (by rw [headKind, s.closing.2]; rfl) []
    rw [selectionWithin, Enclosed.tokens, List.cons_append, peek_bind, headKind,
      if_pos s.opening.2, advance_bind, List.tail_cons, List.append_assoc, List.singleton_append]
    refine raises_bind hloop ?_
    rw [expect_bind s.closing.2]
    exact raises_reportEmpty s.fields rest

end MixedSelection

theorem MixedTree.isErased (p : MixedTree) : p.IsErased := by
  induction p with
  | leaf head args dirs =>
    intro depth kept rest _ hrest
    have hname := head.isHead.starts
    simp only [endsField, Bool.and_eq_true, bne_iff_ne] at hrest
    obtain ⟨⟨hends, hcolon⟩, hbrace⟩ := hrest
    rw [tokens, field?, issues, List.append_assoc, List.append_assoc]
    refine selectionStep_of_field (hname.headKind _) ?_ kept
    rw [field_of_parts head.isHead args.areArguments (DirectiveTree.each dirs) hends hcolon,
      fieldEnd, peek_bind, if_neg hbrace]
    exact raises_of_eq rfl
  | branch head args dirs s ih =>
    intro depth kept rest hlen _
    have hname := head.isHead.starts
    have hopen : headKind (s.tokens tokens ++ rest) = .punctuator .braceOpen := s.opening.2
    rw [tokens_some] at hlen ⊢
    have hshort : (s.tokens tokens).length ≤ depth := by
      simp only [List.length_append] at hlen
      omega
    have hread := MixedSelection.raises_selectionWithin ih hshort rest
    rw [field?_some, issues_some, List.append_assoc, List.append_assoc, List.append_assoc]
    refine selectionStep_of_field (hname.headKind _) ?_ kept
    rw [field_of_parts head.isHead args.areArguments (DirectiveTree.each dirs)
      (by rw [hopen]; rfl) (by rw [hopen]; decide), fieldEnd, peek_bind, if_pos hopen]
    exact raises_bind_of_eq (raises_map hread some) rfl
  | spread dots name dirs =>
    intro depth kept rest _ hrest
    simp only [endsField, Bool.and_eq_true, bne_iff_ne] at hrest
    obtain ⟨⟨hends, -⟩, hbrace⟩ := hrest
    have hskip : skipFragmentSelection
        (dots.1 :: ([name.1] ++ (dirs.flatMap DirectiveTree.tokens ++ rest))) =
          ⟨(), rest, []⟩ := by
      rw [skipFragmentSelection_apply (.name name.2.1 name.2.2) (DirectiveTree.each dirs) hends
        (fun h => absurd h (List.cons_ne_nil _ _)), skipBraces_of_ne hbrace]
    rw [tokens, field?, issues, Option.toList_none, List.append_nil]
    exact selectionStep_of_spread dots.2 hskip kept
  | inline dots condition dirs body =>
    intro depth kept rest _ _
    have hopen : headKind (body.tokens RawSelection.tokens ++ rest) = .punctuator .braceOpen :=
      body.opening.2
    have hskip : skipFragmentSelection (dots.1 :: (perhaps TypeCondition.tokens condition ++
        (dirs.flatMap DirectiveTree.tokens ++ (body.tokens RawSelection.tokens ++ rest)))) =
          ⟨(), rest, []⟩ := by
      rw [skipFragmentSelection_apply (isFragmentHead_perhaps condition)
        (DirectiveTree.each dirs) (by rw [hopen]; rfl) (fun _ => hopen),
        RawSelection.skipBraces_tokens]
    rw [tokens, field?, issues, Option.toList_none, List.append_nil, List.cons_append,
      List.append_assoc, List.append_assoc]
    exact selectionStep_of_spread dots.2 hskip kept

theorem MixedSelection.raises_selection (s : MixedSelection) (rest : List Token) :
    (selection (s.tokens MixedTree.tokens ++ rest)).Raises s.fields rest s.issues := by
  refine raises_selectionWithin (fun p _ => p.isErased) ?_ rest
  rw [List.length_append]
  omega

/-! ## Operations -/

/-- An operation in which fragment selections may stand. -/
inductive MixedOperation
  | short (selection : MixedSelection)
  | long (kind : OperationKind)
    (keyword : { t : Token // t.kind = .keyword (keywordOf kind) }) (name : Option NameToken)
    (definitions : Option DefinitionsTree) (selection : MixedSelection)

namespace MixedOperation

def tokens : MixedOperation → List Token
  | short selection => selection.tokens MixedTree.tokens
  | long _ keyword name definitions selection =>
    keyword.1 :: (perhaps (fun n => [n.1]) name ++
      (perhaps DefinitionsTree.tokens definitions ++ selection.tokens MixedTree.tokens))

/-- The operation without its fragment selections. -/
def operation : MixedOperation → Operation
  | short selection => ⟨.query, none, [], selection.fields⟩
  | long kind _ name definitions selection =>
    ⟨kind, name.map (·.1.text), definitionsOf definitions, selection.fields⟩

/-- The errors in an operation. -/
def faults : MixedOperation → List Issue
  | short selection | long _ _ _ _ selection => selection.issues

/-- The undeclared variables of what is left of the operation are warned about. -/
def issues (o : MixedOperation) : List Issue :=
  o.faults ++ o.operation.undeclared.map .undeclaredVariable

theorem starts (o : MixedOperation) : StartsWith (startsOperation · = true) o.tokens := by
  cases o with
  | short selection => exact ⟨_, _, rfl, by rw [selection.opening.2]; rfl⟩
  | long kind keyword name definitions selection =>
    exact ⟨_, _, rfl, by rw [keyword.2]; cases kind <;> rfl⟩

theorem raises_plainOperation (o : MixedOperation) (rest : List Token) :
    (plainOperation (o.tokens ++ rest)).Raises o.operation rest o.faults := by
  cases o with
  | short selection =>
    have hopen : headKind (selection.tokens MixedTree.tokens ++ rest) = .punctuator .braceOpen :=
      selection.opening.2
    rw [tokens, plainOperation_of_braceOpen hopen]
    exact raises_map (selection.raises_selection rest) _
  | long kind keyword name definitions selection =>
    have hopen : headKind (selection.tokens MixedTree.tokens ++ rest) = .punctuator .braceOpen :=
      selection.opening.2
    rw [tokens, List.cons_append, List.append_assoc, List.append_assoc,
      plainOperation_of_parts keyword.2 (isOptionalName_perhaps name)
        (areDefinitions_definitionsOf definitions) hopen]
    exact raises_map (selection.raises_selection rest) _

theorem definitionStep_apply (o : MixedOperation) (kept : List Operation) (rest : List Token) :
    (definitionStep kept (o.tokens ++ rest)).Raises (kept ++ [o.operation]) rest o.issues := by
  have hread : (Production.operation (o.tokens ++ rest)).Raises o.operation rest o.issues :=
    raises_bind (o.raises_plainOperation rest) (raises_bind_of_eq (raises_reportHere _ _) rfl)
  rw [definitionStep, peek_bind, if_pos (o.starts.headKind rest), ← map_eq_pure_bind]
  exact raises_map hread _

end MixedOperation

/-! ## Errors -/

/-- A fragment selection is an error, and a selection that has lost all fields is another. -/
def IsErasure (issue : Issue) : Prop := issue = .fragmentSelection ∨ issue = .emptySelection

theorem MixedSelection.isErasure_of_forall {s : MixedSelection}
    (h : ∀ p ∈ s.items, ∀ issue ∈ p.issues, IsErasure issue) :
    ∀ issue ∈ MixedSelection.issues s, IsErasure issue := by
  intro issue hissue
  rcases List.mem_append.1 hissue with hitem | hempty
  · obtain ⟨p, hp, hin⟩ := List.mem_flatMap.1 hitem
    exact h p hp issue hin
  · split at hempty
    · exact .inr (List.mem_singleton.1 hempty)
    · cases hempty

theorem MixedTree.isErasure_of_mem {p : MixedTree} : ∀ issue ∈ p.issues, IsErasure issue := by
  induction p with
  | leaf head args dirs =>
    rw [issues]
    exact fun _ h => absurd h List.not_mem_nil
  | branch head args dirs s ih =>
    rw [issues_some]
    exact MixedSelection.isErasure_of_forall ih
  | spread dots name dirs =>
    rw [issues]
    exact List.forall_mem_singleton.2 (.inl rfl)
  | inline dots condition dirs body =>
    rw [issues]
    exact List.forall_mem_singleton.2 (.inl rfl)

/-- The errors among the issues of an operation are those in its selection. -/
theorem MixedOperation.errors_issues (o : MixedOperation) :
    o.issues.filter (·.severity == .error) = o.faults := by
  have hfaults : ∀ issue ∈ o.faults, IsErasure issue := by
    cases o with
    | short selection | long _ _ _ _ selection =>
      exact MixedSelection.isErasure_of_forall fun _ _ => MixedTree.isErasure_of_mem
  have herrors : o.faults.filter (·.severity == .error) = o.faults := by
    refine List.filter_eq_self.2 fun issue hissue => ?_
    rcases hfaults issue hissue with rfl | rfl <;> rfl
  rw [issues, List.filter_append, herrors, filter_undeclared, List.append_nil]

end Grammar

namespace Document

open Grammar

/-- A source in which fragment selections stand is read as the operations without them. One error is
reported for each fragment selection that stands in no other, and one for each selection in which no
field is left. -/
structure Erases (source : String) (ops : List MixedOperation) : Prop where
  document : (ofSource source).value = ⟨ops.map MixedOperation.operation⟩
  errors : ((ofSource source).reports.filter (·.isError)).map (·.issue) =
    ops.flatMap MixedOperation.faults
  codes : (diagnostics source).errors.map (·.code) =
    (ops.flatMap MixedOperation.faults).map Issue.code

/-- Fragments in selections are erased, wherever they stand, and each of them is reported. Only the
tokens matter, which are those of the scanner of bytes up to `2 ^ 32 - 4` bytes. -/
theorem erases_fragments {source : String} {ops : List MixedOperation}
    (h : tokenize source = ops.flatMap MixedOperation.tokens) : Erases source ops := by
  have hread : (ofSource source).Raises ⟨ops.map MixedOperation.operation⟩ []
      (ops.flatMap MixedOperation.issues) := by
    rw [ofSource, h, ← List.filterMap_eq_map]
    exact raises_ofTokens (fun o _ => o.starts.imp fun _ _ => trivial)
      fun o _ kept rest => o.definitionStep_apply kept rest
  have herrors : ((ofSource source).reports.filter (·.isError)).map (·.issue) =
      ops.flatMap MixedOperation.faults := by
    rw [hread.errors, List.filter_flatMap]
    exact congrArg (ops.flatMap ·) (funext MixedOperation.errors_issues)
  refine ⟨hread.value, herrors, ?_⟩
  rw [diagnostics, Reading.codes_errors, herrors]

/-- A selection keeps a field beside a spread; another has nothing but an inline fragment. -/
theorem erases_fragments_emptied :
    ∃ o : MixedOperation,
      tokenize "\x7ba\x7b...F b\x7dc\x7b...on T\x7bd\x7d\x7d\x7d" =
          [o].flatMap MixedOperation.tokens ∧
        o.operation = ⟨.query, none, [], [⟨none, "a", [], [], some [⟨none, "b", [], [], none⟩]⟩,
          ⟨none, "c", [], [], some []⟩]⟩ ∧
        o.faults = [.fragmentSelection, .fragmentSelection, .emptySelection] ∧
        Erases "\x7ba\x7b...F b\x7dc\x7b...on T\x7bd\x7d\x7d\x7d" [o] := by
  let kept : MixedSelection :=
    { opening := ⟨⟨.punctuator .braceOpen, "\x7b", 2⟩, rfl⟩
      items := [.spread ⟨⟨.punctuator .spread, "...", 3⟩, rfl⟩ ⟨⟨.name, "F", 6⟩, rfl, by decide⟩ [],
        .field ⟨⟨⟨.name, "b", 8⟩, rfl⟩, none⟩ none [] none]
      closing := ⟨⟨.punctuator .braceClose, "\x7d", 9⟩, rfl⟩ }
  let body : Enclosed .braceOpen .braceClose RawSelection :=
    { opening := ⟨⟨.punctuator .braceOpen, "\x7b", 19⟩, rfl⟩
      items := [.field ⟨⟨⟨.name, "d", 20⟩, rfl⟩, none⟩ none [] none]
      closing := ⟨⟨.punctuator .braceClose, "\x7d", 21⟩, rfl⟩ }
  let emptied : MixedSelection :=
    { opening := ⟨⟨.punctuator .braceOpen, "\x7b", 11⟩, rfl⟩
      items := [.inline ⟨⟨.punctuator .spread, "...", 12⟩, rfl⟩
        (some ⟨⟨⟨.keyword .on, "on", 15⟩, rfl⟩, ⟨⟨.name, "T", 18⟩, rfl⟩⟩) [] body]
      closing := ⟨⟨.punctuator .braceClose, "\x7d", 22⟩, rfl⟩ }
  let operation : MixedOperation := .short
    { opening := ⟨⟨.punctuator .braceOpen, "\x7b", 0⟩, rfl⟩
      items := [.field ⟨⟨⟨.name, "a", 1⟩, rfl⟩, none⟩ none [] (some kept),
        .field ⟨⟨⟨.name, "c", 10⟩, rfl⟩, none⟩ none [] (some emptied)]
      closing := ⟨⟨.punctuator .braceClose, "\x7d", 23⟩, rfl⟩ }
  have htokens : tokenize "\x7ba\x7b...F b\x7dc\x7b...on T\x7bd\x7d\x7d\x7d" =
      [operation].flatMap MixedOperation.tokens := by
    simp only [operation, kept, emptied, body, List.flatMap_cons, List.flatMap_nil,
      MixedOperation.tokens, Enclosed.tokens, MixedTree.tokens, TypeCondition.tokens,
      RawSelection.tokens, RawArguments.tokens, HeadTree.tokens, ArgumentsTree.tokens, perhaps]
    decide +kernel
  refine ⟨operation, htokens, ?_, ?_, erases_fragments htokens⟩
  · simp only [operation, kept, emptied, MixedOperation.operation, MixedSelection.fields,
      MixedTree.field?, List.filterMap_cons, List.filterMap_nil]
    rfl
  · simp only [operation, kept, emptied, MixedOperation.faults, MixedSelection.issues,
      MixedSelection.fields, MixedTree.issues, MixedTree.field?, List.flatMap_cons,
      List.flatMap_nil, List.filterMap_cons, List.filterMap_nil]
    rfl

end Document

end QueryBatch
