import QueryBatch.Document.OfSource
import QueryBatch.Proofs.Document.Completeness
import QueryBatch.Proofs.Document.Derivation

/-!
# A printed document is read back

Main statements:

* `Document.isDocument`: the tokens of a printed document are those of the document in the grammar;
* `Document.ofSource_text`: reading what was printed gives the document back, in every style.
-/

namespace QueryBatch

open Grammar

/-! ## Documents that can be written -/

def Argument.areGrammatical (args : List Argument) : Bool := args.all (·.value.isGrammatical)

def Directive.areGrammatical (ds : List Directive) : Bool :=
  ds.all fun d => Argument.areGrammatical d.arguments

namespace Field

mutual

/-- Whether there is a field in each selection, at every depth. -/
def isGrammatical : Field → Bool
  | ⟨_, _, arguments, directives, selection⟩ =>
    Argument.areGrammatical arguments && Directive.areGrammatical directives &&
      isSelectionGrammatical selection

def isSelectionGrammatical : Option (List Field) → Bool
  | none => true
  | some fields => !fields.isEmpty && areGrammatical fields

def areGrammatical : List Field → Bool
  | [] => true
  | f :: fs => f.isGrammatical && areGrammatical fs

end

end Field

/-- Whether the type can be written, and the default is constant. -/
def VariableDefinition.isGrammatical (v : VariableDefinition) : Bool :=
  v.type.isGrammatical && v.default.all fun value => value.isGrammatical && value.isConstant

/-- Whether an operation can be written: its variables have different names, and so on. -/
def Operation.isGrammatical (op : Operation) : Bool :=
  op.definitions.all (·.isGrammatical) && decide op.variableNames.Nodup &&
    Field.isSelectionGrammatical (some op.fields)

def Document.isGrammatical (d : Document) : Bool := d.operations.all (·.isGrammatical)

variable {t : Token} {ts : List Token}

/-! ## Arguments and directives -/

namespace Argument

/-- The tokens of a printed argument form this argument. -/
theorem isArgument {a : Argument} (hs : a.isSpellable = true) (hg : a.value.isGrammatical = true)
    (h : ts.map Token.spelling = a.spellings) : IsArgument ts a := by
  obtain ⟨-, hvalue⟩ := Bool.and_eq_true_iff.1 hs
  exact Value.isEntry (fun _ hus => Value.isValue hvalue hg a.value.fits_false hus) h

theorem areArguments {args : List Argument} (hs : args.all isSpellable = true)
    (hg : areGrammatical args = true) (h : ts.map Token.spelling = listSpellings args) :
    AreArguments ts args := by
  have heach : ∀ a ∈ args, ∀ us, us.map Token.spelling = a.spellings → IsArgument us a :=
    fun a ha _ => isArgument (List.all_eq_true.1 hs a ha) (List.all_eq_true.1 hg a ha)
  rcases exists_parenthesized heach h with ⟨rfl, rfl⟩ | ⟨o, us, c, rfl, ho, hargs, hc⟩
  · exact .none
  · exact .some ho hargs hc

end Argument

namespace Directive

/-- The tokens of a printed directive form this directive. -/
theorem isDirective {d : Directive} (hs : d.isSpellable = true)
    (hg : Argument.areGrammatical d.arguments = true) (h : ts.map Token.spelling = d.spellings) :
    IsDirective ts d := by
  obtain ⟨-, hargs⟩ := Bool.and_eq_true_iff.1 hs
  obtain ⟨a, more, rfl, ha, hmore⟩ := List.map_eq_cons_iff.1 h
  obtain ⟨n, us, rfl, hn, hus⟩ := List.map_eq_cons_iff.1 hmore
  obtain ⟨name, arguments⟩ := d
  obtain rfl := text_of_word hn
  exact .mk (kind_of_mark ha) (isName_of_word hn) (Argument.areArguments hargs hg hus)

theorem areDirectives {ds : List Directive} (hs : ds.all isSpellable = true)
    (hg : areGrammatical ds = true) (h : ts.map Token.spelling = ds.flatMap spellings) :
    Each IsDirective ts ds :=
  each_of_flatMap (fun d hd _ => isDirective (List.all_eq_true.1 hs d hd)
    (List.all_eq_true.1 hg d hd)) h

end Directive

/-! ## Fields -/

namespace Field

/-- An alias is written before the name, with a colon between them. -/
theorem isHead {alias? : Option String} {name : String}
    (h : ts.map Token.spelling = aliasSpellings alias? ++ [.word name]) :
    IsHead ts alias? name := by
  cases alias? with
  | none =>
    obtain ⟨n, rfl, hn⟩ := exists_single h
    obtain rfl := text_of_word hn
    exact .plain (isName_of_word hn)
  | some key =>
    obtain ⟨a, more, rfl, ha, hmore⟩ := List.map_eq_cons_iff.1 h
    obtain ⟨c, last, rfl, hc, hlast⟩ := List.map_eq_cons_iff.1 hmore
    obtain ⟨n, rfl, hn⟩ := exists_single hlast
    obtain rfl := text_of_word ha
    obtain rfl := text_of_word hn
    exact .aliased (isName_of_word ha) (kind_of_mark hc) (isName_of_word hn)

/-- A selection is that of the grammar if the fields in it are. -/
theorem isSelection_of_each {fields : List Field}
    (hfields : ∀ us, us.map Token.spelling = spellingsOfFields fields → Each IsField us fields)
    (hne : fields.isEmpty = false)
    (h : ts.map Token.spelling = selectionSpellings (some fields)) :
    IsSelection IsField ts fields := by
  obtain ⟨o, us, c, rfl, ho, hus, hc⟩ := exists_enclosed h
  exact .mk ho (hfields us hus) (List.isEmpty_eq_false_iff.1 hne) hc

mutual

/-- The tokens of a printed field are those of the field in the grammar. -/
theorem isField {f : Field} (hs : f.isSpellable = true) (hg : f.isGrammatical = true)
    {ts : List Token} (h : ts.map Token.spelling = f.spellings) : IsField ts f := by
  obtain ⟨alias?, name, arguments, directives, selection⟩ := f
  simp only [isSpellable, Bool.and_eq_true] at hs
  obtain ⟨⟨-, hsargs⟩, hsdirs⟩ := hs.1
  simp only [isGrammatical, Bool.and_eq_true] at hg
  obtain ⟨⟨hgargs, hgdirs⟩, hgsel⟩ := hg
  -- The head is taken as a whole, as an alias may or may not be part of it.
  have hsplit : ts.map Token.spelling = (aliasSpellings alias? ++ [.word name]) ++
      (Argument.listSpellings arguments ++
        (directives.flatMap Directive.spellings ++ selectionSpellings selection)) := by
    rw [h, spellings, List.append_assoc, List.singleton_append]
  obtain ⟨us, tail, rfl, hus, htail⟩ := List.map_eq_append_iff.1 hsplit
  obtain ⟨vs, tail, rfl, hvs, htail⟩ := List.map_eq_append_iff.1 htail
  obtain ⟨ws, tail, rfl, hws, htail⟩ := List.map_eq_append_iff.1 htail
  have hhead := isHead hus
  have hargs := Argument.areArguments hsargs hgargs hvs
  have hdirs := Directive.areDirectives hsdirs hgdirs hws
  cases selection with
  | none =>
    obtain rfl := List.map_eq_nil_iff.1 htail
    rw [List.append_nil]
    exact .leaf hhead hargs hdirs
  | some fields =>
    obtain ⟨hne, hgfields⟩ := Bool.and_eq_true_iff.1 hgsel
    have hsome : fields.isEmpty = false := by simpa using hne
    refine .branch hhead hargs hdirs (isSelection_of_each (fun _ hus => ?_) hsome htail)
    exact areFields hs.2 hgfields hus

theorem areFields {fields : List Field} (hs : areSpellable fields = true)
    (hg : areGrammatical fields = true) {ts : List Token}
    (h : ts.map Token.spelling = spellingsOfFields fields) : Each IsField ts fields := by
  cases fields with
  | nil =>
    obtain rfl := List.map_eq_nil_iff.1 h
    exact .nil
  | cons f fs =>
    obtain ⟨hsf, hsfs⟩ := Bool.and_eq_true_iff.1 hs
    obtain ⟨hgf, hgfs⟩ := Bool.and_eq_true_iff.1 hg
    obtain ⟨us, us', rfl, hus, hus'⟩ := List.map_eq_append_iff.1 h
    exact .cons (isField hsf hgf hus) (areFields hsfs hgfs hus')

end

theorem isSelection {fields : List Field} (hs : areSpellable fields = true)
    (hg : isSelectionGrammatical (some fields) = true)
    (h : ts.map Token.spelling = selectionSpellings (some fields)) :
    IsSelection IsField ts fields := by
  obtain ⟨hne, hgfields⟩ := Bool.and_eq_true_iff.1 hg
  exact isSelection_of_each (fun _ => areFields hs hgfields) (by simpa using hne) h

end Field

/-! ## Operations -/

namespace VariableDefinition

/-- A printed default is a constant behind the sign for it. -/
theorem isDefault {default : Option Value} (hs : default.all (·.isSpellable) = true)
    (hg : (default.all fun value => value.isGrammatical && value.isConstant) = true)
    (h : ts.map Token.spelling = defaultSpellings default) : IsDefault ts default := by
  cases default with
  | none =>
    obtain rfl := List.map_eq_nil_iff.1 h
    exact .none
  | some v =>
    obtain ⟨hgv, hconstant⟩ := Bool.and_eq_true_iff.1 hg
    obtain ⟨e, us, rfl, he, hus⟩ := List.map_eq_cons_iff.1 h
    have hfits : v.fits true = true := hconstant
    exact .some (kind_of_mark he) (Value.isValue hs hgv hfits hus)

theorem isDefinition {v : VariableDefinition} (hs : v.isSpellable = true)
    (hg : v.isGrammatical = true) (h : ts.map Token.spelling = v.spellings) :
    IsDefinition ts v := by
  obtain ⟨-, hsdefault⟩ := Bool.and_eq_true_iff.1 hs
  obtain ⟨hgtype, hgdefault⟩ := Bool.and_eq_true_iff.1 hg
  obtain ⟨d, more, rfl, hd, hmore⟩ := List.map_eq_cons_iff.1 h
  obtain ⟨n, more, rfl, hn, hmore⟩ := List.map_eq_cons_iff.1 hmore
  obtain ⟨c, more, rfl, hc, hmore⟩ := List.map_eq_cons_iff.1 hmore
  obtain ⟨us, vs, rfl, hus, hvs⟩ := List.map_eq_append_iff.1 hmore
  obtain ⟨name, type, default⟩ := v
  obtain rfl := text_of_word hn
  exact .mk (kind_of_mark hd) (isName_of_word hn) (kind_of_mark hc) (TypeRef.isType hgtype hus)
    (isDefault hsdefault hgdefault hvs)

/-- Variables with different names are all declared. -/
theorem areDefinitions {vs : List VariableDefinition} (hs : vs.all isSpellable = true)
    (hg : vs.all isGrammatical = true) (hnodup : (vs.map (·.name)).Nodup)
    (h : ts.map Token.spelling = listSpellings vs) : AreDefinitions ts vs := by
  have heach : ∀ v ∈ vs, ∀ us, us.map Token.spelling = v.spellings → IsDefinition us v :=
    fun v hv _ => isDefinition (List.all_eq_true.1 hs v hv) (List.all_eq_true.1 hg v hv)
  rcases exists_parenthesized heach h with ⟨rfl, rfl⟩ | ⟨o, us, c, rfl, ho, hdefs, hc⟩
  · exact .none
  · exact .some ho hdefs hnodup hc

end VariableDefinition

namespace Operation

theorem kind_of_operationKind {kind : OperationKind} (h : t.spelling = .word kind.text) :
    t.kind = .keyword (keywordOf kind) := by
  have hkind : t.kind = .ofWord kind.text := congrArg Spelling.kind h
  rw [hkind]
  cases kind <;> decide

theorem isOptionalName {name : Option String} (h : ts.map Token.spelling = nameSpellings name) :
    IsOptionalName ts name := by
  cases name with
  | none =>
    obtain rfl := List.map_eq_nil_iff.1 h
    exact .none
  | some name =>
    obtain ⟨n, rfl, hn⟩ := exists_single h
    obtain rfl := text_of_word hn
    exact .some (isName_of_word hn)

/-- The tokens of a printed operation form this operation. -/
theorem isOperation {op : Operation} (hs : op.isSpellable = true) (hg : op.isGrammatical = true)
    (h : ts.map Token.spelling = op.spellings) : IsOperation ts op := by
  simp only [isSpellable, Bool.and_eq_true] at hs
  obtain ⟨⟨-, hsdefs⟩, hsfields⟩ := hs
  simp only [isGrammatical, Bool.and_eq_true, decide_eq_true_eq] at hg
  obtain ⟨⟨hgdefs, hnodup⟩, hgfields⟩ := hg
  obtain ⟨k, more, rfl, hk, hmore⟩ := List.map_eq_cons_iff.1 h
  obtain ⟨us, more, rfl, hus, hmore⟩ := List.map_eq_append_iff.1 hmore
  obtain ⟨vs, ws, rfl, hvs, hws⟩ := List.map_eq_append_iff.1 hmore
  exact .long (kind_of_operationKind hk) (isOptionalName hus)
    (VariableDefinition.areDefinitions hsdefs hgdefs hnodup hvs)
    (Field.isSelection hsfields hgfields hws)

end Operation

/-! ## Documents -/

namespace Document

/-- The tokens of a printed document form this document. -/
theorem isDocument {d : Document} (hs : d.isSpellable = true) (hg : d.isGrammatical = true)
    (h : ts.map Token.spelling = d.spellings) : IsDocument ts d :=
  each_of_flatMap (fun op hop _ => Operation.isOperation (List.all_eq_true.1 hs op hop)
    (List.all_eq_true.1 hg op hop)) h

/-- Reading what was printed gives the document back, in every style, and no error is reported. If
the text has at most `2 ^ 32 - 4` bytes, the scanner of bytes gives the tokens that are read. -/
theorem ofSource_text {d : Document} (hs : d.isSpellable = true) (hg : d.isGrammatical = true)
    (style : Style) :
    (diagnostics (d.text style)).hasErrors = false ∧ (ofSource (d.text style)).value = d := by
  obtain ⟨reports, hread, hclean⟩ :=
    ofTokens_of_isDocument (isDocument hs hg (spellings_text hs style))
  rw [diagnostics, Reading.hasErrors_diagnostics, ofSource, hread]
  refine ⟨List.any_eq_false.2 fun r hr => ?_, rfl⟩
  obtain ⟨name, hissue⟩ := hclean r hr
  rw [Report.isError, hissue, Issue.severity]
  decide

/-- A search with variables, defaults and a nested selection. -/
def search : Document := ⟨[{
  kind := .query
  name := some "Search"
  definitions := [
    ⟨"text", .nonNull (.named "String"), some (.string "a \"b\"\n")⟩,
    ⟨"filter", .list (.nonNull (.named "Filter")), some (.list [.object [
      ("kind", .enum "ALL"), ("weight", .float (.finite false 7205759403792794 (-56) (by decide))),
      ("levels", .list [.int (-1), .null])]])⟩]
  fields := [{
    alias? := some "hits"
    name := "search"
    arguments := [⟨"text", .var "text"⟩, ⟨"filter", .var "filter"⟩]
    directives := [⟨"include", [⟨"if", .boolean true⟩]⟩]
    selection := some [⟨none, "id", [], [], none⟩, ⟨none, "score", [], [], none⟩] }] }]⟩

theorem ofSource_text_search :
    search.isSpellable = true ∧ search.isGrammatical = true ∧
      (diagnostics (search.text (.indented 4))).hasErrors = false ∧
      (ofSource (search.text (.indented 4))).value = search :=
  ⟨by decide, by decide, ofSource_text (by decide) (by decide) (.indented 4)⟩

end Document

end QueryBatch
