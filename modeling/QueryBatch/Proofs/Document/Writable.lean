import QueryBatch.Proofs.Document.RoundTrip
import QueryBatch.Proofs.Document.Substitution

/-!
# Documents that can be written, part by part

What can be written is told of lists by their members, and it is kept where variables get new names
that are words. Main statements:

* `Value.areSpellable_eq_all`, `Field.areSpellable_eq_all`: the names in a list are words if they
  are in each member;
* `Value.isSpellable_substitute`, `Field.isSpellable_substitute`: renaming keeps words;
* `Value.isGrammatical_substitute`, `Field.isGrammatical_substitute`: it keeps the grammar, too.
-/

namespace QueryBatch

/-- New names are words if the old ones are. -/
def KeepsWords (f : String → String) : Prop := ∀ name, isWord name = true → isWord (f name) = true

variable {f : String → String}

/-! ## Values -/

namespace Value

/-- Whether a list of values can be spelled is decided value by value. -/
theorem areSpellable_eq_all (vs : List Value) : areSpellable vs = vs.all (·.isSpellable) := by
  induction vs with
  | nil => rfl
  | cons v vs ih => rw [areSpellable, ih, List.all_cons]

theorem areEntriesSpellable_eq_all (es : List (String × Value)) :
    areEntriesSpellable es = es.all fun e => isWord e.1 && e.2.isSpellable := by
  induction es with
  | nil => rfl
  | cons e es ih => rw [areEntriesSpellable, ih, List.all_cons]

theorem areGrammatical_eq_all (vs : List Value) : areGrammatical vs = vs.all (·.isGrammatical) := by
  induction vs with
  | nil => rfl
  | cons v vs ih => rw [areGrammatical, ih, List.all_cons]

theorem areEntriesGrammatical_eq_all (es : List (String × Value)) :
    areEntriesGrammatical es = es.all (·.2.isGrammatical) := by
  induction es with
  | nil => rfl
  | cons e es ih => rw [areEntriesGrammatical, ih, List.all_cons]

theorem referencesInItems_eq_flatMap (vs : List Value) :
    referencesInItems vs = vs.flatMap references := by
  induction vs with
  | nil => rfl
  | cons v vs ih => rw [referencesInItems, ih, List.flatMap_cons]

theorem referencesInEntries_eq_flatMap (es : List (String × Value)) :
    referencesInEntries es = es.flatMap (·.2.references) := by
  induction es with
  | nil => rfl
  | cons e es ih => rw [referencesInEntries, ih, List.flatMap_cons]

mutual

/-- New names that are words leave a value spellable. -/
theorem isSpellable_substitute (hf : KeepsWords f) {v : Value} (h : v.isSpellable = true) :
    (v.substitute f).isSpellable = true := by
  cases v with
  | var name => exact hf name h
  | list items => exact areSpellable_substituteItems hf h
  | object entries => exact areEntriesSpellable_substituteEntries hf h
  | _ => exact h

theorem areSpellable_substituteItems (hf : KeepsWords f) {vs : List Value}
    (h : areSpellable vs = true) : areSpellable (substituteItems f vs) = true := by
  cases vs with
  | nil => rfl
  | cons v vs =>
    obtain ⟨hv, hvs⟩ := Bool.and_eq_true_iff.1 h
    exact Bool.and_eq_true_iff.2
      ⟨isSpellable_substitute hf hv, areSpellable_substituteItems hf hvs⟩

theorem areEntriesSpellable_substituteEntries (hf : KeepsWords f) {es : List (String × Value)}
    (h : areEntriesSpellable es = true) :
    areEntriesSpellable (substituteEntries f es) = true := by
  match es, h with
  | [], _ => rfl
  | (key, v) :: es, h =>
    obtain ⟨hentry, hes⟩ := Bool.and_eq_true_iff.1 h
    obtain ⟨hkey, hv⟩ := Bool.and_eq_true_iff.1 hentry
    exact Bool.and_eq_true_iff.2
      ⟨Bool.and_eq_true_iff.2 ⟨hkey, isSpellable_substitute hf hv⟩,
        areEntriesSpellable_substituteEntries hf hes⟩

end

mutual

/-- Only the names of enum values matter to the grammar, and they are no variables. -/
theorem isGrammatical_substitute (f : String → String) (v : Value) :
    (v.substitute f).isGrammatical = v.isGrammatical := by
  cases v with
  | list items => exact areGrammatical_substituteItems f items
  | object entries => exact areEntriesGrammatical_substituteEntries f entries
  | _ => rfl

theorem areGrammatical_substituteItems (f : String → String) (vs : List Value) :
    areGrammatical (substituteItems f vs) = areGrammatical vs := by
  cases vs with
  | nil => rfl
  | cons v vs =>
    rw [substituteItems, areGrammatical, areGrammatical, isGrammatical_substitute,
      areGrammatical_substituteItems]

theorem areEntriesGrammatical_substituteEntries (f : String → String)
    (es : List (String × Value)) :
    areEntriesGrammatical (substituteEntries f es) = areEntriesGrammatical es := by
  cases es with
  | nil => rfl
  | cons e es =>
    rw [substituteEntries, areEntriesGrammatical, areEntriesGrammatical, isGrammatical_substitute,
      areEntriesGrammatical_substituteEntries]

end

end Value

/-! ## Arguments and directives -/

namespace Argument

theorem all_isSpellable_substitute (hf : KeepsWords f) {args : List Argument}
    (h : args.all (·.isSpellable) = true) :
    (args.map (·.substitute f)).all (·.isSpellable) = true := by
  rw [List.all_map, List.all_eq_true]
  intro a ha
  obtain ⟨hname, hvalue⟩ := Bool.and_eq_true_iff.1 (List.all_eq_true.1 h a ha)
  exact Bool.and_eq_true_iff.2 ⟨hname, Value.isSpellable_substitute hf hvalue⟩

theorem areGrammatical_substitute (f : String → String) (args : List Argument) :
    areGrammatical (args.map (·.substitute f)) = areGrammatical args := by
  rw [areGrammatical, areGrammatical, List.all_map]
  exact congrArg args.all (funext fun a => Value.isGrammatical_substitute f a.value)

end Argument

namespace Directive

theorem all_isSpellable_substitute (hf : KeepsWords f) {ds : List Directive}
    (h : ds.all (·.isSpellable) = true) :
    (ds.map (·.substitute f)).all (·.isSpellable) = true := by
  rw [List.all_map, List.all_eq_true]
  intro d hd
  obtain ⟨hname, hargs⟩ := Bool.and_eq_true_iff.1 (List.all_eq_true.1 h d hd)
  exact Bool.and_eq_true_iff.2 ⟨hname, Argument.all_isSpellable_substitute hf hargs⟩

theorem areGrammatical_substitute (f : String → String) (ds : List Directive) :
    areGrammatical (ds.map (·.substitute f)) = areGrammatical ds := by
  rw [areGrammatical, areGrammatical, List.all_map]
  exact congrArg ds.all (funext fun d => Argument.areGrammatical_substitute f d.arguments)

end Directive

/-! ## Fields -/

namespace Field

theorem areSpellable_eq_all (fields : List Field) :
    areSpellable fields = fields.all (·.isSpellable) := by
  induction fields with
  | nil => rfl
  | cons q qs ih => rw [areSpellable, ih, List.all_cons]

theorem areGrammatical_eq_all (fields : List Field) :
    areGrammatical fields = fields.all (·.isGrammatical) := by
  induction fields with
  | nil => rfl
  | cons q qs ih => rw [areGrammatical, ih, List.all_cons]

/-- A field is spellable if all its parts are, and its name and its alias are words. -/
theorem isSpellable_iff {q : Field} :
    q.isSpellable = true ↔ (q.alias?.all isWord = true ∧ isWord q.name = true) ∧
      q.arguments.all (·.isSpellable) = true ∧ q.directives.all (·.isSpellable) = true ∧
        isSelectionSpellable q.selection = true := by
  obtain ⟨alias?, name, arguments, directives, selection⟩ := q
  simp only [isSpellable, Bool.and_eq_true, and_assoc]

/-- A field is grammatical if its values are, and neither its selection nor one in it is empty. -/
theorem isGrammatical_iff {q : Field} :
    q.isGrammatical = true ↔ Argument.areGrammatical q.arguments = true ∧
      Directive.areGrammatical q.directives = true ∧ isSelectionGrammatical q.selection = true := by
  obtain ⟨alias?, name, arguments, directives, selection⟩ := q
  simp only [isGrammatical, Bool.and_eq_true, and_assoc]

mutual

/-- The arguments, the directives and the selection of a field stay spellable. -/
theorem isSpellable_substitute (hf : KeepsWords f) {q : Field} (h : q.isSpellable = true) :
    (q.substitute f).isSpellable = true := by
  obtain ⟨alias?, name, arguments, directives, selection⟩ := q
  simp only [isSpellable, Bool.and_eq_true] at h
  obtain ⟨⟨⟨hnames, hargs⟩, hdirs⟩, hsel⟩ := h
  simp only [substitute, isSpellable, Bool.and_eq_true]
  exact ⟨⟨⟨hnames, Argument.all_isSpellable_substitute hf hargs⟩,
    Directive.all_isSpellable_substitute hf hdirs⟩, isSelectionSpellable_substitute hf hsel⟩

theorem isSelectionSpellable_substitute (hf : KeepsWords f) {selection : Option (List Field)}
    (h : isSelectionSpellable selection = true) :
    isSelectionSpellable (substituteSelection f selection) = true := by
  cases selection with
  | none => rfl
  | some fields => exact areSpellable_substituteList hf h

theorem areSpellable_substituteList (hf : KeepsWords f) {fields : List Field}
    (h : areSpellable fields = true) : areSpellable (substituteList f fields) = true := by
  cases fields with
  | nil => rfl
  | cons q qs =>
    obtain ⟨hq, hqs⟩ := Bool.and_eq_true_iff.1 h
    exact Bool.and_eq_true_iff.2 ⟨isSpellable_substitute hf hq, areSpellable_substituteList hf hqs⟩

end

mutual

/-- Renaming variables neither empties a selection nor changes the name of an enum value. -/
theorem isGrammatical_substitute (f : String → String) (q : Field) :
    (q.substitute f).isGrammatical = q.isGrammatical := by
  obtain ⟨alias?, name, arguments, directives, selection⟩ := q
  simp only [substitute, isGrammatical, Argument.areGrammatical_substitute,
    Directive.areGrammatical_substitute, isSelectionGrammatical_substitute]

theorem isSelectionGrammatical_substitute (f : String → String)
    (selection : Option (List Field)) :
    isSelectionGrammatical (substituteSelection f selection) =
      isSelectionGrammatical selection := by
  cases selection with
  | none => rfl
  | some fields =>
    rw [substituteSelection, isSelectionGrammatical, isSelectionGrammatical,
      areGrammatical_substituteList, substituteList_eq_map, List.isEmpty_map]

theorem areGrammatical_substituteList (f : String → String) (fields : List Field) :
    areGrammatical (substituteList f fields) = areGrammatical fields := by
  cases fields with
  | nil => rfl
  | cons q qs =>
    rw [substituteList, areGrammatical, areGrammatical, isGrammatical_substitute,
      areGrammatical_substituteList]

end

end Field

/-! ## Definitions -/

namespace VariableDefinition

/-- A variable is declared under a word, and its type and default are spellable. -/
theorem isSpellable_substitute (hf : KeepsWords f) {v : VariableDefinition}
    (h : v.isSpellable = true) : (v.substitute f).isSpellable = true := by
  obtain ⟨hhead, hdefault⟩ := Bool.and_eq_true_iff.1 h
  obtain ⟨hname, htype⟩ := Bool.and_eq_true_iff.1 hhead
  exact Bool.and_eq_true_iff.2 ⟨Bool.and_eq_true_iff.2 ⟨hf _ hname, htype⟩, hdefault⟩

theorem isGrammatical_substitute (f : String → String) (v : VariableDefinition) :
    (v.substitute f).isGrammatical = v.isGrammatical := rfl

end VariableDefinition

end QueryBatch
