import Mathlib.Data.List.Sort
import QueryBatch.Proofs.Document.Substitution

/-!
# Where variables stand

A place in a value or in a field is told by the indices on the way to it. The parts of a phrase are
counted from the left, so the places of a phrase are in the order of its text where they are
compared from their first index on. Main statements:

* `InReadingOrder.within`: if the variables of each part of a phrase are listed in order, then so
  are the variables of the phrase, one part after the other;
* `Value.inReadingOrder_references`, `Field.inReadingOrder_references`: the variables of values and
  fields are listed in order, each as often as it stands there;
* `searches_as_listed`: whatever is searched for, it is found exactly if it is in that list.
-/

namespace QueryBatch

/-! ## Places -/

/-- What stands at the places of a phrase that consists of some parts; the first index of a place
tells the part. -/
def within (parts : List (List Nat → Option String)) : List Nat → Option String
  | [] => none
  | i :: place => parts[i]?.bind (· place)

/-- There is one name for each place where a name stands, in the order of the places. -/
def InReadingOrder (at? : List Nat → Option String) (names : List String) : Prop :=
  ∃ places : List (List Nat), places.Pairwise (· < ·) ∧
    (∀ place, place ∈ places ↔ (at? place).isSome) ∧ places.map at? = names.map some

/-- The same place, where one more part stands in front. -/
def nextPart : List Nat → List Nat
  | [] => []
  | i :: place => (i + 1) :: place

theorem nextPart_lt_nextPart {p q : List Nat} (h : p < q) : nextPart p < nextPart q := by
  cases p with
  | nil =>
    cases q with
    | nil => exact h
    | cons j q => exact List.nil_lt_cons ..
  | cons i p =>
    cases q with
    | nil => exact absurd h (List.not_lt_nil _)
    | cons j q =>
      rcases List.cons_lt_cons_iff.1 h with hlt | ⟨rfl, hlt⟩
      · exact List.cons_lt_cons_iff.2 (.inl (Nat.succ_lt_succ hlt))
      · exact List.cons_lt_cons_iff.2 (.inr ⟨rfl, hlt⟩)

section Parts

variable {at? : List Nat → Option String} {parts : List (List Nat → Option String)}

theorem within_nextPart (place : List Nat) :
    within (at? :: parts) (nextPart place) = within parts place := by
  cases place with
  | nil => rfl
  | cons i place => rfl

theorem lt_nextPart {place other : List Nat} (h : (within parts other).isSome) :
    0 :: place < nextPart other := by
  cases other with
  | nil => cases h
  | cons i other => exact List.cons_lt_cons_iff.2 (.inl (Nat.succ_pos i))

theorem mem_places_cons {places later : List (List Nat)}
    (h : ∀ place, place ∈ places ↔ (at? place).isSome)
    (hlater : ∀ place, place ∈ later ↔ (within parts place).isSome) (place : List Nat) :
    place ∈ places.map (0 :: ·) ++ later.map nextPart ↔ (within (at? :: parts) place).isSome := by
  rw [List.mem_append, List.mem_map, List.mem_map]
  constructor
  · rintro (⟨p, hp, rfl⟩ | ⟨p, hp, rfl⟩)
    · exact (h p).1 hp
    · rw [within_nextPart]
      exact (hlater p).1 hp
  · intro hsome
    match place with
    | [] => cases hsome
    | 0 :: p => exact .inl ⟨p, (h p).2 hsome, rfl⟩
    | (i + 1) :: p => exact .inr ⟨i :: p, (hlater (i :: p)).2 hsome, rfl⟩

end Parts

namespace InReadingOrder

variable {at? : List Nat → Option String} {parts : List (List Nat → Option String)}
  {names more : List String}

/-- There is one list of the names in their order. -/
theorem unique (h : InReadingOrder at? names) (hmore : InReadingOrder at? more) : names = more := by
  obtain ⟨places, hascending, hmem, hnames⟩ := h
  obtain ⟨others, hascending', hmem', hmore⟩ := hmore
  obtain rfl : places = others :=
    hascending.eq_of_mem_iff hascending' fun place => (hmem place).trans (hmem' place).symm
  exact List.map_injective_iff.2 (Option.some_injective _) (hnames.symm.trans hmore)

/-- There is nothing in a phrase without parts. -/
theorem nil : InReadingOrder (within []) [] :=
  ⟨[], .nil, fun place => by cases place <;> simp [within], rfl⟩

theorem cons (h : InReadingOrder at? names) (hparts : InReadingOrder (within parts) more) :
    InReadingOrder (within (at? :: parts)) (names ++ more) := by
  obtain ⟨places, hascending, hmem, hnames⟩ := h
  obtain ⟨later, hascending', hmem', hmore⟩ := hparts
  refine ⟨places.map (0 :: ·) ++ later.map nextPart, ?_, mem_places_cons hmem hmem', ?_⟩
  · refine List.pairwise_append.2 ⟨List.pairwise_map.2 ?_, List.pairwise_map.2 ?_, ?_⟩
    · exact hascending.imp fun hlt => List.cons_lt_cons_iff.2 (.inr ⟨rfl, hlt⟩)
    · exact hascending'.imp nextPart_lt_nextPart
    · intro p hp q hq
      obtain ⟨p, -, rfl⟩ := List.mem_map.1 hp
      obtain ⟨q, hlater, rfl⟩ := List.mem_map.1 hq
      exact lt_nextPart ((hmem' q).1 hlater)
  · have hfirst : (places.map (0 :: ·)).map (QueryBatch.within (at? :: parts)) =
        places.map at? := by
      rw [List.map_map]
      rfl
    have hlater : (later.map nextPart).map (QueryBatch.within (at? :: parts)) =
        later.map (QueryBatch.within parts) := by
      rw [List.map_map]
      exact List.map_congr_left fun p _ => within_nextPart p
    rw [List.map_append, hfirst, hlater, hnames, hmore, List.map_append]

/-- The parts of a phrase are read one after the other. -/
theorem within {α : Type} {xs : List α} {placed : α → List Nat → Option String}
    {listed : α → List String} (h : ∀ x ∈ xs, InReadingOrder (placed x) (listed x)) :
    InReadingOrder (within (xs.map placed)) (xs.flatMap listed) := by
  induction xs with
  | nil => exact .nil
  | cons x xs ih =>
    rw [List.map_cons, List.flatMap_cons]
    exact (h x List.mem_cons_self).cons (ih fun y hy => h y (List.mem_cons_of_mem _ hy))

end InReadingOrder

/-! ## Values -/

namespace Value

/-- The variable at a place in a value. The items of a list and the entries of an object are counted
from the left. -/
def variableAt? : Value → List Nat → Option String
  | var name, [] => some name
  | list items, i :: place => items[i]?.bind (·.variableAt? place)
  | object entries, i :: place => entries[i]?.bind (·.2.variableAt? place)
  | _, _ => none

theorem variableAt?_list (items : List Value) :
    (list items).variableAt? = within (items.map variableAt?) := by
  funext place
  cases place with
  | nil => rfl
  | cons i place => simp [variableAt?, within, Option.bind_map]

theorem variableAt?_object (entries : List (String × Value)) :
    (object entries).variableAt? = within (entries.map (·.2.variableAt?)) := by
  funext place
  cases place with
  | nil => rfl
  | cons i place => simp [variableAt?, within, Option.bind_map]

/-- A value at which nothing stands. -/
theorem inReadingOrder_nil {v : Value} (h : ∀ place, v.variableAt? place = none) :
    InReadingOrder v.variableAt? [] :=
  ⟨[], .nil, fun place => by simp [h place], rfl⟩

mutual

theorem inReadingOrder_references (v : Value) : InReadingOrder v.variableAt? v.references := by
  cases v with
  | var name =>
    refine ⟨[[]], List.pairwise_singleton .., fun place => ?_, rfl⟩
    cases place <;> simp [variableAt?]
  | list items =>
    rw [variableAt?_list, references]
    exact inReadingOrder_items items
  | object entries =>
    rw [variableAt?_object, references]
    exact inReadingOrder_entries entries
  | _ => exact inReadingOrder_nil fun place => by cases place <;> rfl

theorem inReadingOrder_items (vs : List Value) :
    InReadingOrder (within (vs.map variableAt?)) (referencesInItems vs) := by
  cases vs with
  | nil => exact .nil
  | cons v vs => exact (inReadingOrder_references v).cons (inReadingOrder_items vs)

theorem inReadingOrder_entries (es : List (String × Value)) :
    InReadingOrder (within (es.map (·.2.variableAt?))) (referencesInEntries es) := by
  match es with
  | [] => exact .nil
  | (key, v) :: es => exact (inReadingOrder_references v).cons (inReadingOrder_entries es)

end

end Value

/-! ## Fields -/

namespace Argument

/-- The variables of arguments, which are counted from the left. -/
def listed (args : List Argument) : List Nat → Option String :=
  within (args.map (·.value.variableAt?))

theorem inReadingOrder_references (args : List Argument) :
    InReadingOrder (listed args) (referencesInList args) :=
  .within fun a _ => a.value.inReadingOrder_references

end Argument

namespace Directive

/-- The variables of directives, which are counted from the left, and so are their arguments. -/
def listed (ds : List Directive) : List Nat → Option String :=
  within (ds.map (Argument.listed ·.arguments))

theorem inReadingOrder_references (ds : List Directive) :
    InReadingOrder (listed ds) (referencesInList ds) :=
  .within fun d _ => Argument.inReadingOrder_references d.arguments

end Directive

namespace Field

/-- The variable at a place in a field. The first index tells the part: `0` the arguments, `1` the
directives, and `2` the nested selection. -/
def variableAt? : Field → List Nat → Option String
  | f, 0 :: i :: place => f.arguments[i]?.bind (·.value.variableAt? place)
  | f, 1 :: i :: j :: place =>
    f.directives[i]?.bind fun d => d.arguments[j]?.bind (·.value.variableAt? place)
  | f, 2 :: i :: place => (f.selection.bind (·[i]?)).bind (·.variableAt? place)
  | _, _ => none

/-- A field has three parts in which variables may stand. -/
theorem variableAt?_eq_within (f : Field) :
    f.variableAt? = within [Argument.listed f.arguments, Directive.listed f.directives,
      within ((f.selection.getD []).map variableAt?)] := by
  funext place
  match place with
  | [] => rfl
  | 0 :: place =>
    cases place <;> simp [variableAt?, within, Argument.listed, Option.bind_map]
  | [1] => rfl
  | [1, i] =>
    cases h : f.directives[i]? <;>
      simp [variableAt?, within, Directive.listed, Argument.listed, h]
  | 1 :: i :: j :: place =>
    simp [variableAt?, within, Directive.listed, Argument.listed, Option.bind_map,
      Function.comp_def]
  | [2] => rfl
  | 2 :: i :: place =>
    cases h : f.selection <;>
      simp [variableAt?, within, h, Option.bind_map]
  | (n + 3) :: place => simp [variableAt?, within]

mutual

theorem inReadingOrder_references (f : Field) : InReadingOrder f.variableAt? f.references := by
  obtain ⟨alias?, name, arguments, directives, selection⟩ := f
  rw [variableAt?_eq_within, references, ownReferences, List.append_assoc]
  refine (Argument.inReadingOrder_references arguments).cons
    ((Directive.inReadingOrder_references directives).cons ?_)
  rw [← List.append_nil (referencesInSelection selection)]
  exact (inReadingOrder_selection selection).cons .nil

theorem inReadingOrder_selection (selection : Option (List Field)) :
    InReadingOrder (within ((selection.getD []).map variableAt?))
      (referencesInSelection selection) := by
  cases selection with
  | none => exact .nil
  | some fields => exact inReadingOrder_list fields

theorem inReadingOrder_list (fields : List Field) :
    InReadingOrder (within (fields.map variableAt?)) (referencesInList fields) := by
  cases fields with
  | nil => exact .nil
  | cons f fs => exact (inReadingOrder_references f).cons (inReadingOrder_list fs)

end

end Field

/-! ## Searching and listing -/

/-- A search of the variables finds what is in their list, a value is constant if it has none, and
the list has them in the order of the text: those of the arguments, then those of the directives,
then those of the nested selection, each as often as it stands there. -/
theorem searches_as_listed :
    (∀ (f : Field) (p : String → Bool),
      f.mentions p = true ↔ ∃ name ∈ f.references, p name = true) ∧
    (∀ (v : Value) (p : String → Bool),
      v.mentions p = true ↔ ∃ name ∈ v.references, p name = true) ∧
    (∀ v : Value, v.isConstant = true ↔ v.references = []) ∧
    (∀ (v : Value) (names : List String),
      InReadingOrder v.variableAt? names ↔ names = v.references) ∧
    (∀ (f : Field) (names : List String),
      InReadingOrder f.variableAt? names ↔ names = f.references) ∧
    ∀ op : Operation, op.references = op.fields.flatMap Field.references := by
  refine ⟨fun f p => ?_, fun v p => ?_, fun v => ?_, fun v names => ?_, fun f names => ?_,
    Operation.references_eq_flatMap⟩
  · rw [Field.mentions_eq_any, List.any_eq_true]
  · rw [Value.mentions_eq_any, List.any_eq_true]
  · rw [Value.isConstant, Value.mentions_eq_any]
    cases v.references <;> simp
  · have hlisted := v.inReadingOrder_references
    exact ⟨fun h => h.unique hlisted, fun h => h ▸ hlisted⟩
  · have hlisted := f.inReadingOrder_references
    exact ⟨fun h => h.unique hlisted, fun h => h ▸ hlisted⟩

end QueryBatch
