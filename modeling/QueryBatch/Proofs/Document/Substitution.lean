import QueryBatch.Operation.Renaming

/-!
# Substitution and the variables of a document

What a substitution of names does to values and fields is determined by the variables that occur
in them. Each statement is made for values, for arguments and directives, and for fields, and
follows the recursion of `references`. Main statements:

* `Value.mentions_eq_any`, `Field.mentions_eq_any`: searching the variables agrees with listing
  them;
* `Value.references_substitute`, `Field.references_substitute`: a substitution acts on each
  variable, in order;
* `Value.substitute_congr`, `Field.substitute_congr`: substitutions that agree on the variables
  that occur have the same result;
* `Value.substitute_substitute`, `Field.substitute_substitute`: two substitutions, one after the
  other, are one substitution;
* `Operation.substitute_eq_self_iff`: when a substitution changes nothing.
-/

namespace QueryBatch

variable {f g : String → String} {p : String → Bool}

/-! ## Values -/

namespace Value

mutual

/-- A search that stops at the first hit decides the same as one in the list of all variables. -/
theorem mentions_eq_any (p : String → Bool) (v : Value) : v.mentions p = v.references.any p := by
  cases v with
  | list items => simp only [mentions, references, mentionsInItems_eq_any]
  | object entries => simp only [mentions, references, mentionsInEntries_eq_any]
  | _ => simp [mentions, references]

theorem mentionsInItems_eq_any (p : String → Bool) (vs : List Value) :
    mentionsInItems p vs = (referencesInItems vs).any p := by
  cases vs with
  | nil => rfl
  | cons v vs =>
    simp only [mentionsInItems, referencesInItems, List.any_append, mentions_eq_any,
      mentionsInItems_eq_any]

theorem mentionsInEntries_eq_any (p : String → Bool) (es : List (String × Value)) :
    mentionsInEntries p es = (referencesInEntries es).any p := by
  cases es with
  | nil => rfl
  | cons e es =>
    simp only [mentionsInEntries, referencesInEntries, List.any_append, mentions_eq_any,
      mentionsInEntries_eq_any]

end

mutual

/-- The variables of a renamed value are the renamed variables of the value. -/
theorem references_substitute (f : String → String) (v : Value) :
    (v.substitute f).references = v.references.map f := by
  cases v with
  | list items => simp only [substitute, references, referencesInItems_substituteItems]
  | object entries => simp only [substitute, references, referencesInEntries_substituteEntries]
  | _ => simp [substitute, references]

theorem referencesInItems_substituteItems (f : String → String) (vs : List Value) :
    referencesInItems (substituteItems f vs) = (referencesInItems vs).map f := by
  cases vs with
  | nil => rfl
  | cons v vs =>
    simp only [substituteItems, referencesInItems, List.map_append, references_substitute,
      referencesInItems_substituteItems]

theorem referencesInEntries_substituteEntries (f : String → String)
    (es : List (String × Value)) :
    referencesInEntries (substituteEntries f es) = (referencesInEntries es).map f := by
  cases es with
  | nil => rfl
  | cons e es =>
    simp only [substituteEntries, referencesInEntries, List.map_append, references_substitute,
      referencesInEntries_substituteEntries]

end

mutual

/-- Only the images of the variables that occur matter to a substitution. -/
theorem substitute_congr {v : Value} (h : ∀ name ∈ v.references, f name = g name) :
    v.substitute f = v.substitute g := by
  cases v with
  | var name => exact congrArg var (h name (by simp [references]))
  | list items => exact congrArg list (substituteItems_congr h)
  | object entries => exact congrArg object (substituteEntries_congr h)
  | _ => rfl

theorem substituteItems_congr {vs : List Value}
    (h : ∀ name ∈ referencesInItems vs, f name = g name) :
    substituteItems f vs = substituteItems g vs := by
  cases vs with
  | nil => rfl
  | cons v vs =>
    simp only [referencesInItems, List.mem_append] at h
    rw [substituteItems, substituteItems, substitute_congr fun n hn => h n (.inl hn),
      substituteItems_congr fun n hn => h n (.inr hn)]

theorem substituteEntries_congr {es : List (String × Value)}
    (h : ∀ name ∈ referencesInEntries es, f name = g name) :
    substituteEntries f es = substituteEntries g es := by
  cases es with
  | nil => rfl
  | cons e es =>
    obtain ⟨key, v⟩ := e
    simp only [referencesInEntries, List.mem_append] at h
    rw [substituteEntries, substituteEntries, substitute_congr fun n hn => h n (.inl hn),
      substituteEntries_congr fun n hn => h n (.inr hn)]

end

mutual

/-- Where every variable keeps its name, so does the value. -/
theorem substitute_id (v : Value) : v.substitute id = v := by
  cases v with
  | list items => exact congrArg list (substituteItems_id items)
  | object entries => exact congrArg object (substituteEntries_id entries)
  | _ => rfl

theorem substituteItems_id (vs : List Value) : substituteItems id vs = vs := by
  cases vs with
  | nil => rfl
  | cons v vs => rw [substituteItems, substitute_id, substituteItems_id]

theorem substituteEntries_id (es : List (String × Value)) : substituteEntries id es = es := by
  cases es with
  | nil => rfl
  | cons e es => rw [substituteEntries, substitute_id, substituteEntries_id]

end

mutual

/-- Two substitutions one after the other are one. -/
theorem substitute_substitute (f g : String → String) (v : Value) :
    (v.substitute f).substitute g = v.substitute (g ∘ f) := by
  cases v with
  | list items => simp only [substitute, substituteItems_substituteItems]
  | object entries => simp only [substitute, substituteEntries_substituteEntries]
  | _ => rfl

theorem substituteItems_substituteItems (f g : String → String) (vs : List Value) :
    substituteItems g (substituteItems f vs) = substituteItems (g ∘ f) vs := by
  cases vs with
  | nil => rfl
  | cons v vs =>
    simp only [substituteItems, substitute_substitute, substituteItems_substituteItems]

theorem substituteEntries_substituteEntries (f g : String → String)
    (es : List (String × Value)) :
    substituteEntries g (substituteEntries f es) = substituteEntries (g ∘ f) es := by
  cases es with
  | nil => rfl
  | cons e es =>
    simp only [substituteEntries, substitute_substitute, substituteEntries_substituteEntries]

end

end Value

/-! ## Arguments and directives -/

namespace Argument

theorem mentionsInList_eq_any (p : String → Bool) (args : List Argument) :
    mentionsInList p args = (referencesInList args).any p := by
  simp only [mentionsInList, referencesInList, List.any_flatMap, Value.mentions_eq_any]

theorem referencesInList_substitute (f : String → String) (args : List Argument) :
    referencesInList (args.map (·.substitute f)) = (referencesInList args).map f := by
  simp only [referencesInList, List.flatMap_map, List.map_flatMap, substitute,
    Value.references_substitute]

theorem map_substitute_congr {args : List Argument}
    (h : ∀ name ∈ referencesInList args, f name = g name) :
    args.map (·.substitute f) = args.map (·.substitute g) := by
  refine List.map_congr_left fun a ha => ?_
  have hv : a.value.substitute f = a.value.substitute g :=
    Value.substitute_congr fun n hn => h n (List.mem_flatMap.2 ⟨a, ha, hn⟩)
  rw [substitute, substitute, hv]

theorem map_substitute_id (args : List Argument) : args.map (·.substitute id) = args := by
  simp [substitute, Value.substitute_id]

theorem map_substitute_substitute (f g : String → String) (args : List Argument) :
    (args.map (·.substitute f)).map (·.substitute g) = args.map (·.substitute (g ∘ f)) := by
  simp only [List.map_map, Function.comp_def, substitute, Value.substitute_substitute]

end Argument

namespace Directive

theorem mentionsInList_eq_any (p : String → Bool) (ds : List Directive) :
    mentionsInList p ds = (referencesInList ds).any p := by
  simp only [mentionsInList, referencesInList, List.any_flatMap, Argument.mentionsInList_eq_any]

theorem referencesInList_substitute (f : String → String) (ds : List Directive) :
    referencesInList (ds.map (·.substitute f)) = (referencesInList ds).map f := by
  simp only [referencesInList, List.flatMap_map, List.map_flatMap, substitute,
    Argument.referencesInList_substitute]

theorem map_substitute_congr {ds : List Directive}
    (h : ∀ name ∈ referencesInList ds, f name = g name) :
    ds.map (·.substitute f) = ds.map (·.substitute g) := by
  refine List.map_congr_left fun d hd => ?_
  have ha : d.arguments.map (·.substitute f) = d.arguments.map (·.substitute g) :=
    Argument.map_substitute_congr fun n hn => h n (List.mem_flatMap.2 ⟨d, hd, hn⟩)
  rw [substitute, substitute, ha]

theorem map_substitute_id (ds : List Directive) : ds.map (·.substitute id) = ds := by
  have h (d : Directive) : d.substitute id = d := by rw [substitute, Argument.map_substitute_id]
  simp [h]

theorem map_substitute_substitute (f g : String → String) (ds : List Directive) :
    (ds.map (·.substitute f)).map (·.substitute g) = ds.map (·.substitute (g ∘ f)) := by
  refine List.map_map.trans (List.map_congr_left fun d _ => ?_)
  show (d.substitute f).substitute g = d.substitute (g ∘ f)
  simp only [substitute, Argument.map_substitute_substitute]

end Directive

/-! ## Fields -/

namespace Field

theorem ownMentions_eq_any (p : String → Bool) (q : Field) :
    q.ownMentions p = q.ownReferences.any p := by
  simp only [ownMentions, ownReferences, List.any_append, Argument.mentionsInList_eq_any,
    Directive.mentionsInList_eq_any]

mutual

/-- The search goes through the arguments, the directives and the selection, as the list does. -/
theorem mentions_eq_any (p : String → Bool) (q : Field) :
    q.mentions p = q.references.any p := by
  obtain ⟨alias?, name, arguments, directives, selection⟩ := q
  simp only [mentions, references, List.any_append, ownMentions_eq_any,
    mentionsInSelection_eq_any]

theorem mentionsInSelection_eq_any (p : String → Bool) (selection : Option (List Field)) :
    mentionsInSelection p selection = (referencesInSelection selection).any p := by
  cases selection with
  | none => rfl
  | some fields => simp only [mentionsInSelection, referencesInSelection, mentionsInList_eq_any]

theorem mentionsInList_eq_any (p : String → Bool) (fields : List Field) :
    mentionsInList p fields = (referencesInList fields).any p := by
  cases fields with
  | nil => rfl
  | cons q qs =>
    simp only [mentionsInList, referencesInList, List.any_append, mentions_eq_any,
      mentionsInList_eq_any]

end

mutual

/-- The variables that occur in a field are renamed in the order in which they stand. -/
theorem references_substitute (f : String → String) (q : Field) :
    (q.substitute f).references = q.references.map f := by
  obtain ⟨alias?, name, arguments, directives, selection⟩ := q
  simp only [substitute, references, ownReferences, List.map_append,
    Argument.referencesInList_substitute, Directive.referencesInList_substitute,
    referencesInSelection_substituteSelection]

theorem referencesInSelection_substituteSelection (f : String → String)
    (selection : Option (List Field)) :
    referencesInSelection (substituteSelection f selection) =
      (referencesInSelection selection).map f := by
  cases selection with
  | none => rfl
  | some fields =>
    simp only [substituteSelection, referencesInSelection, referencesInList_substituteList]

theorem referencesInList_substituteList (f : String → String) (fields : List Field) :
    referencesInList (substituteList f fields) = (referencesInList fields).map f := by
  cases fields with
  | nil => rfl
  | cons q qs =>
    simp only [substituteList, referencesInList, List.map_append, references_substitute,
      referencesInList_substituteList]

end

mutual

/-- Substitutions that agree on the variables of a field give the same field. -/
theorem substitute_congr {q : Field} (h : ∀ name ∈ q.references, f name = g name) :
    q.substitute f = q.substitute g := by
  obtain ⟨alias?, name, arguments, directives, selection⟩ := q
  simp only [references, ownReferences, List.mem_append] at h
  simp only [substitute,
    Argument.map_substitute_congr fun n hn => h n (.inl (.inl hn)),
    Directive.map_substitute_congr fun n hn => h n (.inl (.inr hn)),
    substituteSelection_congr fun n hn => h n (.inr hn)]

theorem substituteSelection_congr {selection : Option (List Field)}
    (h : ∀ name ∈ referencesInSelection selection, f name = g name) :
    substituteSelection f selection = substituteSelection g selection := by
  cases selection with
  | none => rfl
  | some fields => exact congrArg some (substituteList_congr h)

theorem substituteList_congr {fields : List Field}
    (h : ∀ name ∈ referencesInList fields, f name = g name) :
    substituteList f fields = substituteList g fields := by
  cases fields with
  | nil => rfl
  | cons q qs =>
    simp only [referencesInList, List.mem_append] at h
    rw [substituteList, substituteList, substitute_congr fun n hn => h n (.inl hn),
      substituteList_congr fun n hn => h n (.inr hn)]

end

mutual

theorem substitute_id (q : Field) : q.substitute id = q := by
  obtain ⟨alias?, name, arguments, directives, selection⟩ := q
  rw [substitute, Argument.map_substitute_id, Directive.map_substitute_id, substituteSelection_id]

theorem substituteSelection_id (selection : Option (List Field)) :
    substituteSelection id selection = selection := by
  cases selection with
  | none => rfl
  | some fields => exact congrArg some (substituteList_id fields)

theorem substituteList_id (fields : List Field) : substituteList id fields = fields := by
  cases fields with
  | nil => rfl
  | cons q qs => rw [substituteList, substitute_id, substituteList_id]

end

mutual

theorem substitute_substitute (f g : String → String) (q : Field) :
    (q.substitute f).substitute g = q.substitute (g ∘ f) := by
  obtain ⟨alias?, name, arguments, directives, selection⟩ := q
  simp only [substitute, Argument.map_substitute_substitute, Directive.map_substitute_substitute,
    substituteSelection_substituteSelection]

theorem substituteSelection_substituteSelection (f g : String → String)
    (selection : Option (List Field)) :
    substituteSelection g (substituteSelection f selection) =
      substituteSelection (g ∘ f) selection := by
  cases selection with
  | none => rfl
  | some fields => exact congrArg some (substituteList_substituteList f g fields)

theorem substituteList_substituteList (f g : String → String) (fields : List Field) :
    substituteList g (substituteList f fields) = substituteList (g ∘ f) fields := by
  cases fields with
  | nil => rfl
  | cons q qs =>
    simp only [substituteList, substitute_substitute, substituteList_substituteList]

end

/-- The recursion through a selection is a map over its fields. -/
theorem substituteList_eq_map (f : String → String) (fields : List Field) :
    substituteList f fields = fields.map (·.substitute f) := by
  induction fields with
  | nil => rfl
  | cons q qs ih => rw [substituteList, ih, List.map_cons]

/-- A response key is an alias or the name of a field, and no variable. -/
theorem responseKey_substitute (f : String → String) (q : Field) :
    (q.substitute f).responseKey = q.responseKey := by
  obtain ⟨alias?, name, arguments, directives, selection⟩ := q
  rfl

end Field

/-! ## Operations -/

namespace Operation

/-- The variables of an operation are those of its fields, one field after the other. -/
theorem references_eq_flatMap (op : Operation) :
    op.references = op.fields.flatMap (·.references) := by
  rw [references]
  induction op.fields with
  | nil => rfl
  | cons q qs ih => rw [Field.referencesInList, ih, List.flatMap_cons]

theorem fields_substitute (f : String → String) (op : Operation) :
    (op.substitute f).fields = op.fields.map (·.substitute f) :=
  Field.substituteList_eq_map f op.fields

theorem responseKeys_substitute (f : String → String) (op : Operation) :
    (op.substitute f).responseKeys = op.responseKeys := by
  rw [responseKeys, fields_substitute, List.map_map]
  exact List.map_congr_left fun q _ => Field.responseKey_substitute f q

/-- References of an operation are renamed as its fields are. -/
theorem references_substitute (f : String → String) (op : Operation) :
    (op.substitute f).references = op.references.map f :=
  Field.referencesInList_substituteList f op.fields

/-- Renaming twice is renaming once, in the definitions too. -/
theorem substitute_substitute (f g : String → String) (op : Operation) :
    (op.substitute f).substitute g = op.substitute (g ∘ f) := by
  simp only [substitute, List.map_map, Function.comp_def, VariableDefinition.substitute,
    Field.substituteList_substituteList]

/-- Both the declared and the mentioned variables of an operation are looked up. -/
theorem substitute_congr {op : Operation} (hdeclared : ∀ name ∈ op.variableNames, f name = g name)
    (hmentioned : ∀ name ∈ op.references, f name = g name) :
    op.substitute f = op.substitute g := by
  have hdefs : op.definitions.map (·.substitute f) = op.definitions.map (·.substitute g) := by
    refine List.map_congr_left fun v hv => ?_
    rw [VariableDefinition.substitute, VariableDefinition.substitute,
      hdeclared v.name (List.mem_map_of_mem hv)]
  rw [substitute, substitute, hdefs, Field.substituteList_congr hmentioned]

theorem substitute_id (op : Operation) : op.substitute id = op := by
  have hdefs : op.definitions.map (·.substitute id) = op.definitions := List.map_id op.definitions
  rw [substitute, hdefs, Field.substituteList_id]

/-- A substitution changes nothing exactly if it keeps the name of each variable. -/
theorem substitute_eq_self_iff {op : Operation} : op.substitute f = op ↔
    (∀ name ∈ op.variableNames, f name = name) ∧ ∀ name ∈ op.references, f name = name := by
  constructor
  · intro h
    have hnames : op.variableNames.map f = op.variableNames.map id := by
      rw [← variableNames_substitute, h, List.map_id]
    have hreferences : op.references.map f = op.references.map id := by
      rw [← references_substitute, h, List.map_id]
    exact ⟨List.map_inj_left.1 hnames, List.map_inj_left.1 hreferences⟩
  · rintro ⟨hdeclared, hmentioned⟩
    rw [substitute_congr (g := id) hdeclared hmentioned, substitute_id]

/-- An operation without the names of its variables. -/
def outline (op : Operation) : Operation := op.substitute fun _ => ""

/-- A substitution changes nothing but the names of variables. -/
theorem outline_substitute (f : String → String) (op : Operation) :
    (op.substitute f).outline = op.outline :=
  op.substitute_substitute f fun _ => ""

end Operation

end QueryBatch
