import QueryBatch.Json.Basic
import QueryBatch.Proofs.Document.Substitution

/-!
# What a server is asked

A field is resolved by putting in the place of each variable what is known of it: the value that
was supplied, or else the default of its declaration, or else that it is absent. Main statements:

* `Field.resolve_substitute`: renaming the variables of a field and what is known of them alike
  changes nothing;
* `Field.question_substitute`: what a server is asked by a field does not depend on its alias, nor
  on the names of its variables.
-/

namespace QueryBatch

/-- What is known of a variable: a value that was supplied, the default of its declaration, or
nothing. -/
inductive Binding
  | supplied (value : Json)
  | default (value : Value)
  | absent

/-- A value in which each variable is replaced by what is known of it. -/
inductive ResolvedValue
  | bound (binding : Binding)
  | int (value : Int64)
  | float (value : Binary64)
  | string (text : String)
  | boolean (value : Bool)
  | null
  | enum (name : String)
  | list (items : List ResolvedValue)
  | object (entries : List (String × ResolvedValue))

/-- The names and resolved values of arguments. -/
abbrev ResolvedArguments := List (String × ResolvedValue)

/-- A field below the top level, whose alias matters to what is selected. -/
inductive ResolvedField
  | mk (alias? : Option String) (name : String) (arguments : ResolvedArguments)
    (directives : List (String × ResolvedArguments)) (selection : Option (List ResolvedField))

/-- What a server is asked by a field at the top level; the alias is left out. -/
structure Question where
  kind : OperationKind
  name : String
  arguments : ResolvedArguments
  directives : List (String × ResolvedArguments)
  selection : Option (List ResolvedField)

namespace Value

mutual

def resolve (known : String → Binding) : Value → ResolvedValue
  | var name => .bound (known name)
  | int value => .int value
  | float value => .float value
  | string text => .string text
  | boolean value => .boolean value
  | null => .null
  | enum name => .enum name
  | list items => .list (resolveItems known items)
  | object entries => .object (resolveEntries known entries)

def resolveItems (known : String → Binding) : List Value → List ResolvedValue
  | [] => []
  | v :: vs => v.resolve known :: resolveItems known vs

def resolveEntries (known : String → Binding) :
    List (String × Value) → List (String × ResolvedValue)
  | [] => []
  | (key, v) :: es => (key, v.resolve known) :: resolveEntries known es

end

end Value

def Argument.resolve (known : String → Binding) (a : Argument) : String × ResolvedValue :=
  (a.name, a.value.resolve known)

def Directive.resolve (known : String → Binding) (d : Directive) : String × ResolvedArguments :=
  (d.name, d.arguments.map (·.resolve known))

namespace Field

mutual

def resolve (known : String → Binding) : Field → ResolvedField
  | ⟨alias?, name, arguments, directives, selection⟩ =>
    ⟨alias?, name, arguments.map (·.resolve known), directives.map (·.resolve known),
      resolveSelection known selection⟩

def resolveSelection (known : String → Binding) :
    Option (List Field) → Option (List ResolvedField)
  | none => none
  | some fields => some (resolveList known fields)

def resolveList (known : String → Binding) : List Field → List ResolvedField
  | [] => []
  | q :: qs => q.resolve known :: resolveList known qs

end

/-- What a server is asked by a field of an operation of the given kind. -/
def question (kind : OperationKind) (known : String → Binding) (q : Field) : Question where
  kind := kind
  name := q.name
  arguments := q.arguments.map (·.resolve known)
  directives := q.directives.map (·.resolve known)
  selection := resolveSelection known q.selection

end Field

namespace Operation

/-- What is known of a variable of an operation, given the values that were supplied. -/
def binding (op : Operation) (values : Dict Json) (name : String) : Binding :=
  match values.find? name with
  | some value => .supplied value
  | none =>
    match (op.definition? name).bind (·.default) with
    | some value => .default value
    | none => .absent

/-- What a server is asked by a field of an operation, given the values that were supplied. -/
def question (op : Operation) (values : Dict Json) (q : Field) : Question :=
  q.question op.kind (op.binding values)

end Operation

/-! ## New names -/

variable {f : String → String} {known known' : String → Binding}

namespace Value

mutual

theorem resolve_substitute {v : Value} (h : ∀ name ∈ v.references, known' (f name) = known name) :
    (v.substitute f).resolve known' = v.resolve known := by
  cases v with
  | var name => exact congrArg ResolvedValue.bound (h name (by simp [references]))
  | list items => exact congrArg ResolvedValue.list (resolveItems_substituteItems h)
  | object entries => exact congrArg ResolvedValue.object (resolveEntries_substituteEntries h)
  | _ => rfl

theorem resolveItems_substituteItems {vs : List Value}
    (h : ∀ name ∈ referencesInItems vs, known' (f name) = known name) :
    resolveItems known' (substituteItems f vs) = resolveItems known vs := by
  cases vs with
  | nil => rfl
  | cons v vs =>
    simp only [referencesInItems, List.mem_append] at h
    rw [substituteItems, resolveItems, resolveItems, resolve_substitute fun n hn => h n (.inl hn),
      resolveItems_substituteItems fun n hn => h n (.inr hn)]

theorem resolveEntries_substituteEntries {es : List (String × Value)}
    (h : ∀ name ∈ referencesInEntries es, known' (f name) = known name) :
    resolveEntries known' (substituteEntries f es) = resolveEntries known es := by
  cases es with
  | nil => rfl
  | cons e es =>
    obtain ⟨key, v⟩ := e
    simp only [referencesInEntries, List.mem_append] at h
    rw [substituteEntries, resolveEntries, resolveEntries,
      resolve_substitute fun n hn => h n (.inl hn),
      resolveEntries_substituteEntries fun n hn => h n (.inr hn)]

end

end Value

theorem Argument.map_resolve_substitute {args : List Argument}
    (h : ∀ name ∈ referencesInList args, known' (f name) = known name) :
    (args.map (·.substitute f)).map (·.resolve known') = args.map (·.resolve known) := by
  rw [List.map_map]
  refine List.map_congr_left fun a ha => congrArg (Prod.mk a.name) ?_
  exact Value.resolve_substitute fun n hn => h n (List.mem_flatMap.2 ⟨a, ha, hn⟩)

theorem Directive.map_resolve_substitute {ds : List Directive}
    (h : ∀ name ∈ referencesInList ds, known' (f name) = known name) :
    (ds.map (·.substitute f)).map (·.resolve known') = ds.map (·.resolve known) := by
  rw [List.map_map]
  refine List.map_congr_left fun d hd => congrArg (Prod.mk d.name) ?_
  exact Argument.map_resolve_substitute fun n hn => h n (List.mem_flatMap.2 ⟨d, hd, hn⟩)

namespace Field

mutual

theorem resolve_substitute {q : Field} (h : ∀ name ∈ q.references, known' (f name) = known name) :
    (q.substitute f).resolve known' = q.resolve known := by
  obtain ⟨alias?, name, arguments, directives, selection⟩ := q
  simp only [references, ownReferences, List.mem_append] at h
  simp only [substitute, resolve,
    Argument.map_resolve_substitute fun n hn => h n (.inl (.inl hn)),
    Directive.map_resolve_substitute fun n hn => h n (.inl (.inr hn)),
    resolveSelection_substituteSelection fun n hn => h n (.inr hn)]

theorem resolveSelection_substituteSelection {selection : Option (List Field)}
    (h : ∀ name ∈ referencesInSelection selection, known' (f name) = known name) :
    resolveSelection known' (substituteSelection f selection) =
      resolveSelection known selection := by
  cases selection with
  | none => rfl
  | some fields => exact congrArg some (resolveList_substituteList h)

theorem resolveList_substituteList {fields : List Field}
    (h : ∀ name ∈ referencesInList fields, known' (f name) = known name) :
    resolveList known' (substituteList f fields) = resolveList known fields := by
  cases fields with
  | nil => rfl
  | cons q qs =>
    simp only [referencesInList, List.mem_append] at h
    rw [substituteList, resolveList, resolveList, resolve_substitute fun n hn => h n (.inl hn),
      resolveList_substituteList fun n hn => h n (.inr hn)]

end

/-- A field asks the same under any alias and any names of its variables. -/
theorem question_substitute {q : Field} (kind : OperationKind) (key : Option String)
    (h : ∀ name ∈ q.references, known' (f name) = known name) :
    ({ q.substitute f with alias? := key } : Field).question kind known' =
      q.question kind known := by
  obtain ⟨alias?, name, arguments, directives, selection⟩ := q
  simp only [references, ownReferences, List.mem_append] at h
  simp only [substitute, question,
    Argument.map_resolve_substitute fun n hn => h n (.inl (.inl hn)),
    Directive.map_resolve_substitute fun n hn => h n (.inl (.inr hn)),
    resolveSelection_substituteSelection fun n hn => h n (.inr hn)]

end Field

end QueryBatch
