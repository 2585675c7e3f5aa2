import QueryBatch.Batch.Error
import QueryBatch.Dict
import QueryBatch.Document.Variables

/-!
# Renaming variables

A `Renaming` gives new names to some variables. It is refused where two variables of an operation
would get one name. Main statement:

* `Operation.variableNames_substitute`: substitution acts on each declared name.
-/

namespace QueryBatch

/-- The new names of variables, by their old names. -/
abbrev Renaming := Dict String

/-- The new name of a variable; one that is not renamed keeps its name. -/
def Renaming.apply (r : Renaming) (name : String) : String := (r.find? name).getD name

/-! ## Substitution -/

namespace Value

mutual

/-- Gives new names to the variables of a value. -/
def substitute (f : String → String) : Value → Value
  | var name => var (f name)
  | list items => list (substituteItems f items)
  | object entries => object (substituteEntries f entries)
  | v => v

def substituteItems (f : String → String) : List Value → List Value
  | [] => []
  | v :: vs => v.substitute f :: substituteItems f vs

def substituteEntries (f : String → String) : List (String × Value) → List (String × Value)
  | [] => []
  | (key, v) :: es => (key, v.substitute f) :: substituteEntries f es

end

end Value

def Argument.substitute (f : String → String) (a : Argument) : Argument :=
  ⟨a.name, a.value.substitute f⟩

def Directive.substitute (f : String → String) (d : Directive) : Directive :=
  ⟨d.name, d.arguments.map (·.substitute f)⟩

def VariableDefinition.substitute (f : String → String) (v : VariableDefinition) :
    VariableDefinition :=
  { v with name := f v.name }

namespace Field

mutual

/-- Gives new names to the variables of a field. -/
def substitute (f : String → String) : Field → Field
  | ⟨alias?, name, arguments, directives, selection⟩ =>
    ⟨alias?, name, arguments.map (·.substitute f), directives.map (·.substitute f),
      substituteSelection f selection⟩

def substituteSelection (f : String → String) : Option (List Field) → Option (List Field)
  | none => none
  | some fields => some (substituteList f fields)

def substituteList (f : String → String) : List Field → List Field
  | [] => []
  | g :: gs => g.substitute f :: substituteList f gs

end

end Field

/-- Gives new names to the variables that an operation declares or mentions. -/
def Operation.substitute (f : String → String) (op : Operation) : Operation :=
  { op with
    definitions := op.definitions.map (·.substitute f)
    fields := Field.substituteList f op.fields }

/-! ## Renaming what changes -/

namespace Field

mutual

/-- The field with its variables renamed, or `none` where none of them is renamed, so that the
field can be kept as it is. -/
def renamed? (r : Renaming) : Field → Option Field
  | ⟨alias?, name, arguments, directives, selection⟩ =>
    let changed := renamedSelection? r selection
    if ownMentions r.contains ⟨alias?, name, arguments, directives, none⟩ || changed.isSome then
      some ⟨alias?, name, arguments.map (·.substitute r.apply),
        directives.map (·.substitute r.apply), changed.or selection⟩
    else none

def renamedSelection? (r : Renaming) : Option (List Field) → Option (List Field)
  | none => none
  | some fields => renamedList? r fields

def renamedList? (r : Renaming) : List Field → Option (List Field)
  | [] => none
  | f :: fs =>
    match renamed? r f, renamedList? r fs with
    | none, none => none
    | some g, none => some (g :: fs)
    | none, some gs => some (f :: gs)
    | some g, some gs => some (g :: gs)

end

end Field

namespace Renaming

/-- The first entry whose target is that of an earlier entry, where `earlier` entries have been
seen. -/
def sharedTarget? (earlier : List (String × String)) : List (String × String) → Option Collision
  | [] => none
  | (source, target) :: rest =>
    match earlier.find? (·.2 == target) with
    | some e => some (.renamed e.1 source target)
    | none => sharedTarget? (earlier ++ [(source, target)]) rest

/-- The first declared variable that keeps its name although another one is renamed to it. -/
def capture? (r : Renaming) (op : Operation) : Option Collision :=
  op.definitions.findSome? fun v =>
    if r.contains v.name then none
    else (r.entries.find? (·.2 == v.name)).map fun e => .renamed e.1 v.name v.name

/-- Why an operation cannot be renamed, if it cannot. -/
def conflict? (r : Renaming) (op : Operation) : Option Collision :=
  (sharedTarget? [] r.entries).or (r.capture? op)

end Renaming

namespace Operation

/-- Renames the variables of an operation, unless two would get one name. -/
def rename (r : Renaming) (op : Operation) : Except Collision Operation :=
  match r.conflict? op with
  | some collision => .error collision
  | none => .ok { op with
      definitions := op.definitions.map (·.substitute r.apply)
      fields := (Field.renamedList? r op.fields).getD op.fields }

theorem variableNames_substitute (f : String → String) (op : Operation) :
    (op.substitute f).variableNames = op.variableNames.map f := by
  simp [substitute, variableNames, VariableDefinition.substitute]

end Operation

end QueryBatch
