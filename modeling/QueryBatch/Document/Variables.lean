import QueryBatch.Document.Basic

/-!
# Variables of a document

The variables that occur in values and fields, from left to right and with repetitions: those of
the arguments, then those of the directives, then those of the nested selection. Main statements:

* `Operation.mem_undeclared`: what the undeclared variables of an operation are;
* `Operation.nodup_undeclared`: each of them is listed once.
-/

namespace QueryBatch

namespace Value

mutual

/-- The variables of a value. -/
def references : Value → List String
  | var name => [name]
  | list items => referencesInItems items
  | object entries => referencesInEntries entries
  | _ => []

def referencesInItems : List Value → List String
  | [] => []
  | v :: vs => v.references ++ referencesInItems vs

def referencesInEntries : List (String × Value) → List String
  | [] => []
  | (_, v) :: es => v.references ++ referencesInEntries es

end

mutual

/-- Whether a value holds a variable whose name passes a test; the search stops at the first. -/
def mentions (p : String → Bool) : Value → Bool
  | var name => p name
  | list items => mentionsInItems p items
  | object entries => mentionsInEntries p entries
  | _ => false

def mentionsInItems (p : String → Bool) : List Value → Bool
  | [] => false
  | v :: vs => v.mentions p || mentionsInItems p vs

def mentionsInEntries (p : String → Bool) : List (String × Value) → Bool
  | [] => false
  | (_, v) :: es => v.mentions p || mentionsInEntries p es

end

/-- Whether a value holds no variable. -/
def isConstant (v : Value) : Bool := !v.mentions fun _ => true

end Value

namespace Argument

def referencesInList (args : List Argument) : List String := args.flatMap (·.value.references)

def mentionsInList (p : String → Bool) (args : List Argument) : Bool :=
  args.any (·.value.mentions p)

end Argument

namespace Directive

def referencesInList (ds : List Directive) : List String :=
  ds.flatMap fun d => Argument.referencesInList d.arguments

def mentionsInList (p : String → Bool) (ds : List Directive) : Bool :=
  ds.any fun d => Argument.mentionsInList p d.arguments

end Directive

namespace Field

/-- The variables of the arguments and directives that a field itself has. -/
def ownReferences (f : Field) : List String :=
  Argument.referencesInList f.arguments ++ Directive.referencesInList f.directives

/-- Whether the arguments and directives that a field itself has mention a variable that passes a
test. -/
def ownMentions (p : String → Bool) (f : Field) : Bool :=
  Argument.mentionsInList p f.arguments || Directive.mentionsInList p f.directives

mutual

/-- The variables of a field. -/
def references : Field → List String
  | ⟨alias?, name, arguments, directives, selection⟩ =>
    ownReferences ⟨alias?, name, arguments, directives, none⟩ ++ referencesInSelection selection

def referencesInSelection : Option (List Field) → List String
  | none => []
  | some fields => referencesInList fields

def referencesInList : List Field → List String
  | [] => []
  | f :: fs => f.references ++ referencesInList fs

end

mutual

/-- Whether a field mentions a variable whose name passes a test. -/
def mentions (p : String → Bool) : Field → Bool
  | ⟨alias?, name, arguments, directives, selection⟩ =>
    ownMentions p ⟨alias?, name, arguments, directives, none⟩ || mentionsInSelection p selection

def mentionsInSelection (p : String → Bool) : Option (List Field) → Bool
  | none => false
  | some fields => mentionsInList p fields

def mentionsInList (p : String → Bool) : List Field → Bool
  | [] => false
  | f :: fs => f.mentions p || mentionsInList p fs

end

end Field

namespace Operation

/-- The variables that occur in the selection of an operation. -/
def references (op : Operation) : List String := Field.referencesInList op.fields

/-- The variables that occur without being declared, each at its first place. -/
def undeclared (op : Operation) : List String :=
  (op.references.filter fun name => !op.declares name).eraseDups

theorem mem_undeclared {op : Operation} {name : String} :
    name ∈ op.undeclared ↔ name ∈ op.references ∧ name ∉ op.variableNames := by
  simp [undeclared, List.mem_eraseDups, ← declares_iff]

theorem nodup_eraseDups (names : List String) : names.eraseDups.Nodup := by
  match names with
  | [] => simp
  | name :: names =>
    rw [List.eraseDups_cons, List.nodup_cons]
    exact ⟨by simp [List.mem_eraseDups], nodup_eraseDups (names.filter fun other => !other == name)⟩
termination_by names.length
decreasing_by exact Nat.lt_succ_of_le (List.length_filter_le ..)

theorem nodup_undeclared (op : Operation) : op.undeclared.Nodup := nodup_eraseDups _

end Operation

end QueryBatch
