import QueryBatch.Operation.Renaming

/-!
# Aliases and prefixes

An operation with one field can be given another response key; and all response keys and variables
of an operation can be moved out of the way by putting a text in front of them. Main statement:

* `Operation.responseKeys_aliasAll`: a text is put in front of each response key.
-/

namespace QueryBatch

namespace Operation

/-- Gives an alias to the only field of an operation. -/
def setAlias (key : String) (op : Operation) : Except ShapeError Operation :=
  match op.singleField? with
  | some field => .ok { op with fields := [{ field with alias? := some key }] }
  | none => .error (.fieldCount op.fields.length)

/-- Puts a text in front of each response key. -/
def aliasAll (front : String) (op : Operation) : Operation :=
  { op with fields := op.fields.map fun f => { f with alias? := some (front ++ f.responseKey) } }

/-- The renaming that puts a text in front of every variable of an operation. -/
def frontRenaming (front : String) (op : Operation) : Renaming :=
  .ofList ((op.variableNames ++ op.references).map fun name => (name, front ++ name))

/-- Puts a text in front of every variable and every response key. -/
def prefixed (front : String) (op : Operation) : Except Collision Operation :=
  (op.rename (op.frontRenaming front)).map (aliasAll front)

theorem responseKeys_aliasAll (front : String) (op : Operation) :
    (op.aliasAll front).responseKeys = op.responseKeys.map (front ++ ·) := by
  simp [aliasAll, responseKeys, Field.responseKey]

end Operation

end QueryBatch
