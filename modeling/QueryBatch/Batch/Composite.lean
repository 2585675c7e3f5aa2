import QueryBatch.Batch.AliasMap
import QueryBatch.Batch.Config
import QueryBatch.Batch.Naming
import QueryBatch.Document.Printer
import QueryBatch.Operation.Alias
import QueryBatch.Operation.Merge
import QueryBatch.Wire.Request

/-!
# The composite operation of a batch

For each item of a batch, the template is copied with an alias and with variables of its own, and
the copies are merged into one operation. What is sent is its text on one line, with the values of
all items.
-/

namespace QueryBatch

/-- Values for the variables of one copy of the template, and who asked for it. -/
structure BatchItem (κ : Type) where
  id : κ
  values : Dict Json

/-- The operation for a whole batch, the values of its variables, and the aliases under which the
response will hold what belongs to each item. -/
structure Composite (κ : Type) where
  operation : Operation
  values : Dict Json
  aliases : AliasMap κ

structure Composer where
  config : Config
  naming : Naming

/-- What is known after some items: the names given to variables so far, and what has been
composed, which is nothing before the first item. -/
structure Progress (κ : Type) where
  names : List String
  values : Dict Json
  aliases : AliasMap κ
  operation : Option Operation

namespace Progress

variable {κ : Type}

def start : Progress κ := ⟨[], ∅, .empty, none⟩

/-- Gives a variable its new name, which no variable may have been given before. The state holds
the new names of the item's variables, and all that have been given. -/
def nameVariable (newName : String → String) (state : Renaming × List String) (name : String) :
    Except Collision (Renaming × List String) :=
  let (newNames, given) := state
  if given.contains (newName name) then .error (.declared (newName name))
  else .ok (newNames.insert name (newName name), given ++ [newName name])

/-- Gives new names to variables, where some new names have been given before. -/
def nameVariables (newName : String → String) (given names : List String) :
    Except Collision (Renaming × List String) :=
  names.foldlM (nameVariable newName) (∅, given)

/-- Adds the value of a variable under its new name. -/
def routeValue (newNames : Renaming) (values : Dict Json) (entry : String × Json) :
    Except BatchError (Dict Json) :=
  match newNames.find? entry.1 with
  | some newName => .ok (values.insert newName entry.2)
  | none => .error (.unknownVariable entry.1)

/-- Fails with an error if a condition holds. -/
def refuseIf (condition : Bool) (e : BatchError) : Except BatchError Unit :=
  if condition then .error e else .ok ()

/-- Adds the copy of the template for an item. -/
def addItem [DecidableEq κ] (naming : Naming) (template : Operation) (p : Progress κ)
    (item : BatchItem κ) : Except BatchError (Progress κ) := do
  let index := p.aliases.size
  let key := naming.aliasOf index
  refuseIf (p.aliases.contains key) (.collision (.responseKey key))
  refuseIf (item.id ∈ p.aliases.ids) (.duplicateItem key)
  let named := nameVariables (naming.variableOf index) p.names template.variableNames
  let (newNames, names) ← named.mapError .collision
  let values ← item.values.entries.foldlM (routeValue newNames) p.values
  let copy ← (template.rename newNames).mapError .collision
  let copy ← (copy.setAlias key).mapError .shape
  let operation ← Operation.mergeOnto p.operation copy
  return ⟨names, values, p.aliases.push key item.id, some operation⟩

end Progress

namespace Composer

open Progress

variable {κ : Type}

/-- Checks that a template has one field and declares all its variables. -/
def checkTemplate (template : Operation) : Except ShapeError Unit :=
  if template.fields.length ≠ 1 then .error (.templateFieldCount template.fields.length)
  else
    match template.references.find? (!template.declares ·) with
    | some name => .error (.templateUndeclared name)
    | none => .ok ()

/-- The name of the composite operation, which the settings may give. -/
def nameOperation (c : Composer) (op : Operation) : Operation :=
  { op with name := c.config.operationName.or op.name }

/-- Composes the copies of a template for the items of a batch. -/
def compose [DecidableEq κ] (c : Composer) (template : Operation) (items : List (BatchItem κ)) :
    Except BatchError (Composite κ) := do
  let limit := c.config.maxBatchSize.toNat
  refuseIf items.isEmpty .emptyBatch
  refuseIf (limit < items.length) (.tooLarge items.length limit)
  (checkTemplate template).mapError .shape
  let p ← items.foldlM (Progress.addItem c.naming template) .start
  match p.operation with
  | some operation => .ok ⟨c.nameOperation operation, p.values, p.aliases⟩
  | none => .error .emptyBatch

end Composer

namespace Composite

variable {κ : Type}

/-- What is sent for a batch. -/
def request (c : Composite κ) : Request :=
  ⟨c.operation.compactText, c.values, c.operation.name⟩

theorem request_query (c : Composite κ) : c.request.query = c.operation.text .compact := rfl

end Composite

end QueryBatch
