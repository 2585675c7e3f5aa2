import QueryBatch.Binary64.Basic

/-!
# Documents

The executable documents of the query language, without fragments: operations with variables, and
fields with arguments, directives and nested selections. Main statement:

* `Operation.field_eq_of_single`: an operation with a single field has that field and no other.
-/

namespace QueryBatch

/-- A value as it is written in a document; the entries of an object keep their order. -/
inductive Value
  | var (name : String)
  | int (value : Int64)
  | float (value : Binary64)
  | string (text : String)
  | boolean (value : Bool)
  | null
  | enum (name : String)
  | list (items : List Value)
  | object (entries : List (String × Value))

structure Argument where
  name : String
  value : Value

structure Directive where
  name : String
  arguments : List Argument

/-- A selected field. `selection` is `none` where no braces follow the field. -/
structure Field where
  alias? : Option String
  name : String
  arguments : List Argument
  directives : List Directive
  selection : Option (List Field)

inductive TypeRef
  | named (name : String)
  | list (element : TypeRef)
  | nonNull (inner : TypeRef)
  deriving DecidableEq, Repr

structure VariableDefinition where
  name : String
  type : TypeRef
  default : Option Value

inductive OperationKind
  | query
  | mutation
  | subscription
  deriving DecidableEq, Repr

structure Operation where
  kind : OperationKind
  name : Option String
  definitions : List VariableDefinition
  fields : List Field

structure Document where
  operations : List Operation

instance : Inhabited Value := ⟨.null⟩

def OperationKind.text : OperationKind → String
  | .query => "query"
  | .mutation => "mutation"
  | .subscription => "subscription"

namespace TypeRef

def text : TypeRef → String
  | named name => name
  | list element => "[" ++ element.text ++ "]"
  | nonNull inner => inner.text ++ "!"

end TypeRef

namespace Field

/-- The key under which a response holds the value of a field. -/
def responseKey (f : Field) : String := f.alias?.getD f.name

/-- The value of the first argument of a name. -/
def argument? (f : Field) (name : String) : Option Value :=
  (f.arguments.find? (·.name == name)).map (·.value)

end Field

namespace Operation

/-- The only field at the top level. -/
def singleField? (op : Operation) : Option Field :=
  match op.fields with
  | [field] => some field
  | _ => none

/-- The first definition of a variable. -/
def definition? (op : Operation) (name : String) : Option VariableDefinition :=
  op.definitions.find? (·.name == name)

/-- Whether an operation declares a variable. -/
def declares (op : Operation) (name : String) : Bool := op.definitions.any (·.name == name)

/-- The names of the declared variables. -/
def variableNames (op : Operation) : List String := op.definitions.map (·.name)

/-- The response keys at the top level. -/
def responseKeys (op : Operation) : List String := op.fields.map (·.responseKey)

theorem field_eq_of_single {op : Operation} {f : Field} :
    op.singleField? = some f ↔ op.fields = [f] := by
  unfold singleField?
  split <;> simp_all

theorem declares_iff {op : Operation} {name : String} :
    op.declares name = true ↔ name ∈ op.variableNames := by
  simp [declares, variableNames]

end Operation

namespace Document

/-- The first operation of a name. -/
def operation? (d : Document) (name : String) : Option Operation :=
  d.operations.find? (·.name == some name)

/-- The only operation. -/
def singleOperation? (d : Document) : Option Operation :=
  match d.operations with
  | [op] => some op
  | _ => none

/-- The document that holds the first operation of a name and nothing else. -/
def restrict? (d : Document) (name : String) : Option Document :=
  (d.operation? name).map fun op => ⟨[op]⟩

end Document

end QueryBatch
