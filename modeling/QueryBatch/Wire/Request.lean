import QueryBatch.Wire.Record

/-!
# Requests

A request carries the text of a document, values for its variables and the name of the operation
to be run. In JSON, no variables and no name are left out.
-/

namespace QueryBatch

open JsonSyntax

structure Request where
  query : String
  values : Dict Json
  operationName : Option String

namespace Request

/-- The query, then the variables and the name if there are any. -/
def json (r : Request) : Json :=
  .object ([("query", .string r.query)] ++
    (if r.values.isEmpty then [] else [("variables", .ofDict r.values)]) ++
    (r.operationName.map fun name => ("operationName", .string name)).toList)

/-- Reads a request, which is one level around its variables. -/
def read? (s : JsonSyntax) : Option Request :=
  match record? ["query", "variables", "operationName"] s with
  | some [some query, values, operationName] => do
    return ⟨← plainString? query, ← omittable ∅ (dict? (maxNesting - 1)) values,
      ← nullable none (fun s => (plainString? s).map some) operationName⟩
  | _ => none

/-- Reads the text of a request. -/
def ofText? (text : String) : Option Request := (JsonSyntax.ofText? text).bind read?

end Request

end QueryBatch
