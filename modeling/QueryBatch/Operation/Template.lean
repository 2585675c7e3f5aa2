import QueryBatch.Batch.Error
import QueryBatch.Document.OfSource

/-!
# Templates

A template is an operation that is read from a source without errors: the first one of a name, or
without a name the only one.
-/

namespace QueryBatch

namespace Operation

/-- The texts of the errors in a source. The labels of all of them are between characters, so none
is lost. -/
def renderedErrors (source : String) : List String :=
  (Document.diagnostics source).errors.filterMap (·.render? source)

/-- The operation of a name in a source without errors, or the only operation. -/
def ofSource? (source : String) (name : Option String) : Except BatchError Operation :=
  let document := (Document.ofSource source).value
  if (Document.diagnostics source).hasErrors then .error (.unreadable (renderedErrors source))
  else
    match name with
    | some name =>
      match document.operation? name with
      | some op => .ok op
      | none => .error (.operationNotFound name)
    | none =>
      match document.singleOperation? with
      | some op => .ok op
      | none => .error .noOperation

end Operation

end QueryBatch
