import QueryBatch.Wire.Record

/-!
# Settings of a batch

A `Config` bounds the number of items of a batch, and may name the composite operation. A setting
that is not given has its default.
-/

namespace QueryBatch

open JsonSyntax

/-- How many items a batch may have, the name of the operation that is sent, where it differs from
the template's, and what is said of an item that the response tells nothing about. -/
structure Config where
  maxBatchSize : UInt64
  operationName : Option String
  missingDataMessage : String
  deriving DecidableEq, Repr

namespace Config

def standard : Config := ⟨100, none, "no data returned"⟩

def json (c : Config) : Json :=
  .object [("maxBatchSize", .int c.maxBatchSize.toNat),
    ("operationName", (c.operationName.map Json.string).getD .null),
    ("missingDataMessage", .string c.missingDataMessage)]

def read? (s : JsonSyntax) : Option Config :=
  match record? ["maxBatchSize", "operationName", "missingDataMessage"] s with
  | some [maxBatchSize, operationName, missingDataMessage] => do
    return ⟨← omittable standard.maxBatchSize word? maxBatchSize,
      ← nullable standard.operationName (fun s => (plainString? s).map some) operationName,
      ← omittable standard.missingDataMessage plainString? missingDataMessage⟩
  | _ => none

/-- Reads the text of settings. -/
def ofText? (text : String) : Option Config := (JsonSyntax.ofText? text).bind read?

end Config

end QueryBatch
