import QueryBatch.Batch.Error
import QueryBatch.Json.Strict

/-!
# Error codes in JSON

A code is written as a string with the text of the code.
-/

namespace QueryBatch.ErrorCode

open JsonSyntax

def json (code : ErrorCode) : Json := .string code.text

/-- Reads a code: its text, or an object with its text as the only key and null for the value. -/
def read? : JsonSyntax → Option ErrorCode
  | .string pieces => (textOf? pieces).bind ErrorCode.ofText?
  | .object [(key, .null)] => (textOf? key).bind ErrorCode.ofText?
  | _ => none

/-- Reads the JSON text of a code. -/
def ofJsonText? (text : String) : Option ErrorCode := (JsonSyntax.ofText? text).bind read?

end QueryBatch.ErrorCode
