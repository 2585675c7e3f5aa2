import QueryBatch.Document.Basic
import QueryBatch.Source.Diagnostic

/-!
# Why a batch cannot be built or sent

A `BatchError` says what is wrong with a batch. Each has a code, which tells programs whose fault it
is and whether it is worth to try again, and a message for a person.
-/

namespace QueryBatch

/-- An operation that has the wrong shape for what is to be done with it. -/
inductive ShapeError
  /-- An operation to be aliased has not exactly one field. -/
  | fieldCount (found : Nat)
  /-- A template has not exactly one field. -/
  | templateFieldCount (found : Nat)
  | templateUndeclared (name : String)
  /-- Two operations to be merged are of different kinds. -/
  | kinds (onto addition : OperationKind)
  deriving DecidableEq, Repr

/-- Two things that would have the same name. -/
inductive Collision
  | declared (name : String)
  | responseKey (key : String)
  /-- Two variables that a renaming sends to one name. -/
  | renamed (first second target : String)
  deriving DecidableEq, Repr

structure TransportError where
  message : String
  retryable : Bool
  deriving DecidableEq, Repr

inductive BatchError
  | shape (cause : ShapeError)
  | collision (cause : Collision)
  | emptyBatch
  | tooLarge (size limit : Nat)
  | duplicateItem (key : String)
  | unknownVariable (name : String)
  /-- The source of a template has errors, whose rendered texts are given. -/
  | unreadable (rendered : List String)
  | operationNotFound (name : String)
  | noOperation
  | transport (cause : TransportError)
  deriving DecidableEq, Repr

inductive ErrorCode
  | shape
  | collision
  | emptyBatch
  | tooLarge
  | duplicateItem
  | unknownVariable
  | unreadable
  | operationNotFound
  | noOperation
  | transport
  deriving DecidableEq, Repr

namespace ErrorCode

def text : ErrorCode → String
  | shape => "SHAPE_ERROR"
  | collision => "COLLISION_ERROR"
  | emptyBatch => "EMPTY_BATCH"
  | tooLarge => "BATCH_TOO_LARGE"
  | duplicateItem => "DUPLICATE_ITEM"
  | unknownVariable => "UNKNOWN_VARIABLE"
  | unreadable => "PARSE_ERROR"
  | operationNotFound => "OPERATION_NOT_FOUND"
  | noOperation => "NO_OPERATION"
  | transport => "TRANSPORT_ERROR"

def all : List ErrorCode :=
  [shape, collision, emptyBatch, tooLarge, duplicateItem, unknownVariable, unreadable,
    operationNotFound, noOperation, transport]

def ofText? (text : String) : Option ErrorCode := all.find? (·.text == text)

/-- Whether the one who asked for the batch can mend the error. -/
def isClientError (code : ErrorCode) : Bool := code != transport

end ErrorCode

def ShapeError.message : ShapeError → String
  | fieldCount found => "expected exactly one top-level field, found " ++ toString found
  | templateFieldCount found =>
    "template must select exactly one top-level field, found " ++ toString found
  | templateUndeclared name => "template references `$" ++ name ++ "` without declaring it"
  | kinds onto addition => "cannot merge a " ++ addition.text ++ " into a " ++ onto.text

def Collision.message : Collision → String
  | declared name => "variable `$" ++ name ++ "` is declared by both operations"
  | responseKey key => "response key `" ++ key ++ "` is selected by both operations"
  | renamed first second target =>
    "variables `$" ++ first ++ "` and `$" ++ second ++ "` would both be named `$" ++ target ++ "`"

namespace BatchError

def code : BatchError → ErrorCode
  | shape _ => .shape
  | collision _ => .collision
  | emptyBatch => .emptyBatch
  | tooLarge .. => .tooLarge
  | duplicateItem _ => .duplicateItem
  | unknownVariable _ => .unknownVariable
  | unreadable _ => .unreadable
  | operationNotFound _ => .operationNotFound
  | noOperation => .noOperation
  | transport _ => .transport

/-- Whether the same batch may succeed when it is sent again. -/
def isRetryable : BatchError → Bool
  | transport cause => cause.retryable
  | _ => false

def isClientError (e : BatchError) : Bool := e.code.isClientError

def message : BatchError → String
  | shape cause => "shape error: " ++ cause.message
  | collision cause => cause.message
  | emptyBatch => "cannot compose an empty batch"
  | tooLarge size limit =>
    "batch of " ++ toString size ++ " items exceeds the limit of " ++ toString limit
  | duplicateItem key =>
    "batch item at `" ++ key ++ "` repeats the identity of an earlier item"
  | unknownVariable name => "value supplied for undeclared variable `$" ++ name ++ "`"
  | unreadable rendered =>
    "template failed to parse with " ++ toString rendered.length ++ " error(s):\n" ++
      "\n".intercalate rendered
  | operationNotFound name => "operation `" ++ name ++ "` not found"
  | noOperation => "document does not contain exactly one operation"
  | transport cause => "transport failed: " ++ cause.message

end BatchError

end QueryBatch
