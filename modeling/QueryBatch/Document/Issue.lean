import QueryBatch.Document.Quoted
import QueryBatch.Source.Diagnostic

/-!
# What can be wrong with a document

An `Issue` is a cause of complaint, and a `Report` an issue at a place of the source. An undeclared
variable is all that is only warned about.
-/

namespace QueryBatch

inductive Issue
  /-- Something else was expected; there is no text where the source ends. -/
  | unexpected (expected : String) (found : Option String)
  | variableInConstant (name : String)
  | integerOutOfRange (text : String)
  | floatOutOfRange (text : String)
  | badEscape (fault : Quoted.Fault)
  | emptySelection
  | fragmentDefinition
  | operationDirectives
  | fragmentSelection
  | duplicateVariable (name : String)
  | undeclaredVariable (name : String)
  deriving DecidableEq, Repr

namespace Issue

def severity : Issue → Severity
  | undeclaredVariable _ => .warning
  | _ => .error

def code : Issue → String
  | unexpected _ (some _) => "E0001"
  | unexpected _ none => "E0002"
  | variableInConstant _ | emptySelection => "E0003"
  | integerOutOfRange _ | floatOutOfRange _ | badEscape _ => "E0004"
  | fragmentDefinition | operationDirectives => "E0010"
  | fragmentSelection => "E0011"
  | duplicateVariable _ => "E0020"
  | undeclaredVariable _ => "W0001"

def title : Issue → String
  | unexpected .. => "unexpected token"
  | variableInConstant _ => "variable in constant value"
  | integerOutOfRange _ => "integer out of range"
  | floatOutOfRange _ => "float out of range"
  | badEscape (.notUnicode _) => "invalid unicode escape"
  | badEscape (.unknown _) => "invalid escape"
  | emptySelection => "empty selection set"
  | fragmentDefinition => "fragments are not supported"
  | operationDirectives => "operation directives are not supported"
  | fragmentSelection => "fragment selections are not supported"
  | duplicateVariable _ => "duplicate variable"
  | undeclaredVariable _ => "undeclared variable"

def message : Issue → String
  | unexpected expected (some found) => "expected " ++ expected ++ ", found `" ++ found ++ "`"
  | unexpected expected none => "expected " ++ expected ++ ", found end of input"
  | variableInConstant name => "`$" ++ name ++ "` cannot be used in a default value"
  | integerOutOfRange text => "`" ++ text ++ "` does not fit in a 64-bit integer"
  | floatOutOfRange text => "`" ++ text ++ "` is not a finite 64-bit float"
  | badEscape (.notUnicode hex) => "`\\u" ++ hex ++ "` is not a valid escape"
  | badEscape (.unknown letter) => "`\\" ++ letter.toString ++ "` is not a valid escape"
  | emptySelection => "a selection set must select at least one field"
  | fragmentDefinition => "inline the fragment's fields into the operation"
  | operationDirectives => "move the directive onto a field"
  | fragmentSelection => "select the fields directly"
  | duplicateVariable name => "`$" ++ name ++ "` is declared more than once"
  | undeclaredVariable name => "`$" ++ name ++ "` is used but not declared"

end Issue

/-- An issue at a span of the source, or at its end. -/
structure Report where
  issue : Issue
  span : Option Span
  deriving DecidableEq, Repr

namespace Report

def isError (r : Report) : Bool := r.issue.severity == .error

/-- The diagnostic for a report about a source of `stop` bytes. -/
def diagnostic (stop : Nat) (r : Report) : Diagnostic where
  severity := r.issue.severity
  code := r.issue.code
  title := r.issue.title
  labels := [⟨r.span.getD (.empty stop), r.issue.message⟩]

end Report

end QueryBatch
