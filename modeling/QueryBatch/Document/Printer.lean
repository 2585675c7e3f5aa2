import QueryBatch.Binary64.Layout
import QueryBatch.Document.Basic
import QueryBatch.Document.Quoted

/-!
# The text of a document

A document is written on one line, or with one line for each field, indented by its level.
-/

namespace QueryBatch

/-- Whether fields stand on one line, or each on a line of its own that is indented by `width`
blanks for each level. -/
inductive Style
  | compact
  | indented (width : UInt64)
  deriving DecidableEq, Repr

namespace Style

/-- The style of a document where nothing else is asked for. -/
def standard : Style := indented 2

/-- What stands before a field of a level, and before the brace that closes the level below. The
blanks are counted with 64 bits. -/
def gap : Style → Nat → String
  | compact, _ => " "
  | indented width, depth =>
    "\n" ++ String.ofList (List.replicate (.ofNat depth * width : UInt64).toNat ' ')

/-- What stands between two operations. -/
def separator : Style → String
  | compact => " "
  | indented _ => "\n\n"

end Style

/-- Floating point numbers have a plain point from `10 ^ (-4)` up to below `10 ^ 16`, and beyond
that an exponent that only has a sign where it is negative. -/
def documentNumbers : Binary64.Layout := ⟨-4, 15, .up, false⟩

namespace Value

def quotedText (text : String) : String :=
  String.ofList ('"' :: Quoted.encode text.toList ++ ['"'])

mutual

def text : Value → String
  | var name => "$" ++ name
  | int value => toString value.toInt
  | float value => documentNumbers.text value
  | string text => quotedText text
  | boolean value => if value then "true" else "false"
  | null => "null"
  | enum name => name
  | list items => "[" ++ ", ".intercalate (itemTexts items) ++ "]"
  | object entries => "\x7b" ++ ", ".intercalate (entryTexts entries) ++ "\x7d"

def itemTexts : List Value → List String
  | [] => []
  | v :: vs => v.text :: itemTexts vs

def entryTexts : List (String × Value) → List String
  | [] => []
  | (key, v) :: es => (key ++ ": " ++ v.text) :: entryTexts es

end

end Value

def Argument.text (a : Argument) : String := a.name ++ ": " ++ a.value.text

/-- Arguments in parentheses, or nothing. -/
def Argument.listText (args : List Argument) : String :=
  if args.isEmpty then "" else "(" ++ ", ".intercalate (args.map Argument.text) ++ ")"

def Directive.text (d : Directive) : String := " @" ++ d.name ++ Argument.listText d.arguments

def Field.aliasText : Option String → String
  | some key => key ++ ": "
  | none => ""

namespace Field

mutual

/-- The text of a field whose selection is at level `depth`. -/
def text (style : Style) (depth : Nat) : Field → String
  | ⟨alias?, name, arguments, directives, selection⟩ =>
    aliasText alias? ++ name ++ Argument.listText arguments ++
      String.join (directives.map Directive.text) ++ selectionText style depth selection

/-- Fields in braces after a blank, or nothing. -/
def selectionText (style : Style) (depth : Nat) : Option (List Field) → String
  | none => ""
  | some fields => " \x7b" ++ fieldsText style (depth + 1) fields ++ style.gap depth ++ "\x7d"

/-- Fields of level `depth`, each after a gap. -/
def fieldsText (style : Style) (depth : Nat) : List Field → String
  | [] => ""
  | f :: fs => style.gap depth ++ f.text style depth ++ fieldsText style depth fs

end

end Field

namespace VariableDefinition

def defaultText : Option Value → String
  | some v => " = " ++ v.text
  | none => ""

def text (v : VariableDefinition) : String :=
  "$" ++ v.name ++ ": " ++ v.type.text ++ defaultText v.default

/-- Definitions in parentheses, or nothing. -/
def listText (vs : List VariableDefinition) : String :=
  if vs.isEmpty then "" else "(" ++ ", ".intercalate (vs.map text) ++ ")"

end VariableDefinition

namespace Operation

def nameText : Option String → String
  | some name => " " ++ name
  | none => ""

def text (style : Style) (op : Operation) : String :=
  op.kind.text ++ nameText op.name ++ VariableDefinition.listText op.definitions ++
    Field.selectionText style 0 (some op.fields)

/-- The text of an operation on one line. -/
def compactText (op : Operation) : String := op.text .compact

end Operation

def Document.text (style : Style) (d : Document) : String :=
  style.separator.intercalate (d.operations.map (·.text style))

end QueryBatch
