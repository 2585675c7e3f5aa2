import QueryBatch.Text.Blank
import QueryBatch.Text.Lines
import QueryBatch.Text.Offset
import QueryBatch.Text.Replace

/-!
# Block strings

The value of a block string is its text without the indentation that its lines share, and without
blank lines at its start and end.
-/

namespace QueryBatch.BlockString

open Text

def isBlankLine (line : List Char) : Bool := line.all isBlank

/-- The number of blanks and tabs that a line starts with. -/
def indentation (line : List Char) : Nat :=
  (line.takeWhile fun c => c == ' ' || c == '\t').length

/-- The least indentation of the lines after the first that are not blank. -/
def commonIndent (lines : List (List Char)) : Nat :=
  (((lines.drop 1).filter fun line => !isBlankLine line).map indentation).min?.getD 0

/-- A line without its first `width` bytes; nothing is left of a line that is shorter, or that has
a character across that place. -/
def dedentLine (width : Nat) (line : List Char) : List Char :=
  match splitAtByte? width line with
  | some (_, after) => after
  | none => []

/-- Takes the common indentation from every line but the first. -/
def dedent (lines : List (List Char)) : List (List Char) :=
  lines.take 1 ++ (lines.drop 1).map (dedentLine (commonIndent lines))

/-- Leaves out the blank lines at the start and at the end. -/
def trimBlankLines (lines : List (List Char)) : List (List Char) :=
  ((lines.dropWhile isBlankLine).reverse.dropWhile isBlankLine).reverse

/-- The value of the text between the quotes of a block string; three quotes stand in it after a
backslash. -/
def value (raw : List Char) : List Char :=
  let lines := lines (replaceAll ['\\', '"', '"', '"'] ['"', '"', '"'] raw)
  List.intercalate ['\n'] (trimBlankLines (dedent lines))

end QueryBatch.BlockString
