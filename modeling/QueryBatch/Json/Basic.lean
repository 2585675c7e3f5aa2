import QueryBatch.Binary64.Layout
import QueryBatch.Dict
import QueryBatch.Text.Escape
import QueryBatch.Text.Hex

/-!
# JSON values

The values that requests and responses carry, and their compact text. Integers are exact; every
other number is a floating point number.
-/

namespace QueryBatch

open Text

inductive Json
  | null
  | bool (value : Bool)
  | int (value : Int)
  | float (value : Binary64)
  | string (text : String)
  | array (items : List Json)
  | object (entries : List (String × Json))

namespace Json

instance : Inhabited Json := ⟨null⟩

/-- The object that a dictionary is. -/
def ofDict (d : Dict Json) : Json := object d.entries

def isNull : Json → Bool
  | null => true
  | _ => false

/-- The value under a key, for an object that has the key. -/
def member? (key : String) : Json → Option Json
  | object entries => entries.lookup key
  | _ => none

def string? : Json → Option String
  | string text => some text
  | _ => none

def bool? : Json → Option Bool
  | bool value => some value
  | _ => none

/-! ## Text -/

/-- Floating point numbers have a plain point from `10 ^ (-5)` up to below `10 ^ 16`, and beyond
that an exponent with a sign. -/
def jsonNumbers : Binary64.Layout := ⟨-5, 15, .toEven, true⟩

/-- The text that stands for a character between quotes. -/
def escape (c : Char) : List Char :=
  match letterOf? c with
  | some letter => ['\\', letter]
  | none => if c.toNat < 0x20 then '\\' :: 'u' :: hexPadded 4 c.toNat else [c]

def quotedText (text : String) : String :=
  String.ofList ('"' :: text.toList.flatMap escape ++ ['"'])

/-- Numbers that are not finite have no text of their own. -/
def floatText (x : Binary64) : String := if x.isFinite then jsonNumbers.text x else "null"

mutual

/-- The text of a value, without blanks. -/
def text : Json → String
  | null => "null"
  | bool value => if value then "true" else "false"
  | int value => toString value
  | float value => floatText value
  | string text => quotedText text
  | array items => "[" ++ ",".intercalate (itemTexts items) ++ "]"
  | object entries => "\x7b" ++ ",".intercalate (entryTexts entries) ++ "\x7d"

def itemTexts : List Json → List String
  | [] => []
  | v :: vs => v.text :: itemTexts vs

def entryTexts : List (String × Json) → List String
  | [] => []
  | (key, v) :: es => (quotedText key ++ ":" ++ v.text) :: entryTexts es

end

end Json

end QueryBatch
