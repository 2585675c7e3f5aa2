import QueryBatch.Text.Escape
import QueryBatch.Text.Hex

/-!
# JSON texts

A `JsonSyntax` is a JSON text as it is written: the escapes of its strings and the size of its
numbers are not looked at, and no key is special.
-/

namespace QueryBatch

open Text

/-- A piece of a string: a character, or a number of 16 bits as an escape gives it. -/
inductive Piece
  | char (c : Char)
  | code (n : Nat)
  deriving DecidableEq, Repr

/-- A number as it is written: a sign, the digits before and after the point, and the exponent of
ten, if there is one. -/
structure Numeral where
  negative : Bool
  whole : List Char
  fraction : List Char
  exponent : Option Int
  deriving DecidableEq, Repr

inductive JsonSyntax
  | null
  | bool (value : Bool)
  | number (numeral : Numeral)
  | string (pieces : List Piece)
  | array (items : List JsonSyntax)
  | object (entries : List (List Piece × JsonSyntax))

namespace JsonSyntax

def isBlank (c : Char) : Bool := c == ' ' || c == '\t' || c == '\n' || c == '\r'

def skipBlank (cs : List Char) : List Char := cs.dropWhile isBlank

/-! ## Strings -/

/-- A piece before the pieces that were read. -/
def withPiece (p : Piece) (r : List Piece × List Char) : List Piece × List Char := (p :: r.1, r.2)

/-- Reads the rest of a string after its opening quote. -/
def string? : List Char → Option (List Piece × List Char)
  | [] => none
  | '"' :: cs => some ([], cs)
  | '\\' :: 'u' :: a :: b :: c :: d :: cs =>
    match hexNumber? [a, b, c, d] with
    | some n => (string? cs).map (withPiece (.code n))
    | none => none
  | '\\' :: letter :: cs =>
    match ofLetter? letter with
    | some c => (string? cs).map (withPiece (.char c))
    | none => none
  | c :: cs =>
    if c.toNat < 0x20 || c == '\\' then none else (string? cs).map (withPiece (.char c))

/-! ## Numbers -/

/-- The digits that a text starts with, and the text after them. -/
def digits (cs : List Char) : List Char × List Char :=
  (cs.takeWhile Char.isDigit, cs.dropWhile Char.isDigit)

/-- Reads a fraction, if there is one. -/
def fraction? (cs : List Char) : Option (List Char × List Char) :=
  match cs with
  | '.' :: cs =>
    let (ds, rest) := digits cs
    if ds.isEmpty then none else some (ds, rest)
  | _ => some ([], cs)

/-- Reads an exponent, if there is one. -/
def exponent? (cs : List Char) : Option (Option Int × List Char) :=
  match cs with
  | c :: cs =>
    if c = 'e' || c = 'E' then
      let (sign, cs) :=
        match cs with
        | '-' :: cs => (-1, cs)
        | '+' :: cs => (1, cs)
        | _ => (1, cs)
      let (ds, rest) := digits cs
      if ds.isEmpty then none else some (some (sign * Nat.ofDigitChars 10 ds 0), rest)
    else some (none, c :: cs)
  | [] => some (none, [])

/-- Reads a number without its sign; zero is the only digit that may start more digits' place. -/
def unsigned? (negative : Bool) (cs : List Char) : Option (Numeral × List Char) := do
  let (whole, rest) := digits cs
  if whole.isEmpty || (whole.head? = some '0' && whole.length ≠ 1) then none
  else
    let (fraction, rest) ← fraction? rest
    let (exponent, rest) ← exponent? rest
    return (⟨negative, whole, fraction, exponent⟩, rest)

def number? : List Char → Option (Numeral × List Char)
  | '-' :: cs => unsigned? true cs
  | cs => unsigned? false cs

/-! ## Values -/

mutual

/-- Reads a value in at most `fuel` nested calls. -/
def value? : Nat → List Char → Option (JsonSyntax × List Char)
  | 0, _ => none
  | fuel + 1, cs =>
    match skipBlank cs with
    | 'n' :: 'u' :: 'l' :: 'l' :: rest => some (null, rest)
    | 't' :: 'r' :: 'u' :: 'e' :: rest => some (bool true, rest)
    | 'f' :: 'a' :: 'l' :: 's' :: 'e' :: rest => some (bool false, rest)
    | '"' :: rest => (string? rest).map fun (pieces, rest) => (string pieces, rest)
    | '[' :: rest =>
      match skipBlank rest with
      | ']' :: rest => some (array [], rest)
      | rest => (items? fuel rest).map fun (items, rest) => (array items, rest)
    | '{' :: rest =>
      match skipBlank rest with
      | '}' :: rest => some (object [], rest)
      | rest => (entries? fuel rest).map fun (entries, rest) => (object entries, rest)
    | rest => (number? rest).map fun (numeral, rest) => (number numeral, rest)

/-- Reads one or more values with commas between them, and the bracket after them. -/
def items? : Nat → List Char → Option (List JsonSyntax × List Char)
  | 0, _ => none
  | fuel + 1, cs => do
    let (item, rest) ← value? fuel cs
    match skipBlank rest with
    | ']' :: rest => return ([item], rest)
    | ',' :: rest =>
      let (items, rest) ← items? fuel rest
      return (item :: items, rest)
    | _ => none

/-- Reads one or more entries with commas between them, and the brace after them. -/
def entries? : Nat → List Char → Option (List (List Piece × JsonSyntax) × List Char)
  | 0, _ => none
  | fuel + 1, cs =>
    match skipBlank cs with
    | '"' :: rest => do
      let (key, rest) ← string? rest
      match skipBlank rest with
      | ':' :: rest =>
        let (value, rest) ← value? fuel rest
        match skipBlank rest with
        | '}' :: rest => return ([(key, value)], rest)
        | ',' :: rest =>
          let (entries, rest) ← entries? fuel rest
          return ((key, value) :: entries, rest)
        | _ => none
      | _ => none
    | _ => none

end

/-- Reads a text that holds one value and nothing else. Every second nested call uses a character,
so there are calls enough. -/
def ofChars? (cs : List Char) : Option JsonSyntax :=
  match value? (2 * cs.length + 2) cs with
  | some (v, rest) => if (skipBlank rest).isEmpty then some v else none
  | none => none

def ofText? (text : String) : Option JsonSyntax := ofChars? text.toList

end JsonSyntax

end QueryBatch
