import QueryBatch.Json.Number

/-!
# Reading JSON values

What is kept of a JSON text must be sound: its strings are sequences of characters, its numbers
are finite and its nesting is bounded.
-/

namespace QueryBatch.JsonSyntax

open Text

/-- How deep arrays and objects may be nested. -/
def maxNesting : Nat := 127

/-- The character that two surrogates stand for. -/
def surrogatePair? (high low : Nat) : Option Char :=
  if 0xD800 ≤ high ∧ high < 0xDC00 ∧ 0xDC00 ≤ low ∧ low < 0xE000 then
    scalar? (0x10000 + (high - 0xD800) * 0x400 + (low - 0xDC00))
  else none

/-- The characters of a string, in which surrogates come in pairs. -/
def characters? : List Piece → Option (List Char)
  | [] => some []
  | .char c :: ps => (characters? ps).map (c :: ·)
  | .code n :: ps =>
    match scalar? n with
    | some c => (characters? ps).map (c :: ·)
    | none =>
      match ps with
      | .code m :: ps =>
        match surrogatePair? n m with
        | some c => (characters? ps).map (c :: ·)
        | none => none
      | _ => none

def textOf? (pieces : List Piece) : Option String := (characters? pieces).map String.ofList

mutual

/-- The value of a text whose arrays and objects are nested in at most `levels` levels. -/
def json? (levels : Nat) : JsonSyntax → Option Json
  | null => some .null
  | bool value => some (.bool value)
  | number numeral => numeral.value?
  | string pieces => (textOf? pieces).map .string
  | array items =>
    match levels with
    | 0 => none
    | levels + 1 => (jsonItems? levels items).map .array
  | object entries =>
    match levels with
    | 0 => none
    | levels + 1 => (jsonEntries? levels entries).map fun es => .ofDict (.ofList es)

def jsonItems? (levels : Nat) : List JsonSyntax → Option (List Json)
  | [] => some []
  | item :: items =>
    match json? levels item, jsonItems? levels items with
    | some v, some vs => some (v :: vs)
    | _, _ => none

def jsonEntries? (levels : Nat) : List (List Piece × JsonSyntax) → Option (List (String × Json))
  | [] => some []
  | (key, value) :: entries =>
    match textOf? key, json? levels value, jsonEntries? levels entries with
    | some k, some v, some es => some ((k, v) :: es)
    | _, _, _ => none

end

end QueryBatch.JsonSyntax

namespace QueryBatch.Json

/-- Reads a text that holds one value, nested in at most `levels` levels. -/
def ofText? (levels : Nat) (text : String) : Option Json :=
  (JsonSyntax.ofText? text).bind (·.json? levels)

end QueryBatch.Json
