import QueryBatch.Token.Basic

/-!
# Cutting a source into tokens

A `Cursor` stands at a place of the source. `Cursor.next` steps over the text that stands for
nothing (blanks, commas, byte order marks and comments) and takes the longest lexeme that starts
there. A place is a number of any size. The scanner of bytes keeps places of 32 bits; for a source
of at most `2 ^ 32 - 4` bytes its calls give the same tokens at the same places (`Bytes.call_eq`).
Main statements:

* `Cursor.next?_eq_some_iff`: a token is the lexeme that starts behind the text to step over;
* `Cursor.length_rest_next?_lt`: every token uses at least one character;
* `Cursor.tokens_eq_nil_iff`: a source without tokens is one that only holds text to step over.
-/

namespace QueryBatch

open Text

/-! ## Text that stands for nothing -/

def isLineEnd (c : Char) : Bool := c == '\n' || c == '\r'

/-- Blanks, commas and byte order marks. -/
def isIgnored (c : Char) : Bool :=
  c == ' ' || c == '\t' || c == ',' || c == '\uFEFF' || isLineEnd c

/-- How many characters at the start of a text stand for nothing. A comment runs from its number
sign up to the end of the line; `inComment` tells that one is open. -/
def gap (inComment : Bool) : List Char → Nat
  | [] => 0
  | c :: cs =>
    if isLineEnd c then gap false cs + 1
    else if inComment || c == '#' then gap true cs + 1
    else if isIgnored c then gap false cs + 1
    else 0

/-! ## Lexemes -/

/-- The kind of a lexeme, and how many characters it has after its first one. -/
structure Lexeme where
  kind : Kind
  extra : Nat
  deriving DecidableEq, Repr

/-- The lexeme with `n` more characters in front. -/
def Lexeme.after (n : Nat) (l : Lexeme) : Lexeme := ⟨l.kind, n + l.extra⟩

def isNameStart (c : Char) : Bool := c.isAlpha || c == '_'

def isNameChar (c : Char) : Bool := c.isAlphanum || c == '_'

/-- Scans a name or a keyword that starts with `first`. -/
def scanWord (first : Char) (cs : List Char) : Lexeme :=
  let more := cs.takeWhile isNameChar
  ⟨.ofWord (String.ofList (first :: more)), more.length⟩

def digitRun (cs : List Char) : Nat := (cs.takeWhile Char.isDigit).length

/-- The length of the fraction that a text starts with; a point without digits is none. -/
def fractionRun : List Char → Nat
  | '.' :: cs => if digitRun cs = 0 then 0 else digitRun cs + 1
  | _ => 0

/-- The length of the exponent that a text starts with, and of its digits. -/
def exponentRun : List Char → Option (Nat × Nat)
  | c :: cs =>
    if c == 'e' || c == 'E' then
      let sign := if cs.head? == some '+' || cs.head? == some '-' then 1 else 0
      let digits := digitRun (cs.drop sign)
      some (1 + sign + digits, digits)
    else none
  | [] => none

/-- Whether a character spoils a number that it follows. -/
def isNumberSpoiler (c : Char) : Bool := c.isAlpha || c == '_' || c == '.'

/-- Scans a number that starts with `first`, a digit or the minus sign. -/
def scanNumber (first : Char) (cs : List Char) : Lexeme :=
  let whole := digitRun cs
  let fraction := fractionRun (cs.drop whole)
  let exponent := exponentRun (cs.drop (whole + fraction))
  let extra := whole + fraction + (exponent.map (·.1)).getD 0
  if first == '-' && whole == 0 then ⟨.error, 0⟩
  else if exponent.any (·.2 == 0) then ⟨.error, extra⟩
  else if (cs.drop extra).head?.any isNumberSpoiler then ⟨.error, extra⟩
  else if fraction == 0 && exponent.isNone then ⟨.int, extra⟩
  else ⟨.float, extra⟩

/-- Scans what follows the opening quote of a string. A backslash takes the next character with
it, and a string must end on the line on which it starts. -/
def scanString : List Char → Lexeme
  | [] => ⟨.error, 0⟩
  | ['\\'] => ⟨.error, 1⟩
  | '\\' :: _ :: cs => (scanString cs).after 2
  | c :: cs =>
    if c == '"' then ⟨.string, 1⟩
    else if isLineEnd c then ⟨.error, 0⟩
    else (scanString cs).after 1

/-- Scans what follows the opening quotes of a block string. -/
def scanBlockString : List Char → Lexeme
  | [] => ⟨.error, 0⟩
  | '"' :: '"' :: '"' :: _ => ⟨.blockString, 3⟩
  | '\\' :: '"' :: '"' :: '"' :: cs => (scanBlockString cs).after 4
  | _ :: cs => (scanBlockString cs).after 1

/-- Scans a string or a block string after its first quote. -/
def scanQuoted : List Char → Lexeme
  | '"' :: '"' :: cs => (scanBlockString cs).after 2
  | cs => scanString cs

/-- Scans three points after the first one. -/
def scanSpread : List Char → Lexeme
  | '.' :: '.' :: _ => ⟨.punctuator .spread, 2⟩
  | _ => ⟨.error, 0⟩

/-- Scans the lexeme that starts with `first`. -/
def scan (first : Char) (cs : List Char) : Lexeme :=
  match Punctuator.ofChar? first with
  | some mark => ⟨.punctuator mark, 0⟩
  | none =>
    if first == '.' then scanSpread cs
    else if first == '"' then scanQuoted cs
    else if first == '-' || first.isDigit then scanNumber first cs
    else if isNameStart first then scanWord first cs
    else ⟨.error, 0⟩

/-! ## The cursor -/

/-- A place in a source: the number of bytes before it, which need not fit into 32 bits, and the
text from there on. -/
structure Cursor where
  offset : Nat
  rest : List Char
  deriving DecidableEq, Repr

namespace Cursor

def ofSource (source : String) : Cursor := ⟨0, source.toList⟩

/-- The cursor `n` characters further on. -/
def skip (c : Cursor) (n : Nat) : Cursor :=
  ⟨c.offset + utf8Length (c.rest.take n), c.rest.drop n⟩

/-- The cursor at the start of the next lexeme. -/
def skipGap (c : Cursor) : Cursor := c.skip (gap false c.rest)

/-- The next token and the place after it; there is none at the end of the source. -/
def next? (c : Cursor) : Option (Token × Cursor) :=
  let place := c.skipGap
  match place.rest with
  | [] => none
  | first :: cs =>
    let lexeme := scan first cs
    let text := String.ofList (first :: cs.take lexeme.extra)
    some (⟨lexeme.kind, text, place.offset⟩, place.skip (lexeme.extra + 1))

/-- The next token and the place after it; at the end of the source, the token `eof`. -/
def next (c : Cursor) : Token × Cursor :=
  c.next?.getD (⟨.eof, "", c.skipGap.offset⟩, c.skipGap)

theorem next?_eq_none_iff {c : Cursor} : c.next? = none ↔ c.skipGap.rest = [] := by
  simp only [next?]
  split
  · rename_i hrest
    simp [hrest]
  · rename_i hrest
    simp [hrest]

theorem next?_eq_some_iff {c d : Cursor} {t : Token} : c.next? = some (t, d) ↔
    ∃ first cs, c.skipGap.rest = first :: cs ∧
      t = ⟨(scan first cs).kind, String.ofList (first :: cs.take (scan first cs).extra),
        c.skipGap.offset⟩ ∧
      d = c.skipGap.skip ((scan first cs).extra + 1) := by
  simp only [next?]
  split
  · rename_i hrest
    simp [hrest]
  · rename_i first cs hrest
    constructor
    · intro h
      obtain ⟨rfl, rfl⟩ := Prod.mk.inj (Option.some.inj h)
      exact ⟨first, cs, hrest, rfl, rfl⟩
    · rintro ⟨first', cs', hrest', rfl, rfl⟩
      obtain ⟨rfl, rfl⟩ := List.cons.inj (hrest.symm.trans hrest')
      rfl

theorem length_rest_next?_lt {c d : Cursor} {t : Token} (h : c.next? = some (t, d)) :
    d.rest.length < c.rest.length := by
  obtain ⟨first, cs, hrest, -, rfl⟩ := next?_eq_some_iff.1 h
  have hlen := congrArg List.length hrest
  simp only [skipGap, skip, List.length_drop, List.length_cons] at hlen ⊢
  omega

/-- The tokens from a place on. -/
def tokens (c : Cursor) : List Token :=
  match _h : c.next? with
  | none => []
  | some (t, d) => t :: d.tokens
termination_by c.rest.length
decreasing_by exact length_rest_next?_lt ‹_›

theorem tokens_eq_nil_iff {c : Cursor} :
    c.tokens = [] ↔ c.rest.drop (gap false c.rest) = [] := by
  have hend : c.tokens = [] ↔ c.next? = none := by
    rw [tokens]
    split
    · rename_i h
      simp [h]
    · rename_i t d h
      simp [h]
  exact hend.trans next?_eq_none_iff

end Cursor

/-- The tokens of a source. -/
def tokenize (source : String) : List Token := (Cursor.ofSource source).tokens

end QueryBatch
