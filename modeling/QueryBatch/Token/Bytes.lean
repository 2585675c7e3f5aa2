import QueryBatch.Token.Scan

/-!
# Cutting a source into tokens byte by byte

A scanner that keeps a place of 32 bits and looks at single bytes from there on. It fails where a
place does not fit into 32 bits, and where it would cut the source inside a character. Each byte is
looked at as the character of the same number, which is the character that it encodes if it is one
of ASCII. Main statements:

* `Bytes.forward_ofNat`: how far a place may be moved;
* `Bytes.call_succ`: each call of the scanner starts where the call before it has ended.
-/

namespace QueryBatch

open Text

namespace Bytes

/-- Why the scanner fails. -/
inductive Fault
  /-- A place does not fit into 32 bits. -/
  | overflow
  /-- A text would start or end inside a character. -/
  | insideCharacter
  deriving DecidableEq, Repr

/-- A token as it is scanned: its kind and the places where it starts and where it ends. -/
structure Lexed where
  kind : Kind
  start : UInt32
  stop : UInt32
  deriving DecidableEq, Repr

/-- A lexeme from a known place on: its kind and the place where it ends. -/
structure Scanned where
  kind : Kind
  stop : UInt32
  deriving DecidableEq, Repr

/-! ## Single bytes -/

/-- The place `n` bytes further on. -/
def forward (place : UInt32) (n : Nat) :
    Except Fault { next : UInt32 // next.toNat = place.toNat + n } :=
  if h : place.toNat + n < UInt32.size then
    .ok ⟨.ofNat (place.toNat + n), UInt32.toNat_ofNat_of_lt' h⟩
  else .error .overflow

theorem toNat_ofNat_add {n k : Nat} (h : n + k < UInt32.size) :
    (UInt32.ofNat (n + k)).toNat = (UInt32.ofNat n).toNat + k := by
  have hn : n < UInt32.size := by omega
  rw [UInt32.toNat_ofNat_of_lt' h, UInt32.toNat_ofNat_of_lt' hn]

theorem forward_ofNat {n k : Nat} (h : n + k < UInt32.size) :
    forward (.ofNat n) k = .ok ⟨.ofNat (n + k), toNat_ofNat_add h⟩ := by
  have hn : (UInt32.ofNat n).toNat = n := UInt32.toNat_ofNat_of_lt' (by omega)
  simp only [forward, hn, h, dite_true]

variable (source : String)

/-- The byte at a place; there is none at the end. -/
def peek (place : UInt32) : Option Char := source.toByteArray[place.toNat]?.map Char.ofUInt8

def peekAt (place : UInt32) (n : Nat) : Except Fault (Option Char) := do
  return peek source (← forward place n)

/-- Whether given bytes are there from the `n`th byte after a place on. The comparison ends at the
first byte that differs. -/
def follow (place : UInt32) : Nat → List Char → Except Fault Bool
  | _, [] => .ok true
  | n, c :: cs => do
    if (← peekAt source place n) = some c then follow place (n + 1) cs else return false

/-- A place behind a byte has fewer bytes before it. -/
theorem sub_lt_of_peek {place next : UInt32} {c : Char} (h : peek source place = some c)
    (hnext : place.toNat < next.toNat) :
    source.toByteArray.size - next.toNat < source.toByteArray.size - place.toNat := by
  obtain ⟨b, hb, -⟩ := Option.map_eq_some_iff.1 h
  obtain ⟨hlt, -⟩ := getElem?_eq_some_iff.1 hb
  omega

/-! ## Loops -/

/-- The place of the first byte that fails a test. -/
def skipWhile (p : Char → Bool) (place : UInt32) : Except Fault UInt32 :=
  match _h : peek source place with
  | none => .ok place
  | some c =>
    if p c then do
      let next ← forward place 1
      skipWhile p next
    else .ok place
termination_by source.toByteArray.size - place.toNat
decreasing_by exact sub_lt_of_peek source ‹_› (by rw [next.2]; omega)

/-- The bytes that are stepped over one by one outside comments. -/
def isSeparator (c : Char) : Bool :=
  c == ' ' || c == '\t' || c == '\r' || c == '\n' || c == ','

/-- Steps over blanks, commas, byte order marks and comments; `inComment` tells that a comment is
open. -/
def skipGap (inComment : Bool) (place : UInt32) : Except Fault UInt32 :=
  match _h : peek source place with
  | none => .ok place
  | some c =>
    if inComment && !isLineEnd c then do
      let next ← forward place 1
      skipGap true next
    else if isSeparator c then do
      let next ← forward place 1
      skipGap false next
    else if c == '#' then do
      let next ← forward place 1
      skipGap true next
    else if c == '\xEF' then do
      if ← follow source place 1 ['\xBB', '\xBF'] then
        let next ← forward place 3
        skipGap false next
      else return place
    else .ok place
termination_by source.toByteArray.size - place.toNat
decreasing_by all_goals exact sub_lt_of_peek source ‹_› (by rw [next.2]; omega)

/-- Scans what follows the opening quote of a string. A backslash takes the next byte with it. -/
def scanString (place : UInt32) : Except Fault Scanned :=
  match _h : peek source place with
  | none => .ok ⟨.error, place⟩
  | some c =>
    if isLineEnd c then .ok ⟨.error, place⟩
    else if c == '"' then do return ⟨.string, ← forward place 1⟩
    else if c == '\\' then do
      let next ← forward place 1
      if (peek source next).isSome then do
        let after ← forward next 1
        scanString after
      else scanString next
    else do
      let next ← forward place 1
      scanString next
termination_by source.toByteArray.size - place.toNat
decreasing_by
  · exact sub_lt_of_peek source ‹_› (by rw [after.2, next.2]; omega)
  all_goals exact sub_lt_of_peek source ‹_› (by rw [next.2]; omega)

/-- Scans what follows the opening quotes of a block string. -/
def scanBlockString (place : UInt32) : Except Fault Scanned :=
  match _h : peek source place with
  | none => .ok ⟨.error, place⟩
  | some c => do
    let closed ← if c == '"' then follow source place 1 ['"', '"'] else pure false
    if closed then return ⟨.blockString, ← forward place 3⟩
    else
      let escaped ← if c == '\\' then follow source place 1 ['"', '"', '"'] else pure false
      if escaped then
        let next ← forward place 4
        scanBlockString next
      else
        let next ← forward place 1
        scanBlockString next
termination_by source.toByteArray.size - place.toNat
decreasing_by all_goals exact sub_lt_of_peek source ‹_› (by rw [next.2]; omega)

/-! ## Lexemes -/

/-- Scans a string or a block string from its first quote on. -/
def scanQuoted (place : UInt32) : Except Fault Scanned := do
  let inner ← forward place 1
  if ← follow source inner 0 ['"', '"'] then
    let inner ← forward inner 2
    scanBlockString source inner
  else scanString source inner

/-- What a number without a fault is, unless a byte follows that spoils it. -/
def endNumber (kind : Kind) (place : UInt32) : Scanned :=
  if (peek source place).any isNumberSpoiler then ⟨.error, place⟩ else ⟨kind, place⟩

/-- Scans the exponent of a number, if there is one, behind a number of a kind. -/
def scanExponent (kind : Kind) (place : UInt32) : Except Fault Scanned := do
  if (peek source place).any fun c => c == 'e' || c == 'E' then
    let sign ← forward place 1
    if (peek source sign).any fun c => c == '+' || c == '-' then
      let digits ← forward sign 1
      let stop ← skipWhile source Char.isDigit digits
      if stop = digits then return ⟨.error, stop⟩ else return endNumber source .float stop
    else
      let stop ← skipWhile source Char.isDigit sign
      if stop = sign then return ⟨.error, stop⟩ else return endNumber source .float stop
  else return endNumber source kind place

/-- Whether there is a fraction at a place: a point with a digit behind it. -/
def hasFraction (place : UInt32) : Except Fault Bool := do
  if peek source place = some '.' then return (← peekAt source place 1).any Char.isDigit
  else return false

/-- Scans a number without its sign. -/
def scanUnsigned (place : UInt32) : Except Fault Scanned := do
  let whole ← skipWhile source Char.isDigit place
  if whole = place then return ⟨.error, whole⟩
  else
    if ← hasFraction source whole then
      let fraction ← forward whole 1
      let fraction ← skipWhile source Char.isDigit fraction
      scanExponent source .float fraction
    else scanExponent source .int whole

def scanNumber (first : Char) (place : UInt32) : Except Fault Scanned := do
  if first == '-' then
    let next ← forward place 1
    scanUnsigned source next
  else scanUnsigned source place

/-- Scans a name or a keyword, whose text is cut out of the source. -/
def scanWord (place : UInt32) : Except Fault Scanned := do
  let stop ← skipWhile source isNameChar place
  match slice? place.toNat stop.toNat source.toList with
  | some word => return ⟨.ofWord (String.ofList word), stop⟩
  | none => throw .insideCharacter

/-- Scans three points from the first one on. -/
def scanSpread (place : UInt32) : Except Fault Scanned := do
  if ← follow source place 1 ['.', '.'] then return ⟨.punctuator .spread, ← forward place 3⟩
  else return ⟨.error, ← forward place 1⟩

/-- Steps over a whole character, which no lexeme starts with. -/
def scanOther (place : UInt32) : Except Fault Scanned := do
  match splitAtByte? place.toNat source.toList with
  | some (_, rest) => return ⟨.error, ← forward place ((rest.head?.map (·.utf8Size)).getD 1)⟩
  | none => throw .insideCharacter

/-- Scans the lexeme that starts with the byte `first`. -/
def scan (first : Char) (place : UInt32) : Except Fault Scanned := do
  match Punctuator.ofChar? first with
  | some mark => return ⟨.punctuator mark, ← forward place 1⟩
  | none =>
    if first == '.' then scanSpread source place
    else if first == '"' then scanQuoted source place
    else if first == '-' || first.isDigit then scanNumber source first place
    else if isNameStart first then scanWord source place
    else scanOther source place

/-! ## Calls -/

/-- The next token and the place behind it. -/
def next (place : UInt32) : Except Fault (Lexed × UInt32) := do
  let start ← skipGap source false place
  match peek source start with
  | none => return (⟨.eof, start, start⟩, start)
  | some first =>
    let scanned ← scan source first start
    return (⟨scanned.kind, start, scanned.stop⟩, scanned.stop)

/-- What the `n`th call of the scanner gives, where calls are counted from zero. -/
def call : Nat → Except Fault (Lexed × UInt32)
  | 0 => next source 0
  | n + 1 => do next source (← call n).2

theorem call_succ {n : Nat} {t : Lexed} {place : UInt32} (h : call source n = .ok (t, place)) :
    call source (n + 1) = next source place := by
  rw [call, h]
  rfl

end Bytes

end QueryBatch
