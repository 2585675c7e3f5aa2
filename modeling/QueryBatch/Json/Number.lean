import QueryBatch.Binary64.Arithmetic
import QueryBatch.Json.Basic
import QueryBatch.Json.Syntax

/-!
# The values of numbers in JSON texts

Integers from `-2 ^ 63` to `2 ^ 64 - 1` are exact, except for the negative zero. Any other number
is read in two steps: the number that its first digits make up, as far as it has 64 bits, is
rounded, and a power of ten is then multiplied or divided into it, with another rounding. So the
value can differ from the one nearest to the number. Main statement:

* `Numeral.word?_eq_some`: a plain integer of 64 bits is what its digits say.
-/

namespace QueryBatch

namespace Numeral

/-- An integer is written without a fraction and without an exponent. -/
def isInteger (n : Numeral) : Bool := n.fraction.isEmpty && n.exponent.isNone

/-- Appends digits to a number as long as it stays below `2 ^ 64`, and gives the digits that are
left as well. -/
def keepDigits (n : Nat) : List Char → Nat × List Char
  | [] => (n, [])
  | c :: cs =>
    let more := 10 * n + (c.toNat - '0'.toNat)
    if more < UInt64.size then keepDigits more cs else (n, c :: cs)

/-- The value of a plain integer without a sign, if it has 64 bits. -/
def word? (n : Numeral) : Option UInt64 :=
  let value := Nat.ofDigitChars 10 n.whole 0
  if n.isInteger && !n.negative && value < UInt64.size then some (.ofNat value) else none

/-- The value of a number in two roundings. Digits before the point that are not kept count in the
power of ten; what is left after the point is passed over. -/
def approximate (n : Numeral) : Binary64 :=
  let (kept, dropped) := keepDigits 0 n.whole
  let (significand, left) := keepDigits kept n.fraction
  let places : Int := n.fraction.length - left.length
  (Binary64.ofRatio n.negative significand 1).timesTen
    (dropped.length - places + n.exponent.getD 0)

/-- The value of a number, which must not be too great. -/
def value? (n : Numeral) : Option Json :=
  let whole := Nat.ofDigitChars 10 n.whole 0
  if n.isInteger && n.negative && 0 < whole && Int64.minValue.toInt ≤ -whole then
    some (.int (-whole))
  else if n.isInteger && !n.negative && whole < UInt64.size then some (.int whole)
  else if n.approximate.isFinite then some (.float n.approximate)
  else none

theorem word?_eq_some {whole : List Char} (h : Nat.ofDigitChars 10 whole 0 < UInt64.size) :
    (⟨false, whole, [], none⟩ : Numeral).word? =
      some (.ofNat (Nat.ofDigitChars 10 whole 0)) := by
  simp [word?, isInteger, h]

end Numeral

end QueryBatch
