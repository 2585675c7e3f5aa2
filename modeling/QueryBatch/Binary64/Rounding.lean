import QueryBatch.Binary64.Basic
import QueryBatch.Text.Decimal

/-!
# Rounding to the nearest floating point number

A quotient of natural numbers is rounded to the nearest value of 53 bits, a tie to the even
significand. Main statements:

* `roundHalfEven_mul`: a whole quotient is not changed;
* `Binary64.ofDecimal_scale`: the value of a decimal does not depend on zeros at its end.
-/

namespace QueryBatch

open Text

/-- The whole number nearest to `n / d`; of two, the even one. -/
def roundHalfEven (n d : Nat) : Nat :=
  let low := n / d
  let twice := 2 * (n % d)
  if twice < d then low
  else if d < twice then low + 1
  else low + low % 2

theorem roundHalfEven_mul (n : Nat) {d : Nat} (h : 0 < d) : roundHalfEven (n * d) d = n := by
  simp [roundHalfEven, Nat.mul_div_cancel _ h, h]

/-- Whether `2 ^ e ≤ n / d`. -/
def powerFits (e : Int) (n d : Nat) : Bool := d <<< e.toNat ≤ n <<< (-e).toNat

/-- The exponent of the greatest power of two that is at most `n / d`. -/
def floorLog2 (n d : Nat) : Int :=
  let e := (n.log2 : Int) - d.log2
  if powerFits e n d then e else e - 1

namespace Binary64

/-- The value nearest to `n / d`. -/
def ofRatio (negative : Bool) (n d : Nat) : Binary64 :=
  if n = 0 then zero negative
  else
    let exponent := max (-1074) (floorLog2 n d - 52)
    let significand := roundHalfEven (n <<< (-exponent).toNat) (d <<< exponent.toNat)
    if significand = 2 * leastNormal then ofParts negative leastNormal (exponent + 1)
    else ofParts negative significand exponent

/-- The value nearest to a decimal in normal form. From `10 ^ 309` on all is infinite, and below
`10 ^ (-324)` all is zero. -/
def ofNormal (negative : Bool) (d : Decimal) : Binary64 :=
  if d.coefficient = 0 || d.leading < -324 then zero negative
  else if 309 ≤ d.leading then infinite negative
  else
    ofRatio negative (d.coefficient * Nat.pow 10 d.exponent.toNat)
      (Nat.pow 10 (-d.exponent).toNat)

/-- The value nearest to a decimal. -/
def ofDecimal (negative : Bool) (d : Decimal) : Binary64 := ofNormal negative d.normalize

theorem ofDecimal_scale (negative : Bool) (n k : Nat) (e : Int) :
    ofDecimal negative ⟨n * Nat.pow 10 k, e⟩ = ofDecimal negative ⟨n, e + k⟩ := by
  simp only [ofDecimal, Decimal.normalize_scale]

end Binary64

end QueryBatch
