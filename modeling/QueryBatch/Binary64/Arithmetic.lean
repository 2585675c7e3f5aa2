import QueryBatch.Binary64.Rounding

/-!
# Products and quotients of floating point numbers

The exact product or quotient of two numbers is rounded to the nearest value.
-/

namespace QueryBatch.Binary64

/-- The value nearest to `n / d * 2 ^ exponent`. -/
def ofScaledRatio (negative : Bool) (n d : Nat) (exponent : Int) : Binary64 :=
  ofRatio negative (n <<< exponent.toNat) (d <<< (-exponent).toNat)

protected def mul : Binary64 → Binary64 → Binary64
  | finite s m p _, finite t n q _ => ofScaledRatio (s != t) (m * n) 1 (p + q)
  | infinite s, infinite t => infinite (s != t)
  | infinite s, finite t n _ _ => if n = 0 then nan else infinite (s != t)
  | finite s m _ _, infinite t => if m = 0 then nan else infinite (s != t)
  | _, _ => nan

protected def div : Binary64 → Binary64 → Binary64
  | finite s m p _, finite t n q _ =>
    if n ≠ 0 then ofScaledRatio (s != t) m n (p - q)
    else if m = 0 then nan
    else infinite (s != t)
  | infinite s, finite t _ _ _ => infinite (s != t)
  | finite s _ _ _, infinite t => zero (s != t)
  | _, _ => nan

instance : Mul Binary64 := ⟨Binary64.mul⟩

instance : Div Binary64 := ⟨Binary64.div⟩

/-! ## Powers of ten -/

/-- The value nearest to `10 ^ n`. -/
def powerOfTen (n : Nat) : Binary64 := ofDecimal false ⟨1, n⟩

/-- Multiplies a power of ten into a number, or divides by one. The greatest power that is a
finite value is `10 ^ 308`, so a division by more is done in several steps. -/
def timesTen (x : Binary64) (exponent : Int) : Binary64 :=
  if x.isZero then x
  else if 0 ≤ exponent then x * powerOfTen exponent.toNat
  else if -308 ≤ exponent then x / powerOfTen (-exponent).toNat
  else timesTen (x / powerOfTen 308) (exponent + 308)
termination_by (-exponent).toNat

end QueryBatch.Binary64
