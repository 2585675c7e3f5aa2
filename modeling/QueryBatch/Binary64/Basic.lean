/-!
# Floating point numbers of 64 bits

The values of the IEEE 754 format `binary64`. A finite value is `significand * 2 ^ exponent`, and
each has one representation. Main statement:

* `Binary64.ofParts_of_canonical`: the parts of a finite value give back that value.
-/

namespace QueryBatch

/-- The least number of 53 bits. -/
abbrev leastNormal : Nat := 0x10000000000000

/-- The significand has at most 53 bits, and fewer only at the least exponent. -/
def Canonical (significand : Nat) (exponent : Int) : Prop :=
  significand < 2 * leastNormal ∧ -1074 ≤ exponent ∧ exponent ≤ 971 ∧
    (leastNormal ≤ significand ∨ exponent = -1074)

instance (significand : Nat) (exponent : Int) : Decidable (Canonical significand exponent) :=
  inferInstanceAs (Decidable (_ ∧ _))

inductive Binary64
  | nan
  | infinite (negative : Bool)
  | finite (negative : Bool) (significand : Nat) (exponent : Int)
      (canonical : Canonical significand exponent)
  deriving DecidableEq, Repr

namespace Binary64

theorem canonical_zero : Canonical 0 (-1074) := by decide

/-- Zero with a sign. -/
def zero (negative : Bool) : Binary64 := finite negative 0 (-1074) canonical_zero

def isFinite : Binary64 → Bool
  | finite .. => true
  | _ => false

def isZero : Binary64 → Bool
  | finite _ significand _ _ => significand == 0
  | _ => false

/-- The finite value with the given parts, or infinity where the exponent is out of range. -/
def ofParts (negative : Bool) (significand : Nat) (exponent : Int) : Binary64 :=
  if h : Canonical significand exponent then finite negative significand exponent h
  else infinite negative

/-- Equality of numbers: the NaN equals nothing, and the two zeros are equal. -/
protected def beq : Binary64 → Binary64 → Bool
  | infinite s, infinite t => s == t
  | finite s m p _, finite t n q _ => m == n && p == q && (s == t || m == 0)
  | _, _ => false

instance : BEq Binary64 := ⟨Binary64.beq⟩

theorem ofParts_of_canonical {negative : Bool} {significand : Nat} {exponent : Int}
    (h : Canonical significand exponent) :
    ofParts negative significand exponent = finite negative significand exponent h :=
  dif_pos h

end Binary64

end QueryBatch
