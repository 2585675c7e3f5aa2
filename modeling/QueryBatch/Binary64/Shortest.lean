import QueryBatch.Binary64.Numeral

/-!
# The fewest digits that read back

`shortest` finds the decimal with the fewest digits whose nearest floating point number is a given
one, and of several of that length the one nearest to the given number. Main statements:

* `ofDecimal_of_candidate?`: a candidate reads back;
* `ofDecimal_shortest`: what was found reads back, if the exact decimal does.
-/

namespace QueryBatch.Binary64

open Text

/-- Which neighbour is taken where two are equally near. -/
inductive Tie
  | up
  | toEven
  deriving DecidableEq, Repr

/-- The decimal that equals `significand * 2 ^ exponent`. -/
def exact (significand : Nat) (exponent : Int) : Decimal :=
  if 0 ≤ exponent then ⟨significand <<< exponent.toNat, 0⟩
  else ⟨significand * Nat.pow 5 (-exponent).toNat, exponent⟩

/-- The two decimals with `count` digits next to `d`, the lower one first, and how far above the
lower one `d` is: the remainder and the unit of which it is a part. -/
structure Neighbours where
  low : Decimal
  high : Decimal
  remainder : Nat
  unit : Nat

def neighbours (d : Decimal) (count : Nat) : Neighbours :=
  let drop := d.digits.length - count
  let unit := Nat.pow 10 drop
  let low := d.coefficient / unit
  let exponent := d.exponent + drop
  ⟨⟨low, exponent⟩, ⟨low + 1, exponent⟩, d.coefficient % unit, unit⟩

/-- The neighbour that is nearer. -/
def Neighbours.nearer (tie : Tie) (n : Neighbours) : Decimal :=
  if 2 * n.remainder < n.unit then n.low
  else if n.unit < 2 * n.remainder then n.high
  else
    match tie with
    | .up => n.high
    | .toEven => if n.low.coefficient % 2 = 0 then n.low else n.high

theorem Neighbours.nearer_eq (n : Neighbours) (tie : Tie) :
    n.nearer tie = n.low ∨ n.nearer tie = n.high := by
  unfold Neighbours.nearer
  repeat' split
  all_goals simp

/-- The neighbour with `count` digits that reads back as `x`, the nearer one if both do. -/
def candidate? (tie : Tie) (x : Binary64) (d : Decimal) (count : Nat) : Option Decimal :=
  let n := neighbours d count
  let reads (c : Decimal) : Bool := decide (ofDecimal false c = x)
  if reads n.low && reads n.high then some (n.nearer tie)
  else if reads n.low then some n.low
  else if reads n.high then some n.high
  else none

/-- The shortest decimal that reads back as the positive value with the given parts. Seventeen
digits always suffice. -/
def shortest (tie : Tie) (significand : Nat) (exponent : Int) : Decimal :=
  let d := exact significand exponent
  let x := ofParts false significand exponent
  match (List.range' 1 17).findSome? (candidate? tie x d) with
  | some c => c.normalize
  | none => d.normalize

theorem ofDecimal_of_candidate? {tie : Tie} {x : Binary64} {d c : Decimal} {count : Nat}
    (h : candidate? tie x d count = some c) : ofDecimal false c = x := by
  simp only [candidate?] at h
  split at h
  · rename_i hboth
    obtain ⟨hlow, hhigh⟩ : ofDecimal false (neighbours d count).low = x ∧
        ofDecimal false (neighbours d count).high = x := by simpa using hboth
    obtain rfl : (neighbours d count).nearer tie = c := by simpa using h
    rcases (neighbours d count).nearer_eq tie with hn | hn <;> simp [hn, hlow, hhigh]
  · repeat' split at h
    all_goals simp_all

theorem trim_idem (n : Nat) (e : Int) :
    Decimal.trim (Decimal.trim n e).coefficient (Decimal.trim n e).exponent =
      Decimal.trim n e := by
  fun_induction Decimal.trim n e with
  | case1 e => unfold Decimal.trim; simp
  | case2 n e hn h ih => exact ih
  | case3 n e hn h => rw [Decimal.trim, if_neg hn, if_neg h]

theorem ofDecimal_normalize (negative : Bool) (d : Decimal) :
    ofDecimal negative d.normalize = ofDecimal negative d := by
  simp only [ofDecimal, Decimal.normalize, trim_idem]

theorem ofDecimal_shortest {tie : Tie} {significand : Nat} {exponent : Int}
    (h : ofDecimal false (exact significand exponent) = ofParts false significand exponent) :
    ofDecimal false (shortest tie significand exponent) = ofParts false significand exponent := by
  simp only [shortest]
  split
  · rename_i c hc
    obtain ⟨count, -, hcount⟩ := List.exists_of_findSome?_eq_some hc
    rw [ofDecimal_normalize, ofDecimal_of_candidate? hcount]
  · rw [ofDecimal_normalize, h]

end QueryBatch.Binary64
