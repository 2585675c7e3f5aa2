/-!
# Decimal numerals

Integers and decimal fractions as they are written. A `Decimal` is a natural number times a power
of ten. Main statements:

* `integer?_toDigits`: the digits of a natural number are read as that number;
* `toString_injective`: a natural number is told from its digits;
* `Decimal.normalize_scale`: zeros at the end of the coefficient do not change the normal form.
-/

namespace QueryBatch.Text

/-- The value of a non-empty list of decimal digits. -/
def natural? (digits : List Char) : Option Nat :=
  if digits.isEmpty || !digits.all Char.isDigit then none
  else some (Nat.ofDigitChars 10 digits 0)

/-- The value of decimal digits, which a sign may precede. -/
def integer? : List Char → Option Int
  | '+' :: digits => (natural? digits).map Int.ofNat
  | '-' :: digits => (natural? digits).map fun n => -Int.ofNat n
  | digits => (natural? digits).map Int.ofNat

theorem natural?_toDigits (n : Nat) : natural? (Nat.toDigits 10 n) = some n := by
  have hall : (Nat.toDigits 10 n).all Char.isDigit = true :=
    List.all_eq_true.2 fun c hc => Nat.isDigit_of_mem_toDigits (by decide) (by decide) hc
  simp [natural?, hall, Nat.ofDigitChars_ten_toDigits]

theorem integer?_toDigits (n : Nat) : integer? (Nat.toDigits 10 n) = some n := by
  have hdigit : ∀ c ∈ Nat.toDigits 10 n, c.isDigit = true := fun c hc =>
    Nat.isDigit_of_mem_toDigits (by decide) (by decide) hc
  have key := natural?_toDigits n
  cases h : Nat.toDigits 10 n with
  | nil => simp at h
  | cons c cs =>
    rw [h] at key hdigit
    have hc := hdigit c (by simp)
    rw [integer?.eq_3 _ (by rintro _ ⟨⟩; simp at hc) (by rintro _ ⟨⟩; simp at hc), key]
    rfl

theorem toString_injective {i j : Nat} (h : toString i = toString j) : i = j := by
  have h := congrArg (fun s : String => Nat.ofDigitChars 10 s.toList 0) h
  simpa [Nat.toString_eq_ofList_toDigits, Nat.ofDigitChars_ten_toDigits] using h

/-! ## Decimal fractions -/

/-- The number `coefficient * 10 ^ exponent`. -/
structure Decimal where
  coefficient : Nat
  exponent : Int
  deriving DecidableEq, Repr

namespace Decimal

/-- The decimal `coefficient * 10 ^ exponent` without zeros at the end of its coefficient. -/
def trim (coefficient : Nat) (exponent : Int) : Decimal :=
  if coefficient = 0 then ⟨0, 0⟩
  else if coefficient % 10 = 0 then trim (coefficient / 10) (exponent + 1)
  else ⟨coefficient, exponent⟩
termination_by coefficient

/-- The same number, without zeros at the end of its coefficient. -/
def normalize (d : Decimal) : Decimal := trim d.coefficient d.exponent

/-- The digits of the coefficient. -/
def digits (d : Decimal) : List Char := Nat.toDigits 10 d.coefficient

/-- The power of ten of the first digit. -/
def leading (d : Decimal) : Int := d.digits.length - 1 + d.exponent

theorem trim_mul_ten (n : Nat) (e : Int) : trim (n * 10) e = trim n (e + 1) := by
  by_cases h : n = 0
  · subst h; unfold trim; simp
  · rw [trim, if_neg (by omega), if_pos (by omega), Nat.mul_div_cancel _ (by decide)]

theorem trim_scale (n k : Nat) (e : Int) : trim (n * Nat.pow 10 k) e = trim n (e + k) := by
  induction k generalizing e with
  | zero => simp
  | succ k ih =>
    change trim (n * (Nat.pow 10 k * 10)) e = _
    rw [← Nat.mul_assoc, trim_mul_ten, ih]
    congr 1
    omega

theorem normalize_scale (n k : Nat) (e : Int) :
    normalize ⟨n * Nat.pow 10 k, e⟩ = normalize ⟨n, e + k⟩ :=
  trim_scale n k e

end Decimal

/-- The exponent of ten that a numeral ends with: nothing, or a letter and an integer. -/
def exponentPart? : List Char → Option Int
  | [] => some 0
  | 'e' :: cs => integer? cs
  | 'E' :: cs => integer? cs
  | _ => none

/-- Reads digits with an optional point among them or beside them, and an optional exponent. -/
def decimal? (cs : List Char) : Option Decimal :=
  let whole := cs.takeWhile Char.isDigit
  let rest := cs.dropWhile Char.isDigit
  let (fraction, rest) :=
    match rest with
    | '.' :: cs => (cs.takeWhile Char.isDigit, cs.dropWhile Char.isDigit)
    | _ => ([], rest)
  match natural? (whole ++ fraction), exponentPart? rest with
  | some coefficient, some exponent => some ⟨coefficient, exponent - fraction.length⟩
  | _, _ => none

end QueryBatch.Text
