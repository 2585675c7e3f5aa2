import Mathlib.Algebra.Order.Field.Power
import Mathlib.Data.Int.Log
import Mathlib.Data.Rat.Floor
import Mathlib.Tactic.Positivity
import Mathlib.Tactic.Linarith
import Mathlib.Tactic.NormNum.Pow
import Mathlib.Tactic.Ring
import QueryBatch.Binary64.Shortest

/-!
# Exact values are not rounded

Main statements:

* `floorLog2_eq_log`: the exponent from which rounding starts is the logarithm of the quotient;
* `Binary64.ofDecimal_of_value`: a decimal that equals a finite value is read as that value;
* `Binary64.ofDecimal_shortest_parts`: the shortest decimal of a finite value is read as that value.
-/

namespace QueryBatch

open Text

theorem zpow_eq_div {b : ℚ} (hb : b ≠ 0) (e : Int) : b ^ e = b ^ e.toNat / b ^ (-e).toNat := by
  rw [← zpow_natCast b e.toNat, ← zpow_natCast b (-e).toNat, ← zpow_sub₀ hb,
    Int.toNat_sub_toNat_neg]

/-! ## Logarithms -/

theorem powerFits_iff {n d : Nat} (hd : 0 < d) (e : Int) :
    powerFits e n d = true ↔ (2 : ℚ) ^ e ≤ n / d := by
  have hd' : (0 : ℚ) < d := Nat.cast_pos.2 hd
  rw [zpow_eq_div two_ne_zero, div_le_div_iff₀ (by positivity) hd', powerFits, decide_eq_true_iff,
    Nat.shiftLeft_eq, Nat.shiftLeft_eq, Nat.mul_comm d]
  exact_mod_cast Iff.rfl

theorem log_eq_of_le_of_lt {r : ℚ} {e : Int} (h₁ : (2 : ℚ) ^ e ≤ r) (h₂ : r < (2 : ℚ) ^ (e + 1)) :
    Int.log 2 r = e := by
  have hr : 0 < r := lt_of_lt_of_le (by positivity) h₁
  have hlow := (Int.zpow_le_iff_le_log Nat.one_lt_two hr).1 (by exact_mod_cast h₁)
  have hhigh := (Int.lt_zpow_iff_log_lt Nat.one_lt_two hr).1 (by exact_mod_cast h₂)
  omega

/-- A quotient is within a factor of two of the quotient of the powers of two that are next to its
parts. -/
theorem zpow_log2_sub {n d : Nat} (hn : 0 < n) (hd : 0 < d) :
    (2 : ℚ) ^ ((n.log2 : Int) - d.log2 - 1) ≤ n / d ∧
      (n : ℚ) / d < (2 : ℚ) ^ ((n.log2 : Int) - d.log2 + 1) := by
  have hn₁ : (2 : ℚ) ^ n.log2 ≤ n := by exact_mod_cast Nat.log2_self_le hn.ne'
  have hn₂ : (n : ℚ) < 2 ^ (n.log2 + 1) := by exact_mod_cast Nat.lt_log2_self
  have hd₁ : (2 : ℚ) ^ d.log2 ≤ d := by exact_mod_cast Nat.log2_self_le hd.ne'
  have hd₂ : (d : ℚ) < 2 ^ (d.log2 + 1) := by exact_mod_cast Nat.lt_log2_self
  have hpos : (0 : ℚ) < d := Nat.cast_pos.2 hd
  constructor
  · rw [show (n.log2 : Int) - d.log2 - 1 = n.log2 - (d.log2 + 1 : Nat) by omega,
      zpow_sub₀ two_ne_zero, zpow_natCast, zpow_natCast]
    exact div_le_div₀ (by positivity) hn₁ hpos hd₂.le
  · rw [show (n.log2 : Int) - d.log2 + 1 = (n.log2 + 1 : Nat) - d.log2 by omega,
      zpow_sub₀ two_ne_zero, zpow_natCast, zpow_natCast]
    exact div_lt_div₀ hn₂ hd₁ (by positivity) (by positivity)

theorem floorLog2_eq_log {n d : Nat} (hn : 0 < n) (hd : 0 < d) :
    floorLog2 n d = Int.log 2 ((n : ℚ) / d) := by
  obtain ⟨hlow, hhigh⟩ := zpow_log2_sub hn hd
  unfold floorLog2
  simp only
  split
  · rename_i hfits
    exact (log_eq_of_le_of_lt ((powerFits_iff hd _).1 hfits) hhigh).symm
  · rename_i hfits
    rw [powerFits_iff hd, not_le] at hfits
    refine (log_eq_of_le_of_lt hlow ?_).symm
    rwa [sub_add_cancel]

namespace Binary64

variable {m : Nat} {e : Int}

/-! ## Quotients -/

/-- The exponent at which a finite value other than zero is rounded is its own. -/
theorem max_log_of_canonical (h : Canonical m e) (hm : 0 < m) :
    max (-1074) (Int.log 2 ((m : ℚ) * 2 ^ e) - 52) = e := by
  obtain ⟨hlt, hleast, -, hnormal⟩ := h
  have hpos : (0 : ℚ) < (m : ℚ) * 2 ^ e := by positivity
  have hlog : Int.log 2 ((m : ℚ) * 2 ^ e) < e + 53 := by
    refine (Int.lt_zpow_iff_log_lt Nat.one_lt_two hpos).1 ?_
    have hm' : (m : ℚ) < 2 ^ 53 := by exact_mod_cast hlt
    rw [Nat.cast_ofNat, add_comm, zpow_add₀ two_ne_zero]
    exact mul_lt_mul_of_pos_right (by exact_mod_cast hm') (by positivity)
  rcases hnormal with hnormal | rfl
  · have hle : e + 52 ≤ Int.log 2 ((m : ℚ) * 2 ^ e) := by
      refine (Int.zpow_le_iff_le_log Nat.one_lt_two hpos).1 ?_
      have hm' : (2 : ℚ) ^ 52 ≤ m := by exact_mod_cast hnormal
      rw [Nat.cast_ofNat, add_comm, zpow_add₀ two_ne_zero]
      exact mul_le_mul_of_nonneg_right (by exact_mod_cast hm') (by positivity)
    omega
  · omega

theorem shifted_of_eq {n d : Nat} (hd : 0 < d) (heq : (n : ℚ) / d = m * 2 ^ e) :
    n <<< (-e).toNat = m * (d <<< e.toNat) := by
  have hd' : (d : ℚ) ≠ 0 := Nat.cast_ne_zero.2 hd.ne'
  rw [zpow_eq_div two_ne_zero, ← mul_div_assoc, div_eq_div_iff hd' (by positivity)] at heq
  rw [Nat.shiftLeft_eq, Nat.shiftLeft_eq, Nat.mul_comm d, ← Nat.mul_assoc]
  exact_mod_cast heq

theorem ofRatio_of_eq (h : Canonical m e) (hm : 0 < m) {n d : Nat} (hd : 0 < d)
    (heq : (n : ℚ) / d = m * 2 ^ e) (s : Bool) : ofRatio s n d = finite s m e h := by
  have hn : 0 < n := by
    have hpos : (0 : ℚ) < n / d := by
      rw [heq]
      positivity
    exact Nat.pos_of_ne_zero fun hzero => by simp [hzero] at hpos
  have hd' : 0 < d <<< e.toNat := by
    rw [Nat.shiftLeft_eq]
    positivity
  have hround : roundHalfEven (n <<< (-e).toNat) (d <<< e.toNat) = m := by
    rw [shifted_of_eq hd heq, roundHalfEven_mul m hd']
  simp only [ofRatio, if_neg hn.ne', floorLog2_eq_log hn hd, heq, max_log_of_canonical h hm, hround,
    if_neg h.1.ne, ofParts_of_canonical h]

/-! ## Decimals -/

end Binary64

namespace Text.Decimal

/-- The number that a decimal is. -/
def value (d : Decimal) : ℚ := d.coefficient * 10 ^ d.exponent

theorem value_trim (n : Nat) (e : Int) : (trim n e).value = n * 10 ^ e := by
  fun_induction trim n e with
  | case1 e => simp [value]
  | case2 n e hn hten ih =>
    rw [ih, zpow_add_one₀ (by norm_num), ← mul_assoc, mul_right_comm]
    congr 1
    exact_mod_cast Nat.div_mul_cancel (Nat.dvd_of_mod_eq_zero hten)
  | case3 n e hn hten => rfl

theorem value_normalize (d : Decimal) : d.normalize.value = d.value := value_trim ..

theorem length_digits_pos (d : Decimal) : 0 < d.digits.length := Nat.length_toDigits_pos

/-- The first digit stands at the greatest power of ten that is at most the value. -/
theorem value_bounds {d : Decimal} (h : 0 < d.coefficient) :
    (10 : ℚ) ^ d.leading ≤ d.value ∧ d.value < 10 ^ (d.leading + 1) := by
  have hlen := d.length_digits_pos
  have hupper : d.coefficient < 10 ^ d.digits.length :=
    (Nat.length_toDigits_le_iff (by decide) hlen).1 le_rfl
  have hlower : 10 ^ (d.digits.length - 1) ≤ d.coefficient := by
    rcases Nat.eq_zero_or_pos (d.digits.length - 1) with hone | hmore
    · rw [hone]
      exact h
    · refine Nat.le_of_not_lt fun hlt => ?_
      have hshort : d.digits.length ≤ d.digits.length - 1 :=
        (Nat.length_toDigits_le_iff (by decide) hmore).2 hlt
      omega
  have hupper' : (d.coefficient : ℚ) < 10 ^ d.digits.length := by exact_mod_cast hupper
  have hlower' : (10 : ℚ) ^ (d.digits.length - 1) ≤ d.coefficient := by exact_mod_cast hlower
  have hexp : d.leading = (d.digits.length - 1 : Nat) + d.exponent := by
    rw [leading]
    omega
  constructor
  · rw [hexp, zpow_add₀ (by norm_num), zpow_natCast]
    exact mul_le_mul_of_nonneg_right hlower' (by positivity)
  · rw [hexp, show ((d.digits.length - 1 : Nat) : Int) + d.exponent + 1 =
      (d.digits.length : Nat) + d.exponent by omega, zpow_add₀ (by norm_num), zpow_natCast]
    exact mul_lt_mul_of_pos_right hupper' (by positivity)

end Text.Decimal

namespace Binary64

variable {m : Nat} {e : Int}

theorem value_exact (m : Nat) (e : Int) : (exact m e).value = m * 2 ^ e := by
  unfold exact
  split
  · rename_i he
    obtain ⟨k, rfl⟩ := Int.eq_ofNat_of_zero_le he
    simp [Decimal.value, Nat.shiftLeft_eq]
  · rename_i he
    obtain ⟨k, rfl⟩ : ∃ k : Nat, e = -k := ⟨(-e).toNat, by omega⟩
    have hten : (10 : ℚ) ^ k = 5 ^ k * 2 ^ k := by
      rw [← mul_pow]
      norm_num
    simp only [Decimal.value, neg_neg, Int.toNat_natCast, zpow_neg, zpow_natCast, hten, Nat.pow_eq]
    push_cast
    field_simp

/-- The value nearest to a decimal between `2 ^ (-1074)` and `2 ^ 1024` is found by rounding. -/
theorem leading_bounds (h : Canonical m e) (hm : 0 < m) {d : Decimal} (hd : 0 < d.coefficient)
    (heq : d.value = m * 2 ^ e) : ¬ d.leading < -324 ∧ ¬ 309 ≤ d.leading := by
  obtain ⟨hlt, hleast, hgreatest, -⟩ := h
  obtain ⟨hlow, hhigh⟩ := Decimal.value_bounds hd
  rw [heq] at hlow hhigh
  constructor
  · intro hsmall
    have htiny : (2 : ℚ) ^ (-1074 : Int) ≤ m * 2 ^ e := by
      have hm' : (1 : ℚ) ≤ m := by exact_mod_cast hm
      calc (2 : ℚ) ^ (-1074 : Int) ≤ 2 ^ e := zpow_le_zpow_right₀ one_le_two hleast
        _ ≤ m * 2 ^ e := le_mul_of_one_le_left (by positivity) hm'
    have hten : (10 : ℚ) ^ (d.leading + 1) ≤ 10 ^ (-324 : Int) :=
      zpow_le_zpow_right₀ (by norm_num) (by omega)
    have hpowers : (10 : ℚ) ^ (-324 : Int) < 2 ^ (-1074 : Int) := by
      have hnat : 2 ^ 1074 < 10 ^ 324 := by decide +kernel
      rw [zpow_neg, zpow_neg]
      exact inv_strictAnti₀ (by positivity) (by exact_mod_cast hnat)
    exact absurd (htiny.trans_lt (hhigh.trans_le hten)) (not_lt.2 hpowers.le)
  · intro hlarge
    have hhuge : (m : ℚ) * 2 ^ e < 2 ^ (1024 : Int) := by
      have hm' : (m : ℚ) < 2 ^ (53 : Int) := by exact_mod_cast hlt
      calc (m : ℚ) * 2 ^ e < 2 ^ (53 : Int) * 2 ^ e := mul_lt_mul_of_pos_right hm' (by positivity)
        _ = 2 ^ (53 + e) := (zpow_add₀ two_ne_zero ..).symm
        _ ≤ 2 ^ (1024 : Int) := zpow_le_zpow_right₀ one_le_two (by omega)
    have hten : (10 : ℚ) ^ (309 : Int) ≤ 10 ^ d.leading :=
      zpow_le_zpow_right₀ (by norm_num) hlarge
    have hpowers : (2 : ℚ) ^ (1024 : Int) < 10 ^ (309 : Int) := by
      have hnat : 2 ^ 1024 < 10 ^ 309 := by decide +kernel
      exact_mod_cast hnat
    exact absurd (hten.trans_lt (hlow.trans_lt hhuge)) (not_lt.2 hpowers.le)

/-- A decimal that equals a finite value is read as that value. -/
theorem ofDecimal_of_value (h : Canonical m e) {d : Decimal} (heq : d.value = m * 2 ^ e)
    (s : Bool) : ofDecimal s d = finite s m e h := by
  rw [← Decimal.value_normalize] at heq
  rw [ofDecimal]
  generalize d.normalize = d at heq
  have hcoefficient : d.coefficient = 0 ↔ m = 0 := by
    have hzero : (d.value = 0 ↔ (m : ℚ) * 2 ^ e = 0) := by rw [heq]
    simpa [Decimal.value, zpow_ne_zero] using hzero
  rcases Nat.eq_zero_or_pos m with rfl | hm
  · obtain rfl : e = -1074 := h.2.2.2.resolve_left (by decide)
    simp only [ofNormal, hcoefficient.2 rfl, decide_true, Bool.true_or, if_true]
    rfl
  · have hd : 0 < d.coefficient := Nat.pos_of_ne_zero fun hzero => hm.ne' (hcoefficient.1 hzero)
    obtain ⟨hsmall, hlarge⟩ := leading_bounds h hm hd heq
    have hquotient : ((d.coefficient * Nat.pow 10 d.exponent.toNat : Nat) : ℚ) /
        (Nat.pow 10 (-d.exponent).toNat : Nat) = m * 2 ^ e := by
      rw [← heq, Decimal.value, zpow_eq_div (by norm_num), Nat.pow_eq, Nat.pow_eq]
      push_cast
      rw [mul_div_assoc]
    simp only [ofNormal, decide_eq_false hd.ne', decide_eq_false hsmall, Bool.or_self,
      Bool.false_eq_true, if_false, if_neg hlarge]
    exact ofRatio_of_eq h hm (Nat.pow_pos (by decide)) hquotient s

theorem ofDecimal_exact (h : Canonical m e) (s : Bool) :
    ofDecimal s (exact m e) = finite s m e h :=
  ofDecimal_of_value h (value_exact m e) s

/-! ## Signs -/

theorem ofParts_eq_finite_iff {s : Bool} {n : Nat} {p : Int} (h : Canonical m e) :
    ofParts s n p = finite s m e h ↔ n = m ∧ p = e := by
  unfold ofParts
  split
  · simp
  · rename_i hnot
    simp only [reduceCtorEq, false_iff]
    rintro ⟨rfl, rfl⟩
    exact hnot h

theorem ofRatio_sign (h : Canonical m e) {n d : Nat} (s t : Bool) :
    ofRatio s n d = finite s m e h ↔ ofRatio t n d = finite t m e h := by
  simp only [ofRatio]
  split
  · simp [zero]
  · split <;> simp only [ofParts_eq_finite_iff]

/-- With which sign a decimal is read makes no difference but for the sign. -/
theorem ofDecimal_sign (h : Canonical m e) {d : Decimal} (s t : Bool) :
    ofDecimal s d = finite s m e h ↔ ofDecimal t d = finite t m e h := by
  simp only [ofDecimal, ofNormal]
  split
  · simp [zero]
  · split
    · simp
    · exact ofRatio_sign h s t

theorem ofDecimal_shortest_parts (h : Canonical m e) (tie : Tie) (s : Bool) :
    ofDecimal s (shortest tie m e) = finite s m e h := by
  refine (ofDecimal_sign h s false).2 ?_
  rw [ofDecimal_shortest (by rw [ofDecimal_exact h, ofParts_of_canonical h]),
    ofParts_of_canonical h]

end Binary64

end QueryBatch
