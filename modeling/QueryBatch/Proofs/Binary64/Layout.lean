import QueryBatch.Binary64.Layout
import QueryBatch.Proofs.Binary64.Rounding
import QueryBatch.Proofs.Text.Numeral

/-!
# What is written for a floating point number is read as that number

Main statements:

* `Layout.text_numeral`, `Layout.proper_numeral`: in every format, a number is written as a numeral
  with a point or an exponent, perhaps after a minus sign;
* `Layout.ofText?_text`: and it is read as the number that it was written for.
-/

namespace QueryBatch.Binary64

open Text

theorem isDigit_digits {d : Decimal} {c : Char} (h : c ∈ d.digits) : c.isDigit = true :=
  Nat.isDigit_of_mem_toDigits (by decide) (by decide) h

theorem ofDigitChars_digits (d : Decimal) : Nat.ofDigitChars 10 d.digits 0 = d.coefficient :=
  Nat.ofDigitChars_ten_toDigits

/-! ## With a point only -/

/-- The numeral of a decimal without an exponent. -/
def pointed (d : Decimal) : NumeralParts :=
  if d.leading < 0 then
    ⟨['0'], List.replicate (-d.leading - 1).toNat '0' ++ d.digits, none⟩
  else
    let whole := d.leading.toNat + 1
    let fraction := d.digits.drop whole
    ⟨d.digits.take whole ++ List.replicate (whole - d.digits.length) '0',
      if fraction.isEmpty then ['0'] else fraction, none⟩

theorem fraction_pointed_ne_nil (d : Decimal) : (pointed d).fraction ≠ [] := by
  have hlen := d.length_digits_pos
  unfold pointed
  split
  · intro hnil
    have hdigits := (List.append_eq_nil_iff.1 hnil).2
    rw [hdigits] at hlen
    exact Nat.lt_irrefl 0 hlen
  · simp only
    split
    · exact List.cons_ne_nil _ _
    · rename_i hsome
      exact fun hnil => hsome (List.isEmpty_iff.2 hnil)

theorem text_pointed (d : Decimal) : (pointed d).text = positional d := by
  have hne := fraction_pointed_ne_nil d
  simp only [NumeralParts.text, NumeralParts.fractionText, if_neg hne]
  unfold pointed positional
  split <;> simp [NumeralParts.exponentText]

theorem proper_pointed (d : Decimal) : (pointed d).Proper := by
  have hlen := d.length_digits_pos
  have hzero : ∀ {n : Nat} {c : Char}, c ∈ List.replicate n '0' → c.isDigit = true := by
    intro n c hc
    rw [(List.mem_replicate.1 hc).2]
    rfl
  unfold pointed
  split
  · refine ⟨List.cons_ne_nil _ _, ?_, ?_, by simp⟩
    · intro c hc
      rw [List.mem_singleton.1 hc]
      rfl
    · exact fun c hc => (List.mem_append.1 hc).elim hzero isDigit_digits
  · refine ⟨?_, ?_, ?_, by simp⟩
    · intro hnil
      have htake := congrArg List.length (List.append_eq_nil_iff.1 hnil).1
      rw [List.length_take, List.length_nil] at htake
      omega
    · exact fun c hc => (List.mem_append.1 hc).elim
        (fun hc => isDigit_digits (List.mem_of_mem_take hc)) hzero
    · intro c hc
      simp only at hc
      split at hc
      · rw [List.mem_singleton.1 hc]
        rfl
      · exact isDigit_digits (List.mem_of_mem_drop hc)

/-- Without an exponent, a decimal is read as one of the same value. -/
theorem decimal?_positional (d : Decimal) :
    ∃ d', decimal? (positional d) = some d' ∧ ∀ s, ofDecimal s d' = ofDecimal s d := by
  have hread := NumeralParts.decimal?_text (proper_pointed d) (e := 0) (by
    unfold pointed
    split <;> rfl)
  rw [text_pointed] at hread
  refine ⟨_, hread, fun s => ?_⟩
  have hlen := d.length_digits_pos
  have hleading : d.leading = d.digits.length - 1 + d.exponent := rfl
  unfold pointed
  split
  · rename_i hneg
    congr 1
    simp only [List.singleton_append, Nat.ofDigitChars_cons, Nat.ofDigitChars_append,
      Nat.ofDigitChars_replicate_zero, List.length_append, List.length_replicate]
    refine (Decimal.mk.injEq ..).mpr ⟨?_, ?_⟩
    · exact ofDigitChars_digits d
    · omega
  · rename_i hneg
    by_cases hend : d.digits.length ≤ d.leading.toNat + 1
    · -- All digits stand before the point, and zeros are added on both sides of it.
      have hzeros : d.digits.take (d.leading.toNat + 1) ++
          List.replicate (d.leading.toNat + 1 - d.digits.length) '0' ++ ['0'] =
            d.digits ++ List.replicate (d.leading.toNat + 1 - d.digits.length + 1) '0' := by
        rw [List.take_of_length_le hend, List.replicate_succ', List.append_assoc]
      simp only [List.drop_eq_nil_of_le hend, List.isEmpty_nil, if_true, hzeros,
        Nat.ofDigitChars_append, Nat.ofDigitChars_replicate_zero, ofDigitChars_digits,
        List.length_singleton]
      rw [Nat.mul_comm]
      refine (ofDecimal_scale s d.coefficient _ _).trans (congrArg (ofDecimal s) ?_)
      refine (Decimal.mk.injEq ..).mpr ⟨rfl, ?_⟩
      omega
    · have hfraction : (d.digits.drop (d.leading.toNat + 1)).isEmpty = false := by
        simpa using hend
      have hnone : d.leading.toNat + 1 - d.digits.length = 0 := by omega
      congr 1
      simp only [hfraction, Bool.false_eq_true, if_false, hnone, List.replicate_zero,
        List.append_nil, List.take_append_drop, ofDigitChars_digits, List.length_drop]
      refine (Decimal.mk.injEq ..).mpr ⟨rfl, ?_⟩
      omega

namespace Layout

/-! ## With an exponent -/

/-- The numeral of a decimal with an exponent. -/
def exponential (l : Layout) (d : Decimal) : NumeralParts where
  whole := d.digits.take 1
  fraction := d.digits.drop 1
  exponent :=
    let sign := if d.leading < 0 then ['-'] else if l.plus then ['+'] else []
    some (sign, Nat.toDigits 10 d.leading.natAbs)

theorem text_exponential (l : Layout) (d : Decimal) : (l.exponential d).text = l.scientific d := by
  simp [NumeralParts.text, NumeralParts.fractionText, NumeralParts.exponentText, exponential,
    scientific, exponentText]

theorem proper_exponential (l : Layout) (d : Decimal) : (l.exponential d).Proper where
  whole_ne_nil := by
    intro hnil
    have hlen := congrArg List.length hnil
    have hpos := d.length_digits_pos
    simp only [exponential, List.length_take, List.length_nil] at hlen
    omega
  whole c hc := isDigit_digits (List.mem_of_mem_take hc)
  fraction c hc := isDigit_digits (List.mem_of_mem_drop hc)
  exponent := by
    rintro _ _ ⟨⟩
    refine ⟨?_, Nat.toDigits_ne_nil, fun c hc =>
      Nat.isDigit_of_mem_toDigits (by decide) (by decide) hc⟩
    split
    · exact .inr (.inr rfl)
    · split
      · exact .inr (.inl rfl)
      · exact .inl rfl

theorem exponentPart?_exponential (l : Layout) (d : Decimal) :
    exponentPart? (l.exponential d).exponentText = some d.leading := by
  simp only [NumeralParts.exponentText, exponential, exponentPart?]
  split
  · rename_i hneg
    simp only [List.singleton_append, integer?, natural?_toDigits, Option.map_some,
      Option.some.injEq, Int.ofNat_eq_natCast]
    omega
  · split
    · simp only [List.singleton_append, integer?, natural?_toDigits, Option.map_some,
        Option.some.injEq, Int.ofNat_eq_natCast]
      omega
    · have hnat : (d.leading.natAbs : Int) = d.leading := by omega
      exact (integer?_toDigits _).trans (congrArg some hnat)

/-- With an exponent, a decimal is read as itself. -/
theorem decimal?_scientific (l : Layout) (d : Decimal) :
    decimal? (l.scientific d) = some d := by
  have hlen := d.length_digits_pos
  have hleading : d.leading = d.digits.length - 1 + d.exponent := rfl
  rw [← text_exponential, NumeralParts.decimal?_text (l.proper_exponential d)
    (l.exponentPart?_exponential d), Option.some.injEq]
  simp only [exponential, List.take_append_drop, ofDigitChars_digits, List.length_drop]
  refine (Decimal.mk.injEq ..).mpr ⟨rfl, ?_⟩
  omega

/-! ## In a format -/

/-- The numeral of a decimal in a format. -/
def numeral (l : Layout) (d : Decimal) : NumeralParts :=
  if d.coefficient = 0 || (l.least ≤ d.leading && d.leading ≤ l.greatest) then pointed d
  else l.exponential d

theorem text_numeral (l : Layout) (d : Decimal) : (l.numeral d).text = l.decimalText d := by
  unfold numeral decimalText
  split
  · exact text_pointed d
  · exact l.text_exponential d

theorem proper_numeral (l : Layout) (d : Decimal) : (l.numeral d).Proper := by
  unfold numeral
  split
  · exact proper_pointed d
  · exact l.proper_exponential d

/-- There is a point or an exponent. -/
theorem fractional_numeral (l : Layout) (d : Decimal) :
    ¬ ((l.numeral d).fraction = [] ∧ (l.numeral d).exponent = none) := by
  unfold numeral
  split
  · exact fun h => fraction_pointed_ne_nil d h.1
  · exact fun h => by cases h.2

theorem decimal?_decimalText (l : Layout) (d : Decimal) :
    ∃ d', decimal? (l.decimalText d) = some d' ∧ ∀ s, ofDecimal s d' = ofDecimal s d := by
  unfold decimalText
  split
  · exact decimal?_positional d
  · exact ⟨d, l.decimal?_scientific d, fun _ => rfl⟩

/-- A number is read from what was written for it. -/
theorem ofText?_text (l : Layout) {x : Binary64} (h : x.isFinite = true) :
    ofText? (l.text x) = some x := by
  cases x with
  | nan => cases h
  | infinite s => cases h
  | finite s m e hcan =>
    obtain ⟨d, hread, hsame⟩ := l.decimal?_decimalText (shortest l.tie m e)
    have hvalue : ∀ t, ofDecimal t d = finite t m e hcan := fun t =>
      (hsame t).trans (ofDecimal_shortest_parts hcan l.tie t)
    cases s with
    | true =>
      rw [ofText?, text, String.toList_ofList, finiteText, if_pos rfl, List.singleton_append]
      simp only [ofUnsigned?, hread, hvalue]
    | false =>
      obtain ⟨c, cs, hwhole, hdigit⟩ :=
        NumeralParts.exists_first (l.proper_numeral (shortest l.tie m e))
      have hhead : (l.decimalText (shortest l.tie m e)).head? = some c := by
        rw [← text_numeral, NumeralParts.text, hwhole]
        rfl
      rw [text, finiteText, if_neg Bool.false_ne_true, List.nil_append,
        ofText?_of_decimal hread, hvalue]
      · rw [hhead]
        rintro ⟨⟩
        cases hdigit
      · rw [hhead]
        rintro ⟨⟩
        cases hdigit

end Layout

end QueryBatch.Binary64
