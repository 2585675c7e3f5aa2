import QueryBatch.Json.Number
import QueryBatch.Proofs.Binary64.Layout

/-!
# Numbers in JSON texts

Integers and finite floating point numbers are written as numerals of JSON, which are read in full
where a text follows that ends them. Main statements:

* `JsonSyntax.number?_text`: a numeral without a zero before its other digits is read back;
* `Json.integerNumeral`, `Json.number?_toString`: integers;
* `Json.floatNumeral`, `Json.number?_floatText`: finite floating point numbers.
-/

namespace QueryBatch

open Text

namespace JsonSyntax

/-- Nothing, or a text that starts with what may stand behind a value. -/
def Follows (rest : List Char) : Prop := ∀ c ∈ rest.head?, c = ',' ∨ c = ']' ∨ c = '}'

theorem Follows.not {rest : List Char} (h : Follows rest) {p : Char → Bool}
    (hp : p ',' = false ∧ p ']' = false ∧ p '}' = false) : ∀ c ∈ rest.head?, p c = false := by
  intro c hc
  rcases h c hc with rfl | rfl | rfl
  · exact hp.1
  · exact hp.2.1
  · exact hp.2.2

theorem follows_nil : Follows [] := by
  rintro _ ⟨⟩

theorem follows_cons {c : Char} (h : c = ',' ∨ c = ']' ∨ c = '}') (cs : List Char) :
    Follows (c :: cs) := by
  rintro _ ⟨⟩
  exact h

/-! ## Numerals -/

/-- The numeral with given parts. -/
def ofParts (negative : Bool) (n : NumeralParts) : Numeral where
  negative := negative
  whole := n.whole
  fraction := n.fraction
  exponent := n.exponent.map fun (sign, digits) =>
    (if sign = ['-'] then -1 else 1) * Nat.ofDigitChars 10 digits 0

/-- No zero stands before other digits. -/
def Leads (n : NumeralParts) : Prop := n.whole.head? = some '0' → n.whole.length = 1

section

variable {n : NumeralParts} {rest : List Char}

theorem digits_append {ds : List Char} (hds : ∀ c ∈ ds, c.isDigit = true)
    (hrest : ∀ c ∈ rest.head?, c.isDigit = false) : digits (ds ++ rest) = (ds, rest) := by
  rw [digits, takeWhile_append_of_head hds hrest, dropWhile_append_of_head hds hrest]

theorem fraction?_text (h : n.Proper) (hrest : Follows rest) :
    fraction? (n.fractionText ++ (n.exponentText ++ rest)) =
      some (n.fraction, n.exponentText ++ rest) := by
  have hpoint : ∀ c ∈ (n.exponentText ++ rest).head?, (c == '.') = false :=
    NumeralParts.head?_exponentText rfl (hrest.not ⟨rfl, rfl, rfl⟩)
  have hdigit : ∀ c ∈ (n.exponentText ++ rest).head?, c.isDigit = false :=
    NumeralParts.head?_exponentText rfl (hrest.not ⟨rfl, rfl, rfl⟩)
  unfold NumeralParts.fractionText
  split
  · rename_i hnil
    rw [List.nil_append, hnil]
    unfold fraction?
    split
    · rename_i hcons
      exact absurd (hpoint '.' (by rw [hcons]; rfl)) (by decide)
    · rfl
  · rename_i hne
    rw [List.cons_append, fraction?]
    simp only [digits_append h.fraction hdigit, List.isEmpty_iff, hne, if_false]

theorem exponent?_text (h : n.Proper) (hrest : Follows rest) :
    exponent? (n.exponentText ++ rest) = some ((ofParts false n).exponent, rest) := by
  have hdigit : ∀ c ∈ rest.head?, c.isDigit = false := hrest.not ⟨rfl, rfl, rfl⟩
  unfold NumeralParts.exponentText
  split
  · rename_i hnone
    rw [List.nil_append, ofParts, hnone]
    unfold exponent?
    split
    · rename_i c cs
      rcases hrest c rfl with rfl | rfl | rfl <;> rfl
    · rfl
  · rename_i sign ds hsome
    obtain ⟨hsign, hne, hds⟩ := h.exponent sign ds hsome
    have hread := digits_append hds hdigit
    rw [ofParts, hsome, List.cons_append]
    rcases hsign with rfl | rfl | rfl
    · obtain ⟨d, more, rfl⟩ := List.exists_cons_of_ne_nil hne
      have hfirst : ∀ c, c.isDigit = false → d ≠ c := by
        rintro c hc rfl
        rw [hds d List.mem_cons_self] at hc
        cases hc
      rw [List.cons_append] at hread
      simp [exponent?, hfirst '-' rfl, hfirst '+' rfl, hread]
    · simp [exponent?, hread, hne]
    · simp [exponent?, hread, hne]

theorem unsigned?_text (negative : Bool) (h : n.Proper) (hleads : Leads n)
    (hrest : Follows rest) :
    unsigned? negative (n.text ++ rest) = some (ofParts negative n, rest) := by
  have hafter : ∀ c ∈ (n.fractionText ++ (n.exponentText ++ rest)).head?, c.isDigit = false :=
    NumeralParts.head?_fractionText rfl rfl (hrest.not ⟨rfl, rfl, rfl⟩)
  have hwhole : (n.whole.isEmpty || (n.whole.head? = some '0' && n.whole.length ≠ 1)) = false := by
    by_cases hzero : n.whole.head? = some '0'
    · simp [h.whole_ne_nil, hleads hzero]
    · simp [h.whole_ne_nil, hzero]
  rw [NumeralParts.text, List.append_assoc, List.append_assoc, unsigned?,
    digits_append h.whole hafter]
  simp only [hwhole, Bool.false_eq_true, if_false, fraction?_text h hrest]
  show (exponent? (n.exponentText ++ rest) >>= fun r => pure (Numeral.mk _ _ _ r.1, r.2)) = _
  rw [exponent?_text h hrest]
  rfl

/-- The minus sign of a negative number. -/
def minus (negative : Bool) : List Char := if negative then ['-'] else []

/-- A number starts with a minus sign or a digit. -/
theorem exists_first_number (negative : Bool) (h : n.Proper) :
    ∃ c cs, minus negative ++ n.text = c :: cs ∧ (c = '-' ∨ c.isDigit = true) := by
  cases negative with
  | true => exact ⟨'-', n.text, rfl, .inl rfl⟩
  | false =>
    obtain ⟨c, cs, hwhole, hc⟩ := NumeralParts.exists_first h
    refine ⟨c, cs ++ (n.fractionText ++ n.exponentText), ?_, .inr hc⟩
    show n.text = _
    rw [NumeralParts.text, hwhole, List.cons_append]

theorem number?_text (negative : Bool) (h : n.Proper) (hleads : Leads n) (hrest : Follows rest) :
    number? (minus negative ++ n.text ++ rest) = some (ofParts negative n, rest) := by
  cases negative with
  | true => exact unsigned?_text true h hleads hrest
  | false =>
    rw [← unsigned?_text false h hleads hrest]
    show number? (n.text ++ rest) = _
    unfold number?
    split
    · rename_i hcons
      obtain ⟨c, cs, hwhole, hc⟩ := NumeralParts.exists_first h
      rw [NumeralParts.text, hwhole] at hcons
      obtain rfl : c = '-' := (List.cons.inj hcons).1
      cases hc
    · rfl

end

end JsonSyntax

/-! ## Integers -/

theorem eq_zero_of_head?_toDigits {n : Nat} (h : (Nat.toDigits 10 n).head? = some '0') : n = 0 := by
  induction n using Nat.strongRecOn with
  | ind n ih =>
    by_cases hlt : n < 10
    · have hdigit : ∀ k < 10, some (Nat.digitChar k) = some '0' → k = 0 := by decide
      rw [Nat.toDigits_of_lt_base hlt] at h
      exact hdigit n hlt h
    · have hle : 10 ≤ n := Nat.le_of_not_lt hlt
      rw [Nat.toDigits_of_base_le (by decide) hle,
        List.head?_append_of_ne_nil _ Nat.toDigits_ne_nil] at h
      have hzero := ih (n / 10) (by omega) h
      omega

namespace Json

open JsonSyntax

/-- The digits of a natural number as a numeral. -/
def natural (n : Nat) : NumeralParts := ⟨Nat.toDigits 10 n, [], none⟩

theorem proper_natural (n : Nat) : (natural n).Proper where
  whole_ne_nil := Nat.toDigits_ne_nil
  whole _ hc := Nat.isDigit_of_mem_toDigits (by decide) (by decide) hc
  fraction := nofun
  exponent := nofun

theorem leads_natural (n : Nat) : Leads (natural n) := by
  intro hzero
  rw [natural, eq_zero_of_head?_toDigits hzero]
  rfl

theorem text_natural (n : Nat) : (natural n).text = Nat.toDigits 10 n := by
  simp [NumeralParts.text, NumeralParts.fractionText, NumeralParts.exponentText, natural]

/-- The numeral of an integer. -/
def integerNumeral (n : Int) : Numeral := ofParts (n < 0) (natural n.natAbs)

theorem toList_toString_int (n : Int) :
    (toString n).toList = minus (n < 0) ++ (natural n.natAbs).text := by
  rw [text_natural]
  cases n with
  | ofNat n =>
    have hsign : decide (Int.ofNat n < 0) = false := by simp
    rw [toString_ofNat, String.toList_ofList, hsign]
    rfl
  | negSucc n =>
    have hsign : decide (Int.negSucc n < 0) = true := by simp
    rw [toString_negSucc, String.toList_ofList, hsign]
    rfl

theorem number?_toString (n : Int) {rest : List Char} (hrest : Follows rest) :
    number? ((toString n).toList ++ rest) = some (integerNumeral n, rest) := by
  rw [toList_toString_int]
  exact number?_text _ (proper_natural _) (leads_natural _) hrest

/-! ## Floating point numbers -/

open Binary64

/-- In normal form, zero has no exponent. -/
theorem exponent_trim (n : Nat) (e : Int) (h : (Decimal.trim n e).coefficient = 0) :
    (Decimal.trim n e).exponent = 0 := by
  fun_induction Decimal.trim n e with
  | case1 => rfl
  | case2 n e hne hmod ih => exact ih h
  | case3 n e hne hmod => exact absurd h hne

theorem exponent_shortest (tie : Tie) (m : Nat) (e : Int)
    (h : (shortest tie m e).coefficient = 0) : (shortest tie m e).exponent = 0 := by
  obtain ⟨n, k, htrim⟩ : ∃ n k, shortest tie m e = Decimal.trim n k := by
    unfold shortest
    simp only
    split <;> exact ⟨_, _, rfl⟩
  rw [htrim] at h ⊢
  exact exponent_trim n k h

theorem leads_pointed {d : Decimal} (h : d.coefficient = 0 → d.exponent = 0) :
    Leads (pointed d) := by
  have hlen := d.length_digits_pos
  intro hzero
  unfold pointed at hzero ⊢
  split
  · rfl
  · rename_i hleading
    rw [if_neg hleading] at hzero
    obtain ⟨c, ds, hdigits⟩ := List.exists_cons_of_length_pos hlen
    simp only [hdigits, List.take_succ_cons, List.cons_append, List.head?_cons] at hzero
    have hcoefficient : d.coefficient = 0 := by
      refine eq_zero_of_head?_toDigits ?_
      rw [← Decimal.digits, hdigits, List.head?_cons, hzero]
    obtain ⟨coefficient, exponent⟩ := d
    obtain rfl : coefficient = 0 := hcoefficient
    obtain rfl : exponent = 0 := h rfl
    rfl

theorem leads_numeral (l : Layout) {d : Decimal} (h : d.coefficient = 0 → d.exponent = 0) :
    Leads (l.numeral d) := by
  unfold Layout.numeral
  split
  · exact leads_pointed h
  · intro _
    have hlen := d.length_digits_pos
    simp only [Layout.exponential, List.length_take]
    omega

/-- The numeral of the finite number with the given parts. -/
def floatNumeral (negative : Bool) (m : Nat) (e : Int) : Numeral :=
  ofParts negative (jsonNumbers.numeral (shortest jsonNumbers.tie m e))

theorem toList_floatText {negative : Bool} {m : Nat} {e : Int} (h : Canonical m e) :
    (floatText (.finite negative m e h)).toList =
      minus negative ++ (jsonNumbers.numeral (shortest jsonNumbers.tie m e)).text := by
  have hfinite : (Binary64.finite negative m e h).isFinite = true := rfl
  rw [floatText, if_pos hfinite, Layout.text, String.toList_ofList, Layout.finiteText,
    Layout.text_numeral, minus]

theorem number?_floatText {negative : Bool} {m : Nat} {e : Int} (h : Canonical m e)
    {rest : List Char} (hrest : Follows rest) :
    number? ((floatText (.finite negative m e h)).toList ++ rest) =
      some (floatNumeral negative m e, rest) := by
  rw [toList_floatText]
  exact number?_text _ (Layout.proper_numeral _ _)
    (leads_numeral _ (exponent_shortest _ m e)) hrest

end Json

end QueryBatch
