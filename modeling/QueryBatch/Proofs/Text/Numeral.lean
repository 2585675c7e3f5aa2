import QueryBatch.Text.Decimal

/-!
# Numerals

A numeral without its minus sign is digits, then perhaps a point and further digits, then perhaps
an exponent. Main statements:

* `takeWhile_append_of_head`, `append_inj_of_head`: a run of characters ends where the next
  character does not belong to it, and so it is told from what follows;
* `toString_append_inj`, `append_toString_inj`: so is a numeral in front of a text that starts with
  no digit, and behind one that ends in none;
* `NumeralParts.decimal?_text`: the decimal as which a numeral is read;
* `integer?_toString`: an integer is read as it was written.
-/

namespace QueryBatch.Text

section Runs

variable {p : Char → Bool} {cs rest : List Char}

/-- A run ends where the first character that is not in it stands. -/
theorem takeWhile_append_of_head (hcs : ∀ c ∈ cs, p c = true)
    (hrest : ∀ c ∈ rest.head?, p c = false) : (cs ++ rest).takeWhile p = cs := by
  rw [List.takeWhile_append_of_pos hcs]
  cases rest with
  | nil => rw [List.takeWhile_nil, List.append_nil]
  | cons c rest =>
    rw [List.takeWhile_cons_of_neg (by rw [hrest c rfl]; exact Bool.false_ne_true),
      List.append_nil]

theorem dropWhile_append_of_head (hcs : ∀ c ∈ cs, p c = true)
    (hrest : ∀ c ∈ rest.head?, p c = false) : (cs ++ rest).dropWhile p = rest := by
  rw [List.dropWhile_append_of_pos hcs]
  cases rest with
  | nil => rfl
  | cons c rest =>
    exact List.dropWhile_cons_of_neg (by rw [hrest c rfl]; exact Bool.false_ne_true)

/-- A run of characters is told from what follows it. -/
theorem append_inj_of_head {ds xs ys : List Char}
    (hcs : ∀ c ∈ cs, p c = true) (hds : ∀ d ∈ ds, p d = true) (hxs : ∀ x ∈ xs.head?, p x = false)
    (hys : ∀ y ∈ ys.head?, p y = false) (h : cs ++ xs = ds ++ ys) : cs = ds ∧ xs = ys := by
  obtain rfl : cs = ds := by
    rw [← takeWhile_append_of_head hcs hxs, h, takeWhile_append_of_head hds hys]
  exact ⟨rfl, List.append_cancel_left h⟩

end Runs

theorem isDigit_of_mem_toString {n : Nat} : ∀ c ∈ (toString n).toList, c.isDigit = true := by
  intro c hc
  rw [Nat.toString_eq_ofList_toDigits, String.toList_ofList] at hc
  exact Nat.isDigit_of_mem_toDigits (by decide) (by decide) hc

/-- A numeral is told from a text behind it that starts with no digit. -/
theorem toString_append_inj {i j : Nat} {s t : String} (hs : ∀ c ∈ s.toList.head?, c.isDigit = false)
    (ht : ∀ c ∈ t.toList.head?, c.isDigit = false) (h : toString i ++ s = toString j ++ t) :
    i = j ∧ s = t := by
  have hlist := congrArg String.toList h
  rw [String.toList_append, String.toList_append] at hlist
  obtain ⟨hdigits, htext⟩ := append_inj_of_head isDigit_of_mem_toString isDigit_of_mem_toString
    hs ht hlist
  exact ⟨toString_injective (String.toList_injective hdigits),
    String.toList_injective htext⟩

/-- A numeral is told from a text in front of it that ends in no digit. -/
theorem append_toString_inj {i j : Nat} {s t : String}
    (hs : ∀ c ∈ s.toList.getLast?, c.isDigit = false)
    (ht : ∀ c ∈ t.toList.getLast?, c.isDigit = false) (h : s ++ toString i = t ++ toString j) :
    s = t ∧ i = j := by
  -- Read from its end, the text starts with the digits.
  have hreversed := congrArg (fun u : String => u.toList.reverse) h
  simp only [String.toList_append, List.reverse_append] at hreversed
  obtain ⟨hdigits, htext⟩ := append_inj_of_head
    (fun c hc => isDigit_of_mem_toString c (List.mem_reverse.1 hc))
    (fun c hc => isDigit_of_mem_toString c (List.mem_reverse.1 hc))
    (by rwa [List.head?_reverse]) (by rwa [List.head?_reverse]) hreversed
  exact ⟨String.toList_injective (List.reverse_inj.1 htext),
    toString_injective (String.toList_injective (List.reverse_inj.1 hdigits))⟩

/-- The parts of a numeral. The fraction is empty where there is no point, and an exponent is a
sign and digits. -/
structure NumeralParts where
  whole : List Char
  fraction : List Char
  exponent : Option (List Char × List Char)

namespace NumeralParts

def fractionText (n : NumeralParts) : List Char := if n.fraction = [] then [] else '.' :: n.fraction

def exponentText (n : NumeralParts) : List Char :=
  match n.exponent with
  | none => []
  | some (sign, digits) => 'e' :: (sign ++ digits)

def text (n : NumeralParts) : List Char := n.whole ++ (n.fractionText ++ n.exponentText)

/-- There are digits where digits are asked for, and nothing else. -/
structure Proper (n : NumeralParts) : Prop where
  whole_ne_nil : n.whole ≠ []
  whole : ∀ c ∈ n.whole, c.isDigit = true
  fraction : ∀ c ∈ n.fraction, c.isDigit = true
  exponent : ∀ sign digits, n.exponent = some (sign, digits) →
    (sign = [] ∨ sign = ['+'] ∨ sign = ['-']) ∧ digits ≠ [] ∧ ∀ c ∈ digits, c.isDigit = true

variable {n : NumeralParts}

theorem head?_exponentText {p : Char → Bool} {rest : List Char} (hexp : p 'e' = false)
    (hrest : ∀ c ∈ rest.head?, p c = false) :
    ∀ c ∈ (n.exponentText ++ rest).head?, p c = false := by
  unfold exponentText
  split
  · exact hrest
  · rintro c ⟨⟩
    exact hexp

theorem head?_fractionText {p : Char → Bool} {rest : List Char} (hpoint : p '.' = false)
    (hexp : p 'e' = false) (hrest : ∀ c ∈ rest.head?, p c = false) :
    ∀ c ∈ (n.fractionText ++ (n.exponentText ++ rest)).head?, p c = false := by
  unfold fractionText
  split
  · exact head?_exponentText hexp hrest
  · rintro c ⟨⟩
    exact hpoint

theorem exists_first (h : n.Proper) : ∃ c cs, n.whole = c :: cs ∧ c.isDigit = true := by
  obtain ⟨c, cs, hwhole⟩ := List.exists_cons_of_ne_nil h.whole_ne_nil
  exact ⟨c, cs, hwhole, h.whole c (hwhole ▸ List.mem_cons_self)⟩

/-- Digits are read as the number that they stand for. -/
theorem natural?_of_digits {digits : List Char} (hne : digits ≠ [])
    (h : ∀ c ∈ digits, c.isDigit = true) :
    natural? digits = some (Nat.ofDigitChars 10 digits 0) := by
  rw [natural?, if_neg]
  simpa [hne] using h

/-- A numeral is read as its digits, without the point, times a power of ten. -/
theorem decimal?_text (h : n.Proper) {e : Int} (he : exponentPart? n.exponentText = some e) :
    decimal? n.text =
      some ⟨Nat.ofDigitChars 10 (n.whole ++ n.fraction) 0, e - n.fraction.length⟩ := by
  have hnil : ∀ c ∈ ([] : List Char).head?, c.isDigit = false := by rintro c ⟨⟩
  have hafter : ∀ c ∈ (n.fractionText ++ (n.exponentText ++ [])).head?, c.isDigit = false :=
    head?_fractionText rfl rfl hnil
  have hexp : ∀ c ∈ (n.exponentText ++ []).head?, c.isDigit = false :=
    head?_exponentText rfl hnil
  rw [List.append_nil] at hafter hexp
  have hdigits : ∀ c ∈ n.whole ++ n.fraction, c.isDigit = true := fun c hc =>
    (List.mem_append.1 hc).elim (h.whole c) (h.fraction c)
  have hne : n.whole ++ n.fraction ≠ [] :=
    fun hnil => h.whole_ne_nil (List.append_eq_nil_iff.1 hnil).1
  have hnat := natural?_of_digits hne hdigits
  simp only [decimal?, text, takeWhile_append_of_head h.whole hafter,
    dropWhile_append_of_head h.whole hafter]
  by_cases hfrac : n.fraction = []
  · rw [hfrac, List.append_nil] at hnat
    cases hexponent : n.exponent with
    | none =>
      simp only [exponentText, hexponent] at he
      simp [fractionText, exponentText, hexponent, hfrac, hnat, he]
    | some e =>
      simp only [exponentText, hexponent] at he
      simp [fractionText, exponentText, hexponent, hfrac, hnat, he]
  · simp only [fractionText, if_neg hfrac, List.cons_append,
      takeWhile_append_of_head h.fraction hexp, dropWhile_append_of_head h.fraction hexp, hnat, he]

end NumeralParts

/-! ## Integers -/

theorem toString_ofNat (n : Nat) :
    toString (Int.ofNat n) = String.ofList (Nat.toDigits 10 n) := by
  rw [← Nat.repr_eq_ofList_toDigits]
  rfl

theorem toString_negSucc (n : Nat) :
    toString (Int.negSucc n) = String.ofList ('-' :: Nat.toDigits 10 (n + 1)) := by
  rw [← List.singleton_append, String.ofList_append, ← Nat.repr_eq_ofList_toDigits]
  rfl

/-- An integer is read back from its digits and its sign. -/
theorem integer?_toString (n : Int) : integer? (toString n).toList = some n := by
  cases n with
  | ofNat n =>
    rw [toString_ofNat, String.toList_ofList]
    exact integer?_toDigits n
  | negSucc n =>
    rw [toString_negSucc, String.toList_ofList, integer?, natural?_toDigits, Option.map_some]
    rfl

end QueryBatch.Text
