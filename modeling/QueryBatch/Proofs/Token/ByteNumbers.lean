import QueryBatch.Proofs.Token.ByteStrings

/-!
# Numbers byte by byte

The scanner of bytes takes a number apart step by step, where the scanner of characters measures
its parts first. Main statements:

* `scanNumber_eq`: a number that is measured, as its parts one after the other;
* `Reads.skip_digits`, `Reads.hasFraction_eq`, `Reads.scanExponent_eq`: each part byte by byte;
* `Reads.scanNumber_eq`: the same lexemes.
-/

namespace QueryBatch.Bytes

open Text

variable {source : String}

/-! ## Characters of ASCII -/

theorem isNarrow_of_isDigit {c : Char} (h : c.isDigit = true) : isNarrow c = true := by
  have hle : c.toNat ≤ 57 := by
    simp only [Char.isDigit, Bool.and_eq_true, decide_eq_true_eq] at h
    exact UInt32.le_iff_toNat_le.1 h.2
  exact decide_eq_true (by omega)

theorem isNarrow_of_isAlpha {c : Char} (h : c.isAlpha = true) : isNarrow c = true := by
  have hle : c.toNat ≤ 122 := by
    rcases Bool.or_eq_true_iff.1 h with h | h
    · have hupper : c.val ≥ 'A'.val ∧ c.val ≤ 'Z'.val := of_decide_eq_true h
      exact Nat.le_trans (UInt32.le_iff_toNat_le.1 hupper.2) (by decide)
    · have hlower : c.val ≤ 'z'.val := of_decide_eq_true (Bool.and_eq_true_iff.1 h).2
      exact UInt32.le_iff_toNat_le.1 hlower
  exact decide_eq_true (by omega)

theorem isNarrow_of_beq_or {c d e : Char} (hd : isNarrow d = true) (he : isNarrow e = true)
    (h : (c == d || c == e) = true) : isNarrow c = true := by
  rcases Bool.or_eq_true_iff.1 h with h | h
  · exact eq_of_beq h ▸ hd
  · exact eq_of_beq h ▸ he

/-- The characters of names have one byte. -/
theorem isNarrow_of_isNameChar {c : Char} (h : isNameChar c = true) : isNarrow c = true := by
  simp only [isNameChar, Char.isAlphanum, Bool.or_eq_true] at h
  rcases h with (h | h) | h
  · exact isNarrow_of_isAlpha h
  · exact isNarrow_of_isDigit h
  · rw [eq_of_beq h]
    rfl

theorem isNarrow_of_isNumberSpoiler {c : Char} (h : isNumberSpoiler c = true) :
    isNarrow c = true := by
  simp only [isNumberSpoiler, Bool.or_eq_true] at h
  rcases h with (h | h) | h
  · exact isNarrow_of_isAlpha h
  all_goals
    rw [eq_of_beq h]
    rfl

/-- Characters of ASCII are as many bytes, and each of them is its own byte. -/
theorem Reads.skip_narrow {n : Nat} {as cs : List Char} (has : ∀ a ∈ as, isNarrow a = true)
    (h : Reads source n (encode (as ++ cs))) : Reads source (n + as.length) (encode cs) := by
  rw [encode_append] at h
  have happend := h.append
  rwa [length_encode, utf8Length_of_narrow has] at happend

/-- Characters of one byte move the end of a lexeme on by their number. -/
theorem ofLexeme_after_narrow {as : List Char} (has : ∀ a ∈ as, isNarrow a = true) (n : Nat)
    (cs : List Char) (l : Lexeme) :
    ofLexeme n (as ++ cs) (l.after as.length) = ofLexeme (n + as.length) cs l := by
  rw [ofLexeme_after, utf8Length_of_narrow has]

/-! ## Digits -/

theorem isNarrow_of_mem_digits {cs : List Char} :
    ∀ c ∈ cs.takeWhile Char.isDigit, isNarrow c = true :=
  fun _ hc => isNarrow_of_isDigit (List.all_eq_true.1 List.all_takeWhile _ hc)

theorem digits_append_drop (cs : List Char) :
    cs.takeWhile Char.isDigit ++ cs.drop (digitRun cs) = cs := by
  have htake := List.prefix_iff_eq_take.1 (List.takeWhile_prefix (l := cs) Char.isDigit)
  have happend := List.take_append_drop (digitRun cs) cs
  rwa [digitRun, ← htake] at happend

theorem ofLexeme_after_digits (n : Nat) (cs : List Char) (l : Lexeme) :
    ofLexeme n cs (l.after (digitRun cs)) =
      ofLexeme (n + digitRun cs) (cs.drop (digitRun cs)) l := by
  have hnarrow : ∀ c ∈ cs.takeWhile Char.isDigit, isNarrow c = true := isNarrow_of_mem_digits
  have hafter := ofLexeme_after_narrow hnarrow n (cs.drop (digitRun cs)) l
  rwa [digits_append_drop] at hafter

/-- The scanner steps over as many bytes as there are digits. -/
theorem Reads.skip_digits (hfits : Fits source) {n : Nat} {cs : List Char}
    (h : Reads source n (encode cs)) :
    skipWhile source Char.isDigit (.ofNat n) = .ok (.ofNat (n + digitRun cs)) ∧
      Reads source (n + digitRun cs) (encode (cs.drop (digitRun cs))) := by
  constructor
  · rw [h.skipWhile_eq hfits, takeWhile_encode fun _ => isNarrow_of_isDigit]
    rfl
  · rw [← digits_append_drop cs] at h
    exact h.skip_narrow isNarrow_of_mem_digits

/-- A place has not moved exactly if no byte was stepped over. -/
theorem ofNat_add_eq_iff {n k : Nat} (h : n + k < UInt32.size) :
    UInt32.ofNat (n + k) = .ofNat n ↔ k = 0 := by
  constructor
  · intro heq
    have hplace := toNat_ofNat_add h
    rw [heq] at hplace
    omega
  · rintro rfl
    rfl

/-! ## The bytes behind a number -/

/-- A test that only characters of one byte pass gives the same for the byte and the character. -/
theorem Reads.any_peek (hfits : Fits source) {p : Char → Bool}
    (hp : ∀ c, p c = true → isNarrow c = true) {n : Nat} {cs : List Char}
    (h : Reads source n (encode cs)) : (peek source (.ofNat n)).any p = cs.head?.any p := by
  rw [h.peek_eq hfits, any_head?_encode hp]

/-- The next byte is a character of ASCII exactly if the next character is. -/
theorem Reads.peek_eq_some_iff (hfits : Fits source) {d : Char} (hd : isNarrow d = true) {n : Nat}
    {cs : List Char} (h : Reads source n (encode cs)) :
    peek source (.ofNat n) = some d ↔ cs.head? = some d := by
  have hsome : ∀ x : Option Char, x = some d ↔ x.any (· == d) = true := by
    intro x
    cases x <;> simp
  have hnarrow : ∀ c, (c == d) = true → isNarrow c = true := fun _ he => eq_of_beq he ▸ hd
  rw [hsome, hsome, h.any_peek hfits hnarrow]

/-- What the end of a number is: a number, unless a character follows that spoils it. -/
def unspoiled (kind : Kind) (cs : List Char) : Kind :=
  if cs.head?.any isNumberSpoiler then .error else kind

/-- What follows a number spoils it for both scanners, or for neither. -/
theorem Reads.endNumber_eq (hfits : Fits source) (kind : Kind) {n : Nat} {cs : List Char}
    (h : Reads source n (encode cs)) :
    endNumber source kind (.ofNat n) = ⟨unspoiled kind cs, .ofNat n⟩ := by
  rw [endNumber, h.any_peek hfits fun _ => isNarrow_of_isNumberSpoiler, unspoiled]
  split <;> rfl

/-! ## The parts of a number -/

/-- The digits of an exponent, and what follows them. -/
def exponentDigits (cs : List Char) : Lexeme :=
  Lexeme.after (digitRun cs)
    ⟨if digitRun cs = 0 then .error else unspoiled .float (cs.drop (digitRun cs)), 0⟩

/-- A number behind its fraction, where `kind` is what it is without an exponent. -/
def exponentEnd (kind : Kind) : List Char → Lexeme
  | [] => ⟨kind, 0⟩
  | c :: cs =>
    if c == 'e' || c == 'E' then
      if cs.head?.any fun d => d == '+' || d == '-' then (exponentDigits (cs.drop 1)).after 2
      else (exponentDigits cs).after 1
    else ⟨unspoiled kind (c :: cs), 0⟩

/-- A number behind its whole digits. -/
def fractionEnd (cs : List Char) : Lexeme :=
  (exponentEnd (if fractionRun cs = 0 then .int else .float) (cs.drop (fractionRun cs))).after
    (fractionRun cs)

/-- What scanning an exponent gives is told by its length and the number of its digits. -/
theorem exponentEnd_eq (kind : Kind) (cs : List Char) : exponentEnd kind cs =
    let exponent := exponentRun cs
    let extra := (exponent.map (·.1)).getD 0
    ⟨if exponent.any (·.2 == 0) then .error
      else unspoiled (if exponent.isNone then kind else .float) (cs.drop extra), extra⟩ := by
  cases cs with
  | nil => rfl
  | cons c cs =>
    rw [exponentEnd, exponentRun]
    cases c == 'e' || c == 'E' with
    | false => rfl
    | true =>
      have hsign : (cs.head?.any fun d => d == '+' || d == '-') =
          (cs.head? == some '+' || cs.head? == some '-') := by
        cases cs <;> rfl
      have hdigits : ∀ sign, (exponentDigits (cs.drop sign)).after (1 + sign) =
          ⟨if digitRun (cs.drop sign) = 0 then .error
            else unspoiled .float ((c :: cs).drop (1 + sign + digitRun (cs.drop sign))),
          1 + sign + digitRun (cs.drop sign)⟩ := by
        intro sign
        have hplace : 1 + sign + digitRun (cs.drop sign) = sign + digitRun (cs.drop sign) + 1 := by
          omega
        rw [exponentDigits, Lexeme.after, List.drop_drop, hplace, List.drop_succ_cons, ← hplace]
        rfl
      rw [hsign]
      cases cs.head? == some '+' || cs.head? == some '-' with
      | true => simpa using hdigits 1
      | false => simpa using hdigits 0

/-- The scanner of characters, with its digits and what follows them as two steps. -/
theorem scanNumber_eq (first : Char) (cs : List Char) : QueryBatch.scanNumber first cs =
    if first = '-' ∧ digitRun cs = 0 then ⟨.error, 0⟩
    else (fractionEnd (cs.drop (digitRun cs))).after (digitRun cs) := by
  rw [fractionEnd, exponentEnd_eq, QueryBatch.scanNumber]
  have hkind : ∀ (fraction : Nat) (plain : Bool) (extra : Nat),
      (if fraction = 0 ∧ plain = true then Lexeme.mk .int extra else ⟨.float, extra⟩) =
        ⟨if plain = true then (if fraction = 0 then .int else .float) else .float, extra⟩ := by
    intro fraction plain extra
    cases plain <;> by_cases h : fraction = 0 <;> simp [h]
  simp only [List.drop_drop, Lexeme.after, unspoiled, Bool.and_eq_true, beq_iff_eq, hkind,
    Nat.add_assoc]
  split
  · rfl
  · split
    · rfl
    · split <;> rfl

/-- The digits of an exponent, byte by byte. -/
theorem Reads.exponentDigits_eq (hfits : Fits source) {n : Nat} {cs : List Char}
    (h : Reads source n (encode cs)) :
    (skipWhile source Char.isDigit (.ofNat n) >>= fun stop =>
      if stop = .ofNat n then return ⟨.error, stop⟩ else return endNumber source .float stop) =
      Except.ok (ofLexeme n cs (exponentDigits cs)) := by
  obtain ⟨hdigits, hrest⟩ := h.skip_digits hfits
  have hlt : n + digitRun cs < UInt32.size := hrest.lt_size hfits (k := 0) (Nat.zero_le _)
  rw [hdigits, exponentDigits, ofLexeme_after_digits]
  show (if _ then _ else _) = _
  by_cases hzero : digitRun cs = 0
  · rw [if_pos ((ofNat_add_eq_iff hlt).2 hzero), if_pos hzero]
    rfl
  · rw [if_neg fun heq => hzero ((ofNat_add_eq_iff hlt).1 heq), hrest.endNumber_eq hfits,
      if_neg hzero]
    rfl

/-- Both scanners agree on the exponent, and on numbers without one. -/
theorem Reads.scanExponent_eq (hfits : Fits source) (kind : Kind) {n : Nat} {cs : List Char}
    (h : Reads source n (encode cs)) :
    scanExponent source kind (.ofNat n) = .ok (ofLexeme n cs (exponentEnd kind cs)) := by
  rw [scanExponent, h.any_peek hfits fun c => isNarrow_of_beq_or rfl rfl, h.endNumber_eq hfits]
  cases cs with
  | nil => rfl
  | cons c cs =>
    rw [exponentEnd, List.head?_cons, Option.any_some]
    cases hexponent : c == 'e' || c == 'E' with
    | false => rfl
    | true =>
      obtain ⟨hreads, hnext, hone⟩ := h.of_narrow (isNarrow_of_beq_or rfl rfl hexponent)
      rw [if_pos rfl, if_pos rfl, forward_bind (hreads.lt_size hfits (by simp))]
      show (if _ then _ else _) = _
      rw [hnext.any_peek hfits fun c => isNarrow_of_beq_or rfl rfl]
      cases hsign : cs.head?.any fun d => d == '+' || d == '-' with
      | false =>
        rw [if_neg Bool.false_ne_true, if_neg Bool.false_ne_true, ofLexeme_after_one, hone]
        exact hnext.exponentDigits_eq hfits
      | true =>
        obtain ⟨d, hhead, hd⟩ := (Option.any_eq_true ..).1 hsign
        obtain ⟨ds, rfl⟩ := List.head?_eq_some_iff.1 hhead
        obtain ⟨hsecond, hdigits, htwo⟩ := hnext.of_narrow (isNarrow_of_beq_or rfl rfl hd)
        rw [if_pos rfl, if_pos rfl, forward_bind (hsecond.lt_size hfits (by simp)),
          ← Lexeme.after_after 1 1, ofLexeme_after_one, ofLexeme_after_one, hone, htwo]
        exact hdigits.exponentDigits_eq hfits

theorem any_isDigit_head? (cs : List Char) : cs.head?.any Char.isDigit = (digitRun cs != 0) := by
  cases cs with
  | nil => rfl
  | cons c cs =>
    rw [digitRun, List.takeWhile_cons, List.head?_cons, Option.any_some]
    cases c.isDigit <;> rfl

/-- A point starts a fraction if a digit follows it. -/
theorem Reads.hasFraction_eq (hfits : Fits source) {n : Nat} {cs : List Char}
    (h : Reads source n (encode cs)) :
    hasFraction source (.ofNat n) = .ok (fractionRun cs != 0) := by
  rw [hasFraction]
  by_cases hpoint : cs.head? = some '.'
  · obtain ⟨more, rfl⟩ := List.head?_eq_some_iff.1 hpoint
    obtain ⟨hreads, -, -⟩ := h.of_narrow rfl
    have hdigit : (encode more)[0]?.any Char.isDigit = (digitRun more != 0) := by
      rw [← List.head?_eq_getElem?, any_head?_encode fun _ => isNarrow_of_isDigit,
        any_isDigit_head?]
    rw [if_pos ((h.peek_eq_some_iff hfits rfl).2 hpoint), hreads.peekAt_eq hfits (by simp),
      fractionRun]
    show Except.ok ((encode more)[0]?.any Char.isDigit) = _
    rw [hdigit]
    by_cases hzero : digitRun more = 0
    · rw [if_pos hzero, hzero]
    · rw [if_neg hzero, bne_iff_ne.2 hzero]
      rfl
  · have hother : ∀ c ∈ cs.head?, (c == '.') = false := fun c hc =>
      beq_false_of_ne fun heq => hpoint (heq ▸ hc)
    rw [if_neg fun heq => hpoint ((h.peek_eq_some_iff hfits rfl).1 heq), fractionRun_of_head hother]
    rfl

theorem exists_of_fractionRun_ne_zero {cs : List Char} (h : fractionRun cs ≠ 0) :
    ∃ more, cs = '.' :: more ∧ fractionRun cs = digitRun more + 1 := by
  unfold fractionRun at h
  split at h
  · rename_i more
    refine ⟨more, rfl, ?_⟩
    rw [fractionRun, if_neg fun hzero => h (if_pos hzero)]
  · cases h rfl

/-- Both scanners agree from the fraction on. -/
theorem Reads.fractionEnd_eq (hfits : Fits source) {n : Nat} {cs : List Char}
    (h : Reads source n (encode cs)) :
    (if (fractionRun cs != 0) = true then do
      let fraction ← forward (.ofNat n) 1
      let fraction ← skipWhile source Char.isDigit fraction
      scanExponent source .float fraction
    else scanExponent source .int (.ofNat n)) = .ok (ofLexeme n cs (fractionEnd cs)) := by
  rw [fractionEnd]
  by_cases hzero : fractionRun cs = 0
  · have hnone : (exponentEnd .int cs).after 0 = exponentEnd .int cs := by simp [Lexeme.after]
    rw [hzero]
    show _ = Except.ok (ofLexeme n cs ((exponentEnd .int cs).after 0))
    rw [hnone]
    exact h.scanExponent_eq hfits .int
  · obtain ⟨more, rfl, hrun⟩ := exists_of_fractionRun_ne_zero hzero
    obtain ⟨hreads, hmore, hone⟩ := h.of_narrow rfl
    obtain ⟨hdigits, hrest⟩ := hmore.skip_digits hfits
    rw [if_pos (bne_iff_ne.2 hzero), forward_bind (hreads.lt_size hfits (by simp)), if_neg hzero,
      hrun, List.drop_succ_cons, ← Lexeme.after_after, ofLexeme_after_one, hone,
      ofLexeme_after_digits]
    simp only [hdigits]
    exact hrest.scanExponent_eq hfits .float

/-- Both scanners agree on numbers without a sign. -/
theorem Reads.scanUnsigned_eq (hfits : Fits source) {n : Nat} {cs : List Char}
    (h : Reads source n (encode cs)) : scanUnsigned source (.ofNat n) = .ok (ofLexeme n cs
      (if digitRun cs = 0 then ⟨.error, 0⟩
      else (fractionEnd (cs.drop (digitRun cs))).after (digitRun cs))) := by
  obtain ⟨hdigits, hrest⟩ := h.skip_digits hfits
  have hlt : n + digitRun cs < UInt32.size := hrest.lt_size hfits (k := 0) (Nat.zero_le _)
  rw [scanUnsigned, hdigits]
  show (if _ then _ else _) = _
  by_cases hzero : digitRun cs = 0
  · rw [if_pos ((ofNat_add_eq_iff hlt).2 hzero), if_pos hzero, hzero]
    rfl
  · rw [if_neg fun heq => hzero ((ofNat_add_eq_iff hlt).1 heq), if_neg hzero, ofLexeme_after_digits,
      hrest.hasFraction_eq hfits]
    exact hrest.fractionEnd_eq hfits

/-- Both scanners give the same kind for a number, and the same place behind it. -/
theorem Reads.scanNumber_eq (hfits : Fits source) {n : Nat} {first : Char} {cs : List Char}
    (hfirst : first = '-' ∨ first.isDigit = true) (h : Reads source n (encode (first :: cs))) :
    scanNumber source first (.ofNat n) =
      .ok (ofLexeme n (first :: cs) ((QueryBatch.scanNumber first cs).after 1)) := by
  rw [QueryBatch.Bytes.scanNumber_eq, scanNumber]
  rcases hfirst with rfl | hdigit
  · obtain ⟨hreads, hnext, hone⟩ := h.of_narrow rfl
    rw [beq_self_eq_true, if_pos rfl, forward_bind (hreads.lt_size hfits (by simp)),
      ofLexeme_after_one, hone, hnext.scanUnsigned_eq hfits]
    simp only [true_and]
  · have hrun : digitRun (first :: cs) = digitRun cs + 1 := by
      rw [digitRun, List.takeWhile_cons, if_pos hdigit, List.length_cons, digitRun]
    have hminus : first ≠ '-' := by
      rintro rfl
      cases hdigit
    rw [beq_false_of_ne hminus, if_neg Bool.false_ne_true, h.scanUnsigned_eq hfits, hrun,
      if_neg (Nat.succ_ne_zero _), List.drop_succ_cons, if_neg fun hboth => hminus hboth.1,
      Lexeme.after_after]

end QueryBatch.Bytes
