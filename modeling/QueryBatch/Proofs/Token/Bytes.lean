import QueryBatch.Proofs.Text.Encoding
import QueryBatch.Proofs.Token.Places
import QueryBatch.Token.Bytes

/-!
# Looking at a source byte by byte

Where a source has certain bytes from a place on, the scanner of bytes does with them what the
scanner of characters does with the characters that they encode. Main statements:

* `Reads.peek_eq`, `Reads.follow_eq`: the bytes that are looked at are those of the source;
* `Reads.skipWhile_eq`: a run of bytes;
* `Reads.skipGap_eq`: text that stands for nothing is stepped over up to the same place.
-/

namespace QueryBatch.Bytes

open Text

variable {source : String}

/-! ## Reading bytes -/

/-- The places in a source, and up to three bytes behind it, have 32 bits. -/
def Fits (source : String) : Prop := utf8Length source.toList + 3 < UInt32.size

theorem Fits.lt_size (hfits : Fits source) : utf8Length source.toList < UInt32.size :=
  Nat.lt_of_le_of_lt (Nat.le_add_right _ 3) hfits

/-- A place of such a source is the number that its 32 bits stand for. -/
theorem Fits.toNat_ofNat (hfits : Fits source) {n : Nat} (hn : n ≤ utf8Length source.toList) :
    (UInt32.ofNat n).toNat = n :=
  UInt32.toNat_ofNat_of_lt' (Nat.lt_of_le_of_lt hn hfits.lt_size)

/-- From byte `n` on, a source has certain bytes. -/
def Reads (source : String) (n : Nat) (bytes : List Char) : Prop :=
  ∃ before, encode source.toList = before ++ bytes ∧ before.length = n

namespace Reads

variable {n k : Nat} {bytes more : List Char} {b : Char}

/-- What is before a place and behind it is the whole source. -/
theorem add_length (h : Reads source n bytes) : n + bytes.length = utf8Length source.toList := by
  obtain ⟨before, hsource, rfl⟩ := h
  rw [← length_encode, hsource, List.length_append]

/-- Bytes that are stepped over leave the others behind them. -/
theorem append (h : Reads source n (bytes ++ more)) : Reads source (n + bytes.length) more := by
  obtain ⟨before, hsource, rfl⟩ := h
  exact ⟨before ++ bytes, by rw [hsource, List.append_assoc], List.length_append⟩

theorem tail (h : Reads source n (b :: bytes)) : Reads source (n + 1) bytes := by
  have happend : Reads source n ([b] ++ bytes) := h
  exact happend.append

/-- Three bytes behind the end of a source there is still a place. -/
theorem lt_size (h : Reads source n bytes) (hfits : Fits source) (hk : k ≤ bytes.length + 3) :
    n + k < UInt32.size := by
  have hlen := h.add_length
  unfold Fits at hfits
  omega

/-- The bytes from a place on are those of the source, and behind them there is none. -/
theorem peek_add (h : Reads source n bytes) (hfits : Fits source) (hk : k ≤ bytes.length + 3) :
    peek source (.ofNat (n + k)) = bytes[k]? := by
  have hlt := h.lt_size hfits hk
  obtain ⟨before, hsource, rfl⟩ := h
  rw [peek, UInt32.toNat_ofNat_of_lt' hlt, getElem?_toByteArray, hsource,
    List.getElem?_append_right (Nat.le_add_right ..), Nat.add_sub_cancel_left]

theorem peek_eq (h : Reads source n bytes) (hfits : Fits source) :
    peek source (.ofNat n) = bytes.head? := by
  rw [List.head?_eq_getElem?]
  exact h.peek_add hfits (Nat.zero_le _)

theorem peekAt_eq (h : Reads source n bytes) (hfits : Fits source) (hk : k ≤ bytes.length + 3) :
    peekAt source (.ofNat n) k = .ok bytes[k]? := by
  rw [peekAt, forward_ofNat (h.lt_size hfits hk), ← h.peek_add hfits hk]
  rfl

/-- Looking for bytes decides whether the source goes on with them. -/
theorem follow_eq (h : Reads source n bytes) (hfits : Fits source) (pattern : List Char)
    (hk : k + pattern.length ≤ bytes.length + 4) :
    follow source (.ofNat n) k pattern = .ok (pattern.isPrefixOf (bytes.drop k)) := by
  induction pattern generalizing k with
  | nil => rw [follow, List.isPrefixOf_nil_left]
  | cons c cs ih =>
    rw [List.length_cons] at hk
    rw [follow, h.peekAt_eq hfits (by omega), ← List.head?_drop]
    have htail := List.tail_drop (l := bytes) (i := k)
    cases hdrop : bytes.drop k with
    | nil => rfl
    | cons b bs =>
      rw [hdrop, List.tail_cons] at htail
      rw [List.isPrefixOf_cons_cons, htail]
      show (if some b = some c then _ else _) = _
      by_cases hbc : b = c
      · rw [if_pos (congrArg some hbc), hbc, beq_self_eq_true, Bool.true_and]
        exact ih (by omega)
      · rw [if_neg (fun h => hbc (Option.some.inj h)), beq_false_of_ne (fun h => hbc h.symm),
          Bool.false_and]
        rfl

end Reads

/-- Steps over bytes, after which a scanner goes on. -/
theorem forward_bind {α : Type} {n k : Nat} (h : n + k < UInt32.size)
    (f : { next : UInt32 // next.toNat = (UInt32.ofNat n).toNat + k } → Except Fault α) :
    forward (.ofNat n) k >>= f = f ⟨.ofNat (n + k), toNat_ofNat_add h⟩ := by
  rw [forward_ofNat h]
  rfl

/-! ## Runs of bytes -/

theorem skipWhile_of_peek {p : Char → Bool} {place : UInt32} {c : Char}
    (h : peek source place = some c) : skipWhile source p place =
      if p c then forward place 1 >>= fun next => skipWhile source p next else .ok place := by
  rw [skipWhile]
  split
  · rename_i hnone
    rw [h] at hnone
    cases hnone
  · rename_i d hsome
    obtain rfl : c = d := Option.some.inj (h.symm.trans hsome)
    rfl

theorem skipWhile_of_end {p : Char → Bool} {place : UInt32} (h : peek source place = none) :
    skipWhile source p place = .ok place := by
  rw [skipWhile]
  split
  · rfl
  · rename_i hsome
    rw [h] at hsome
    cases hsome

/-- A run of bytes is stepped over up to its end. -/
theorem Reads.skipWhile_eq (hfits : Fits source) (p : Char → Bool) {n : Nat} {bytes : List Char}
    (h : Reads source n bytes) :
    skipWhile source p (.ofNat n) = .ok (.ofNat (n + (bytes.takeWhile p).length)) := by
  induction bytes generalizing n with
  | nil => exact skipWhile_of_end (h.peek_eq hfits)
  | cons b bs ih =>
    rw [skipWhile_of_peek (h.peek_eq hfits), List.takeWhile_cons]
    cases hb : p b with
    | false => rfl
    | true =>
      have hlt := h.lt_size hfits (k := 1) (by omega)
      have hstop : n + 1 + (bs.takeWhile p).length = n + ((bs.takeWhile p).length + 1) := by omega
      rw [if_pos rfl, forward_bind hlt, ih h.tail, if_pos rfl, List.length_cons, hstop]

/-! ## Text that stands for nothing -/

theorem isNarrow_of_isLineEnd {c : Char} (h : isLineEnd c = true) : isNarrow c = true := by
  rcases Bool.or_eq_true_iff.1 h with h | h <;> rw [eq_of_beq h] <;> rfl

theorem isNarrow_of_isSeparator {c : Char} (h : isSeparator c = true) : isNarrow c = true := by
  simp only [isSeparator, Bool.or_eq_true] at h
  rcases h with (((h | h) | h) | h) | h <;> rw [eq_of_beq h] <;> rfl

/-- A byte order mark is the only character of more than one byte that stands for nothing. -/
theorem isIgnored_eq (c : Char) : isIgnored c = (isSeparator c || c == '\uFEFF') := by
  simp only [isIgnored, isSeparator, isLineEnd, Bool.or_assoc, Bool.or_comm, Bool.or_left_comm]

theorem isSeparator_of_isLineEnd {c : Char} (h : isLineEnd c = true) : isSeparator c = true := by
  rcases Bool.or_eq_true_iff.1 h with h | h <;> rw [eq_of_beq h] <;> rfl

theorem skipGap_of_peek {inComment : Bool} {place : UInt32} {c : Char}
    (h : peek source place = some c) : skipGap source inComment place =
      if inComment && !isLineEnd c then forward place 1 >>= fun next => skipGap source true next
      else if isSeparator c then forward place 1 >>= fun next => skipGap source false next
      else if c == '#' then forward place 1 >>= fun next => skipGap source true next
      else if c == '\xEF' then do
        if ← follow source place 1 ['\xBB', '\xBF'] then
          forward place 3 >>= fun next => skipGap source false next
        else return place
      else .ok place := by
  rw [skipGap]
  split
  · rename_i hnone
    rw [h] at hnone
    cases hnone
  · rename_i d hsome
    obtain rfl : c = d := Option.some.inj (h.symm.trans hsome)
    rfl

theorem skipGap_of_end {inComment : Bool} {place : UInt32} (h : peek source place = none) :
    skipGap source inComment place = .ok place := by
  rw [skipGap]
  split
  · rfl
  · rename_i hsome
    rw [h] at hsome
    cases hsome

/-- A comment goes on through the bytes of a character that is none of ASCII. -/
theorem skipGap_wide (hfits : Fits source) {n : Nat} {bytes more : List Char}
    (hwide : ∀ b ∈ bytes, isNarrow b = false) (h : Reads source n (bytes ++ more)) :
    skipGap source true (.ofNat n) = skipGap source true (.ofNat (n + bytes.length)) := by
  induction bytes generalizing n with
  | nil => rfl
  | cons b bs ih =>
    obtain ⟨hb, hbs⟩ := List.forall_mem_cons.1 hwide
    have hend : isLineEnd b = false := Bool.eq_false_iff.2 fun hend =>
      Bool.eq_false_iff.1 hb (isNarrow_of_isLineEnd hend)
    have hstop : n + 1 + bs.length = n + (bs.length + 1) := by omega
    rw [skipGap_of_peek (h.peek_eq hfits), hend, Bool.not_false, Bool.and_self, if_pos rfl,
      forward_bind (h.lt_size hfits (by simp)), ih hbs h.tail, List.length_cons, hstop]

/-- A character of ASCII is stepped over with its only byte. -/
theorem Reads.of_narrow {n : Nat} {c : Char} {cs : List Char} (hc : isNarrow c = true)
    (h : Reads source n (encode (c :: cs))) :
    Reads source n (c :: encode cs) ∧ Reads source (n + 1) (encode cs) ∧ c.utf8Size = 1 := by
  have hsize := utf8Length_of_narrow (List.forall_mem_singleton.2 hc)
  rw [encode_cons_of_narrow hc] at h
  exact ⟨h, h.tail, hsize⟩

/-- A byte of a longer character passes no test for characters of ASCII. -/
theorem not_of_isNarrow {p : Char → Bool} (hp : ∀ c, p c = true → isNarrow c = true) {c : Char}
    (hc : isNarrow c = false) : p c = false := by
  rw [Bool.eq_false_iff]
  intro hpc
  rw [hp c hpc] at hc
  cases hc

theorem beq_of_isNarrow {c d : Char} (hd : isNarrow d = true) (hc : isNarrow c = false) :
    (c == d) = false :=
  not_of_isNarrow (p := (· == d)) (fun _ he => eq_of_beq he ▸ hd) hc

/-- Stepping over one character of ASCII, if the rest is stepped over by both scanners. -/
theorem Reads.skipGap_narrow (hfits : Fits source) {inComment : Bool} {n : Nat} {c : Char}
    {cs : List Char} (hc : isNarrow c = true) (h : Reads source n (encode (c :: cs)))
    (ih : ∀ b, skipGap source b (.ofNat (n + 1)) =
      .ok (.ofNat (n + 1 + utf8Length (cs.take (gap b cs))))) :
    skipGap source inComment (.ofNat n) =
      .ok (.ofNat (n + utf8Length ((c :: cs).take (gap inComment (c :: cs))))) := by
  obtain ⟨hreads, -, hsize⟩ := h.of_narrow hc
  have hstep : ∀ b, (forward (.ofNat n) 1 >>= fun next => skipGap source b next) =
      .ok (.ofNat (n + utf8Length ((c :: cs).take (gap b cs + 1)))) := by
    intro b
    rw [forward_bind (hreads.lt_size hfits (by simp)), ih, List.take_succ_cons, utf8Length_cons,
      hsize, Nat.add_assoc]
  rw [skipGap_of_peek (hreads.peek_eq hfits), gap]
  cases hend : isLineEnd c with
  | true =>
    rw [isSeparator_of_isLineEnd hend, Bool.not_true, Bool.and_false, if_neg Bool.false_ne_true,
      if_pos rfl, if_pos rfl, hstep]
  | false =>
    cases inComment with
    | true => exact hstep true
    | false =>
      have hother : ∀ d, isNarrow d = false → (c == d) = false := fun d hd => by
        rw [BEq.comm]
        exact beq_of_isNarrow hc hd
      rw [isIgnored_eq, hother '\uFEFF' rfl, hother '\xEF' rfl]
      cases hsep : isSeparator c with
      | true =>
        have hmark : (c == '#') = false := beq_of_test hsep rfl
        rw [hmark]
        exact hstep false
      | false =>
        cases hmark : c == '#' with
        | true => exact hstep true
        | false => rfl

/-- Of the characters that are none of ASCII, only the byte order mark is stepped over outside of
comments. The comparison with it is the test of the first byte and of two more. -/
theorem Reads.skipGap_mark (hfits : Fits source) {n : Nat} {c : Char} {cs : List Char}
    (hc : isNarrow c = false) (h : Reads source n (encode (c :: cs))) :
    skipGap source false (.ofNat n) =
      if c == '\uFEFF' then skipGap source false (.ofNat (n + 3)) else .ok (.ofNat n) := by
  obtain ⟨b, bs, hbytes⟩ := exists_encodeChar c
  have hb : isNarrow b = false := le_of_mem_encodeChar hc (hbytes ▸ List.mem_cons_self)
  have hsep : isSeparator b = false := not_of_isNarrow (fun _ => isNarrow_of_isSeparator) hb
  have hmatch := isPrefixOf_mark c cs
  rw [encode_cons, hbytes, List.cons_append, List.isPrefixOf_cons_cons, BEq.comm] at hmatch
  rw [encode_cons, hbytes] at h
  have hfollow := h.follow_eq hfits (k := 1) ['\xBB', '\xBF'] (by simp)
  rw [skipGap_of_peek (h.peek_eq hfits), Bool.false_and, if_neg Bool.false_ne_true, hsep,
    if_neg Bool.false_ne_true, beq_of_isNarrow rfl hb, if_neg Bool.false_ne_true, hfollow]
  cases hfirst : b == '\xEF' with
  | false =>
    rw [hfirst, Bool.false_and] at hmatch
    rw [← hmatch]
    rfl
  | true =>
    rw [hfirst, Bool.true_and] at hmatch
    show (if List.isPrefixOf ['\xBB', '\xBF'] (bs ++ encode cs) then _ else _) = _
    rw [hmatch]
    cases c == '\uFEFF' with
    | false => rfl
    | true => exact forward_bind (h.lt_size hfits (by omega)) _

/-- Both scanners step over the same text, by induction on the characters of the source. -/
theorem Reads.skipGap_eq (hfits : Fits source) (inComment : Bool) {n : Nat} {cs : List Char}
    (h : Reads source n (encode cs)) : skipGap source inComment (.ofNat n) =
      .ok (.ofNat (n + utf8Length (cs.take (gap inComment cs)))) := by
  induction cs generalizing n inComment with
  | nil => exact skipGap_of_end (h.peek_eq hfits)
  | cons c cs ih =>
    cases hc : isNarrow c with
    | true => exact h.skipGap_narrow hfits hc fun b => ih b (h.of_narrow hc).2.1
    | false =>
      have hend : isLineEnd c = false := not_of_isNarrow (fun _ => isNarrow_of_isLineEnd) hc
      have hmark : (c == '#') = false := beq_of_isNarrow rfl hc
      have hafter : Reads source (n + c.utf8Size) (encode cs) := by
        rw [encode_cons] at h
        have happend := h.append
        rwa [length_encodeChar] at happend
      rw [gap, hend, if_neg Bool.false_ne_true, hmark, Bool.or_false]
      cases inComment with
      | true =>
        rw [encode_cons] at h
        rw [skipGap_wide hfits (fun b hb => le_of_mem_encodeChar hc hb) h, length_encodeChar,
          ih true hafter, if_pos rfl, List.take_succ_cons, utf8Length_cons, Nat.add_assoc]
      | false =>
        have hsep : isSeparator c = false := not_of_isNarrow (fun _ => isNarrow_of_isSeparator) hc
        rw [if_neg Bool.false_ne_true, isIgnored_eq, hsep, Bool.false_or, h.skipGap_mark hfits hc]
        cases hbom : c == '\uFEFF' with
        | false => rfl
        | true =>
          obtain rfl := eq_of_beq hbom
          have hthree : '\uFEFF'.utf8Size = 3 := by decide
          rw [hthree] at hafter
          rw [if_pos rfl, if_pos rfl, ih false hafter, List.take_succ_cons, utf8Length_cons, hthree,
            Nat.add_assoc]

end QueryBatch.Bytes
