import QueryBatch.Proofs.Token.Bytes
import QueryBatch.Proofs.Token.Literal

/-!
# Strings byte by byte

A string and a block string end at the same place for the scanner of bytes as for the scanner of
characters: the bytes of a character that is none of ASCII mean nothing in a string. Main
statements:

* `ofLexeme_after`: characters in front of a lexeme are bytes in front of it;
* `Reads.scanString_escaped`: a backslash only takes one byte with it, which is as good as a
  character;
* `Reads.scanString_eq`, `Reads.scanBlockString_eq`, `Reads.scanQuoted_eq`: the same lexemes.
-/

namespace QueryBatch.Bytes

open Text

variable {source : String}

/-- What a lexeme is in bytes, where its characters after some start at byte `n`. -/
def ofLexeme (n : Nat) (cs : List Char) (l : Lexeme) : Scanned :=
  ⟨l.kind, .ofNat (n + utf8Length (cs.take l.extra))⟩

theorem ofLexeme_after (n : Nat) (as cs : List Char) (l : Lexeme) :
    ofLexeme n (as ++ cs) (l.after as.length) = ofLexeme (n + utf8Length as) cs l := by
  simp only [ofLexeme, Lexeme.after, List.take_length_add_append, utf8Length_append, Nat.add_assoc]

theorem ofLexeme_after_one (n : Nat) (c : Char) (cs : List Char) (l : Lexeme) :
    ofLexeme n (c :: cs) (l.after 1) = ofLexeme (n + c.utf8Size) cs l :=
  ofLexeme_after n [c] cs l

/-- The bytes of a text, after those of its first character. -/
theorem Reads.encode_tail {n : Nat} {c : Char} {cs : List Char}
    (h : Reads source n (encode (c :: cs))) : Reads source (n + c.utf8Size) (encode cs) := by
  rw [encode_cons] at h
  have happend := h.append
  rwa [length_encodeChar] at happend

theorem isPlain_of_isNarrow_eq_false {c : Char} (h : isNarrow c = false) : isPlain c = true := by
  have hend : isLineEnd c = false := not_of_isNarrow (fun _ => isNarrow_of_isLineEnd) h
  rw [isPlain, bne, bne, beq_of_isNarrow rfl h, beq_of_isNarrow rfl h, hend]
  rfl

/-- No byte of a plain character is a quote, a backslash or a line end. -/
theorem isPlain_of_mem_encodeChar {c b : Char} (hc : isPlain c = true) (hb : b ∈ encodeChar c) :
    isPlain b = true := by
  cases hnarrow : isNarrow c with
  | true =>
    rw [encodeChar_of_narrow hnarrow, List.mem_singleton] at hb
    exact hb ▸ hc
  | false => exact isPlain_of_isNarrow_eq_false (le_of_mem_encodeChar hnarrow hb)

/-! ## Strings -/

theorem scanString_of_peek {place : UInt32} {c : Char} (h : peek source place = some c) :
    scanString source place =
      if isLineEnd c then .ok ⟨.error, place⟩
      else if c == '"' then forward place 1 >>= fun next => pure ⟨.string, next⟩
      else if c == '\\' then forward place 1 >>= fun next =>
        if (peek source next).isSome then forward next 1 >>= fun after => scanString source after
        else scanString source next
      else forward place 1 >>= fun next => scanString source next := by
  rw [scanString]
  split
  · rename_i hnone
    rw [h] at hnone
    cases hnone
  · rename_i d hsome
    obtain rfl : c = d := Option.some.inj (h.symm.trans hsome)
    rfl

theorem scanString_of_end {place : UInt32} (h : peek source place = none) :
    scanString source place = .ok ⟨.error, place⟩ := by
  rw [scanString]
  split
  · rfl
  · rename_i hsome
    rw [h] at hsome
    cases hsome

/-- Bytes that are neither a quote nor a backslash nor a line end are stepped over. -/
theorem Reads.scanString_plain (hfits : Fits source) {n : Nat} {bytes more : List Char}
    (hplain : ∀ b ∈ bytes, isPlain b = true) (h : Reads source n (bytes ++ more)) :
    scanString source (.ofNat n) = scanString source (.ofNat (n + bytes.length)) := by
  induction bytes generalizing n with
  | nil => rfl
  | cons b bs ih =>
    obtain ⟨hb, hbs⟩ := List.forall_mem_cons.1 hplain
    simp only [isPlain, Bool.and_eq_true, bne_iff_ne, Bool.not_eq_true'] at hb
    have hstop : n + 1 + bs.length = n + (bs.length + 1) := by omega
    rw [scanString_of_peek (h.peek_eq hfits), hb.2, if_neg Bool.false_ne_true,
      if_neg (by simpa using hb.1.2), if_neg (by simpa using hb.1.1),
      forward_bind (h.lt_size hfits (by simp)), ih hbs h.tail, List.length_cons, hstop]

/-- A backslash takes the first byte of a character with it; the other bytes of the character are
none that mean anything in a string. -/
theorem Reads.scanString_escaped (hfits : Fits source) {n : Nat} {d : Char} {cs : List Char}
    (h : Reads source n (encode ('\\' :: d :: cs))) : scanString source (.ofNat n) =
      scanString source (.ofNat (n + '\\'.utf8Size + d.utf8Size)) := by
  obtain ⟨hreads, hnext, hone⟩ := h.of_narrow rfl
  obtain ⟨b, bs, hbytes⟩ := exists_encodeChar d
  have hplain : ∀ e ∈ bs, isPlain e = true := by
    intro e he
    cases hd : isNarrow d with
    | true =>
      obtain ⟨-, rfl⟩ := List.cons.inj (hbytes.symm.trans (encodeChar_of_narrow hd))
      cases he
    | false =>
      exact isPlain_of_isNarrow_eq_false
        (le_of_mem_encodeChar hd (hbytes ▸ List.mem_cons_of_mem _ he))
  have hsize : d.utf8Size = 1 + bs.length := by
    rw [← length_encodeChar, hbytes, List.length_cons, Nat.add_comm]
  rw [encode_cons, hbytes, List.cons_append] at hnext
  have hpeek : (peek source (.ofNat (n + 1))).isSome = true := by
    rw [hnext.peek_eq hfits]
    rfl
  rw [scanString_of_peek (hreads.peek_eq hfits), if_neg (by decide), if_neg (by decide),
    if_pos (by decide), forward_bind (hreads.lt_size hfits (by simp))]
  simp only [hpeek, if_true]
  rw [forward_bind (hnext.lt_size hfits (by simp)), hnext.tail.scanString_plain hfits hplain, hone,
    hsize, Nat.add_assoc (n + 1)]

/-- Both scanners find the same end of a string, by induction on its characters. -/
theorem Reads.scanString_eq (hfits : Fits source) {n : Nat} {cs : List Char}
    (h : Reads source n (encode cs)) :
    scanString source (.ofNat n) = .ok (ofLexeme n cs (QueryBatch.scanString cs)) := by
  fun_induction QueryBatch.scanString cs generalizing n with
  | case1 => exact scanString_of_end (h.peek_eq hfits)
  | case2 =>
    obtain ⟨hreads, hnext, -⟩ := h.of_narrow rfl
    have hpeek : peek source (.ofNat (n + 1)) = none := hnext.peek_eq hfits
    rw [scanString_of_peek (hreads.peek_eq hfits), if_neg (by decide), if_neg (by decide),
      if_pos (by decide), forward_bind (hreads.lt_size hfits (by simp))]
    simp only [hpeek, Option.isSome_none, Bool.false_eq_true, if_false, scanString_of_end hpeek]
    rfl
  | case3 d cs ih =>
    rw [h.scanString_escaped hfits, ih h.encode_tail.encode_tail]
    have hlength : utf8Length ['\\', d] = '\\'.utf8Size + d.utf8Size := rfl
    rw [Nat.add_assoc, ← hlength, ← ofLexeme_after]
    rfl
  | case4 c cs hback hlast hquote =>
    obtain rfl := eq_of_beq hquote
    obtain ⟨hreads, -, -⟩ := h.of_narrow rfl
    rw [scanString_of_peek (hreads.peek_eq hfits), if_neg (by decide), if_pos (by decide),
      forward_bind (hreads.lt_size hfits (by simp))]
    rfl
  | case5 c cs hback hlast hquote hend =>
    obtain ⟨hreads, -, -⟩ := h.of_narrow (isNarrow_of_isLineEnd hend)
    rw [scanString_of_peek (hreads.peek_eq hfits), if_pos hend]
    rfl
  | case6 c cs hback hlast hquote hend ih =>
    have hslash : c ≠ '\\' := by
      rintro rfl
      cases cs with
      | nil => exact hback rfl rfl
      | cons d cs => exact hlast d cs rfl rfl
    have hplain : isPlain c = true := by
      simp only [isPlain, Bool.and_eq_true, bne_iff_ne, Bool.not_eq_true']
      exact ⟨⟨hslash, by simpa using hquote⟩, by simpa using hend⟩
    have hbytes := h
    rw [encode_cons] at hbytes
    rw [hbytes.scanString_plain hfits fun _ => isPlain_of_mem_encodeChar hplain, length_encodeChar,
      ih h.encode_tail, ofLexeme_after_one]

/-! ## Block strings -/

theorem scanBlockString_of_end {place : UInt32} (h : peek source place = none) :
    scanBlockString source place = .ok ⟨.error, place⟩ := by
  rw [scanBlockString]
  split
  · rfl
  · rename_i hsome
    rw [h] at hsome
    cases hsome

theorem Reads.scanBlockString_cons (hfits : Fits source) {n : Nat} {b : Char} {bytes : List Char}
    (h : Reads source n (b :: bytes)) : scanBlockString source (.ofNat n) =
      if b == '"' && List.isPrefixOf ['"', '"'] bytes then .ok ⟨.blockString, .ofNat (n + 3)⟩
      else if b == '\\' && List.isPrefixOf ['"', '"', '"'] bytes then
        scanBlockString source (.ofNat (n + 4))
      else scanBlockString source (.ofNat (n + 1)) := by
  have hclosed := h.follow_eq hfits (k := 1) ['"', '"'] (by simp)
  have hescaped := h.follow_eq hfits (k := 1) ['"', '"', '"'] (by simp)
  rw [scanBlockString]
  split
  · rename_i hnone
    rw [h.peek_eq hfits] at hnone
    cases hnone
  · rename_i c hsome
    obtain rfl : b = c := Option.some.inj ((h.peek_eq hfits).symm.trans hsome)
    have hstep : (forward (.ofNat n) 1 >>= fun next => scanBlockString source next) =
        scanBlockString source (.ofNat (n + 1)) := forward_bind (h.lt_size hfits (by simp)) _
    simp only [hclosed, hescaped, List.drop_succ_cons, List.drop_zero]
    by_cases hquote : b = '"'
    · subst hquote
      cases List.isPrefixOf ['"', '"'] bytes with
      | true =>
        show (forward (.ofNat n) 3 >>= fun next => pure (Scanned.mk .blockString next)) = _
        rw [forward_bind (h.lt_size hfits (by simp))]
        rfl
      | false => exact hstep
    · rw [beq_false_of_ne hquote]
      cases b == '\\' with
      | true =>
        cases List.isPrefixOf ['"', '"', '"'] bytes with
        | true =>
          show (forward (.ofNat n) 4 >>= fun next => scanBlockString source next) = _
          rw [forward_bind (h.lt_size hfits (by simp))]
          rfl
        | false => exact hstep
      | false => exact hstep

/-- The bytes of a character that is none of ASCII are stepped over. -/
theorem Reads.scanBlockString_wide (hfits : Fits source) {n : Nat} {bytes more : List Char}
    (hwide : ∀ b ∈ bytes, isNarrow b = false) (h : Reads source n (bytes ++ more)) :
    scanBlockString source (.ofNat n) = scanBlockString source (.ofNat (n + bytes.length)) := by
  induction bytes generalizing n with
  | nil => rfl
  | cons b bs ih =>
    obtain ⟨hb, hbs⟩ := List.forall_mem_cons.1 hwide
    have hstop : n + 1 + bs.length = n + (bs.length + 1) := by omega
    rw [h.scanBlockString_cons hfits, beq_of_isNarrow rfl hb, beq_of_isNarrow rfl hb,
      Bool.false_and, Bool.false_and, if_neg Bool.false_ne_true, if_neg Bool.false_ne_true,
      ih hbs h.tail, List.length_cons, hstop]

/-- Both scanners find the same end of a block string. -/
theorem Reads.scanBlockString_eq (hfits : Fits source) {n : Nat} {cs : List Char}
    (h : Reads source n (encode cs)) :
    scanBlockString source (.ofNat n) = .ok (ofLexeme n cs (QueryBatch.scanBlockString cs)) := by
  fun_induction QueryBatch.scanBlockString cs generalizing n with
  | case1 => exact scanBlockString_of_end (h.peek_eq hfits)
  | case2 cs =>
    obtain ⟨hreads, -, -⟩ := h.of_narrow rfl
    have hmark : List.isPrefixOf ['"', '"'] (encode ('"' :: '"' :: cs)) = true := by
      rw [isPrefixOf_encode rfl]
      simp
    rw [hreads.scanBlockString_cons hfits, hmark]
    rfl
  | case3 cs ih =>
    obtain ⟨hreads, hnext, -⟩ := h.of_narrow rfl
    have hmark : List.isPrefixOf ['"', '"', '"'] (encode ('"' :: '"' :: '"' :: cs)) = true := by
      rw [isPrefixOf_encode rfl]
      simp
    have hrest : Reads source (n + 4) (encode cs) := hnext.encode_tail.encode_tail.encode_tail
    have hother : ('\\' == '"') = false := rfl
    rw [hreads.scanBlockString_cons hfits, hmark, hother, Bool.false_and,
      if_neg Bool.false_ne_true, beq_self_eq_true, Bool.and_self, if_pos rfl, ih hrest]
    exact congrArg _ (ofLexeme_after n ['\\', '"', '"', '"'] cs _).symm
  | case4 c cs hclosing hescape ih =>
    have hbytes := h
    rw [ofLexeme_after_one, ← ih h.encode_tail]
    cases hc : isNarrow c with
    | true =>
      obtain ⟨hreads, -, hsize⟩ := h.of_narrow hc
      have hquotes : (c == '"' && List.isPrefixOf ['"', '"'] (encode cs)) = false := by
        rw [isPrefixOf_encode rfl, Bool.and_eq_false_imp]
        intro hquote
        refine Bool.eq_false_iff.2 fun hmark => ?_
        obtain ⟨more, rfl⟩ := List.isPrefixOf_iff_prefix.1 hmark
        exact hclosing more (eq_of_beq hquote) rfl
      have hback : (c == '\\' && List.isPrefixOf ['"', '"', '"'] (encode cs)) = false := by
        rw [isPrefixOf_encode rfl, Bool.and_eq_false_imp]
        intro hslash
        refine Bool.eq_false_iff.2 fun hmark => ?_
        obtain ⟨more, rfl⟩ := List.isPrefixOf_iff_prefix.1 hmark
        exact hescape more (eq_of_beq hslash) rfl
      rw [hreads.scanBlockString_cons hfits, hquotes, hback, hsize]
      rfl
    | false =>
      rw [encode_cons] at hbytes
      rw [hbytes.scanBlockString_wide hfits fun _ => le_of_mem_encodeChar hc, length_encodeChar]

theorem Reads.scanQuoted_eq (hfits : Fits source) {n : Nat} {cs : List Char}
    (h : Reads source n (encode ('"' :: cs))) : scanQuoted source (.ofNat n) =
      .ok (ofLexeme n ('"' :: cs) ((QueryBatch.scanQuoted cs).after 1)) := by
  obtain ⟨hreads, hinner, hone⟩ := h.of_narrow rfl
  have hfollow := hinner.follow_eq hfits (k := 0) ['"', '"'] (by simp)
  rw [List.drop_zero, isPrefixOf_encode rfl] at hfollow
  rw [scanQuoted, forward_bind (hreads.lt_size hfits (by simp)), ofLexeme_after_one, hone]
  simp only [hfollow]
  unfold QueryBatch.scanQuoted
  split
  · rename_i more
    have hmark : List.isPrefixOf ['"', '"'] ('"' :: '"' :: more) = true := by simp
    have hmore : Reads source (n + 1 + 2) (encode more) := hinner.encode_tail.encode_tail
    rw [hmark]
    show (forward (.ofNat (n + 1)) 2 >>= fun next => scanBlockString source next) = _
    rw [forward_bind (hinner.lt_size hfits (by simp)), hmore.scanBlockString_eq hfits]
    exact congrArg _ (ofLexeme_after (n + 1) ['"', '"'] more _).symm
  · rename_i hquotes
    have hmark : List.isPrefixOf ['"', '"'] cs = false := by
      refine Bool.eq_false_iff.2 fun hmark => ?_
      obtain ⟨more, rfl⟩ := List.isPrefixOf_iff_prefix.1 hmark
      exact hquotes more rfl
    rw [hmark]
    exact hinner.scanString_eq hfits

end QueryBatch.Bytes
