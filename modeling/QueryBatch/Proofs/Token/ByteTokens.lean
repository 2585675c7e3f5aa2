import QueryBatch.Proofs.Token.ByteNumbers

/-!
# Tokens byte by byte

The scanner of bytes never fails on a source whose places fit into 32 bits, and gives the tokens
that the cursor gives. Main statements:

* `scanWord_eq`, `scanOther_eq`, `scan_eq`: the same lexemes at every place between two characters;
* `next_eq`: one call gives the next token and the place behind it;
* `call_eq`: each call gives the token at its place.
-/

namespace QueryBatch.Bytes

open Text

variable {source : String}

theorem reads_of_standsIn {n : Nat} {cs : List Char} (h : (Cursor.mk n cs).StandsIn source) :
    Reads source n (encode cs) := by
  obtain ⟨before, hsource, rfl⟩ := h
  exact ⟨encode before, by rw [hsource, encode_append], length_encode before⟩

/-! ## Lexemes -/

theorem Reads.scanSpread_eq (hfits : Fits source) {n : Nat} {cs : List Char}
    (h : Reads source n (encode ('.' :: cs))) : scanSpread source (.ofNat n) =
      .ok (ofLexeme n ('.' :: cs) ((QueryBatch.scanSpread cs).after 1)) := by
  obtain ⟨hreads, -, hone⟩ := h.of_narrow rfl
  have hfollow := hreads.follow_eq hfits (k := 1) ['.', '.'] (by simp)
  rw [List.drop_succ_cons, List.drop_zero, isPrefixOf_encode rfl] at hfollow
  rw [scanSpread, ofLexeme_after_one, hone, hfollow]
  unfold QueryBatch.scanSpread
  split
  · rename_i more
    have hmark : List.isPrefixOf ['.', '.'] ('.' :: '.' :: more) = true := by simp
    rw [hmark]
    show (forward (.ofNat n) 3 >>= fun next => pure (Scanned.mk (.punctuator .spread) next)) = _
    rw [forward_bind (hreads.lt_size hfits (by simp))]
    rfl
  · rename_i hpoints
    have hmark : List.isPrefixOf ['.', '.'] cs = false := by
      refine Bool.eq_false_iff.2 fun hmark => ?_
      obtain ⟨more, rfl⟩ := List.isPrefixOf_iff_prefix.1 hmark
      exact hpoints more rfl
    rw [hmark]
    show (forward (.ofNat n) 1 >>= fun next => pure (Scanned.mk .error next)) = _
    rw [forward_bind (hreads.lt_size hfits (by simp))]
    rfl

theorem scanWord_of_slice? {place stop : UInt32} {word : List Char}
    (hskip : skipWhile source isNameChar place = .ok stop)
    (hslice : slice? place.toNat stop.toNat source.toList = some word) :
    scanWord source place = .ok ⟨.ofWord (String.ofList word), stop⟩ := by
  simp only [scanWord, hskip, hslice, bind, Except.bind, pure, Except.pure]

/-- A word is cut out of the source between two characters, and is the same for both scanners. -/
theorem scanWord_eq (hfits : Fits source) {n : Nat} {first : Char} {cs : List Char}
    (hfirst : isNameStart first = true) (h : (Cursor.mk n (first :: cs)).StandsIn source) :
    scanWord source (.ofNat n) =
      .ok (ofLexeme n (first :: cs) ((QueryBatch.scanWord first cs).after 1)) := by
  have hreads := reads_of_standsIn h
  have hword : (first :: cs).takeWhile isNameChar = first :: cs.takeWhile isNameChar := by
    rw [List.takeWhile_cons, if_pos (isNameChar_of_isNameStart hfirst)]
  have hnarrow : ∀ c ∈ first :: cs.takeWhile isNameChar, isNarrow c = true := by
    intro c hc
    rw [← hword] at hc
    exact isNarrow_of_isNameChar (List.all_eq_true.1 List.all_takeWhile _ hc)
  have hsplit := List.takeWhile_append_dropWhile (p := isNameChar) (l := first :: cs)
  rw [hword] at hsplit
  have hstop : n + (first :: cs.takeWhile isNameChar).length < UInt32.size := by
    rw [← hsplit] at hreads
    exact (hreads.skip_narrow hnarrow).lt_size hfits (k := 0) (Nat.zero_le _)
  have hslice : slice? (UInt32.ofNat n).toNat
      (UInt32.ofNat (n + (first :: cs.takeWhile isNameChar).length)).toNat source.toList =
        some (first :: cs.takeWhile isNameChar) := by
    obtain ⟨before, hsource, rfl⟩ := h
    rw [UInt32.toNat_ofNat_of_lt' (by omega), UInt32.toNat_ofNat_of_lt' hstop, hsource,
      ← utf8Length_of_narrow hnarrow]
    show slice? _ _ (before ++ first :: cs) = _
    rw [← hsplit, slice?_append]
  have hskip : skipWhile source isNameChar (.ofNat n) =
      .ok (.ofNat (n + (first :: cs.takeWhile isNameChar).length)) := by
    rw [hreads.skipWhile_eq hfits, takeWhile_encode fun _ => isNarrow_of_isNameChar, hword]
  have hlexeme : (QueryBatch.scanWord first cs).after 1 =
      (Lexeme.mk (.ofWord (String.ofList (first :: cs.takeWhile isNameChar))) 0).after
        (first :: cs.takeWhile isNameChar).length :=
    congrArg _ (Nat.add_comm ..)
  have hafter := ofLexeme_after_narrow hnarrow n (cs.dropWhile isNameChar)
    ⟨.ofWord (String.ofList (first :: cs.takeWhile isNameChar)), 0⟩
  have hrest : (first :: cs).dropWhile isNameChar = cs.dropWhile isNameChar := by
    rw [List.dropWhile_cons, if_pos (isNameChar_of_isNameStart hfirst)]
  rw [scanWord_of_slice? hskip hslice, hlexeme, ← hsplit, hrest, hafter]
  rfl

/-- A character that no lexeme starts with is stepped over as a whole. -/
theorem scanOther_eq (hfits : Fits source) {n : Nat} {first : Char} {cs : List Char}
    (h : (Cursor.mk n (first :: cs)).StandsIn source) :
    scanOther source (.ofNat n) =
      .ok (ofLexeme n (first :: cs) ((Lexeme.mk .error 0).after 1)) := by
  have hreads := reads_of_standsIn h
  have hlt : n + first.utf8Size < UInt32.size := by
    refine hreads.lt_size hfits ?_
    rw [length_encode, utf8Length_cons]
    omega
  have hsplit : ∃ before, splitAtByte? (UInt32.ofNat n).toNat source.toList =
      some (before, first :: cs) := by
    obtain ⟨before, hsource, rfl⟩ := h
    have happend := splitAtByte?_append before (first :: cs)
    exact ⟨before, by rw [UInt32.toNat_ofNat_of_lt' (by omega), hsource, happend]⟩
  obtain ⟨before, hsplit⟩ := hsplit
  rw [scanOther, hsplit, ofLexeme_after_one]
  show (forward (.ofNat n) first.utf8Size >>= fun next => pure (Scanned.mk .error next)) = _
  rw [forward_bind hlt]
  rfl

theorem isNarrow_of_ofChar? {c : Char} {mark : Punctuator} (h : Punctuator.ofChar? c = some mark) :
    isNarrow c = true := by
  unfold Punctuator.ofChar? at h
  split at h <;> first | rfl | cases h

/-- No lexeme starts with a character that is none of ASCII, nor with a byte of one. -/
theorem scan_of_wide {b : Char} (hb : isNarrow b = false) :
    (∀ place, scan source b place = scanOther source place) ∧
      ∀ cs, QueryBatch.scan b cs = ⟨.error, 0⟩ := by
  have hmark : Punctuator.ofChar? b = none := by
    cases h : Punctuator.ofChar? b with
    | none => rfl
    | some mark =>
      rw [isNarrow_of_ofChar? h] at hb
      cases hb
  have hdigit : b.isDigit = false := not_of_isNarrow (fun _ => isNarrow_of_isDigit) hb
  have hstart : isNameStart b = false := not_of_isNarrow (fun _ hstart =>
    isNarrow_of_isNameChar (isNameChar_of_isNameStart hstart)) hb
  have hother : ∀ d, isNarrow d = true → (b == d) = false := fun _ hd => beq_of_isNarrow hd hb
  simp only [scan, QueryBatch.scan, hmark, hother '.' rfl, hother '"' rfl, hother '-' rfl, hdigit,
    hstart, Bool.or_self, Bool.false_eq_true, if_false, implies_true, and_self]

/-- Both scanners take the same lexeme. -/
theorem scan_eq (hfits : Fits source) {n : Nat} {b first : Char} {cs : List Char}
    (h : (Cursor.mk n (first :: cs)).StandsIn source) (hb : peek source (.ofNat n) = some b) :
    scan source b (.ofNat n) =
      .ok (ofLexeme n (first :: cs) ((QueryBatch.scan first cs).after 1)) := by
  have hreads := reads_of_standsIn h
  have hhead : (encode (first :: cs)).head? = some b := (hreads.peek_eq hfits).symm.trans hb
  cases hfirst : isNarrow first with
  | true =>
    rw [encode_cons_of_narrow hfirst] at hhead
    obtain rfl : first = b := Option.some.inj hhead
    obtain ⟨-, -, hone⟩ := hreads.of_narrow hfirst
    unfold scan QueryBatch.scan
    cases hmark : Punctuator.ofChar? first with
    | some mark =>
      show (forward (.ofNat n) 1 >>= fun next => pure (Scanned.mk (.punctuator mark) next)) = _
      have hlt : n + 1 < UInt32.size := hreads.lt_size hfits (by omega)
      rw [forward_bind hlt, ofLexeme_after_one, hone]
      rfl
    | none =>
      simp only
      by_cases hpoint : first = '.'
      · subst hpoint
        exact hreads.scanSpread_eq hfits
      rw [beq_false_of_ne hpoint, if_neg Bool.false_ne_true, if_neg Bool.false_ne_true]
      by_cases hquote : first = '"'
      · subst hquote
        exact hreads.scanQuoted_eq hfits
      rw [beq_false_of_ne hquote, if_neg Bool.false_ne_true, if_neg Bool.false_ne_true]
      cases hnumber : first == '-' || first.isDigit with
      | true =>
        have hor : first = '-' ∨ first.isDigit = true := by simpa using hnumber
        exact hreads.scanNumber_eq hfits hor
      | false =>
        cases hstart : isNameStart first with
        | true => exact scanWord_eq hfits hstart h
        | false => exact scanOther_eq hfits h
  | false =>
    obtain ⟨c, bytes, hbytes⟩ := exists_encodeChar first
    rw [encode_cons, hbytes] at hhead
    obtain rfl : c = b := Option.some.inj hhead
    have hwide : isNarrow c = false := le_of_mem_encodeChar hfirst (hbytes ▸ List.mem_cons_self)
    rw [(scan_of_wide hwide).1, (@scan_of_wide source first hfirst).2]
    exact scanOther_eq hfits h

/-! ## Tokens -/

/-- A token as it is scanned. -/
def ofToken (t : Token) : Lexed := ⟨t.kind, .ofNat t.start, .ofNat t.stop⟩

theorem next_of_end {place start : UInt32} (hgap : skipGap source false place = .ok start)
    (hpeek : peek source start = none) :
    next source place = .ok (⟨.eof, start, start⟩, start) := by
  simp only [next, hgap, hpeek, bind, Except.bind, pure, Except.pure]

theorem next_of_scan {place start : UInt32} {first : Char} {scanned : Scanned}
    (hgap : skipGap source false place = .ok start) (hpeek : peek source start = some first)
    (hscan : scan source first start = .ok scanned) :
    next source place = .ok (⟨scanned.kind, start, scanned.stop⟩, scanned.stop) := by
  simp only [next, hgap, hpeek, hscan, bind, Except.bind, pure, Except.pure]

/-- One call gives the same token as one step of the cursor, with places of 32 bits. -/
theorem next_eq (hfits : Fits source) {c : Cursor} (h : c.StandsIn source) :
    next source (.ofNat c.offset) = .ok (ofToken c.next.1, .ofNat c.next.2.offset) := by
  have hgap : skipGap source false (.ofNat c.offset) = .ok (.ofNat c.skipGap.offset) :=
    (reads_of_standsIn h).skipGap_eq hfits false
  have hstands := h.skip (gap false c.rest)
  cases hrest : c.skipGap.rest with
  | nil =>
    have hpeek : peek source (.ofNat c.skipGap.offset) = none := by
      refine ((reads_of_standsIn hstands).peek_eq hfits).trans ?_
      show (encode c.skipGap.rest).head? = none
      rw [hrest]
      rfl
    have hnone : c.next? = none := by simp only [Cursor.next?, hrest]
    have hnext : c.next = (⟨.eof, "", c.skipGap.offset⟩, c.skipGap) := by
      rw [Cursor.next, hnone]
      rfl
    rw [hnext, next_of_end hgap hpeek]
    rfl
  | cons first cs =>
    have hplace : (Cursor.mk c.skipGap.offset (first :: cs)).StandsIn source := hrest ▸ hstands
    obtain ⟨b, hb⟩ : ∃ b, peek source (.ofNat c.skipGap.offset) = some b := by
      obtain ⟨b, bytes, hbytes⟩ := exists_encodeChar first
      refine ⟨b, ((reads_of_standsIn hplace).peek_eq hfits).trans ?_⟩
      rw [encode_cons, hbytes]
      rfl
    have hsome : c.next? = some (⟨(QueryBatch.scan first cs).kind,
        String.ofList (first :: cs.take (QueryBatch.scan first cs).extra), c.skipGap.offset⟩,
        c.skipGap.skip ((QueryBatch.scan first cs).extra + 1)) := by
      simp only [Cursor.next?, hrest]
    have hscan : scan source b (.ofNat c.skipGap.offset) = .ok ⟨(QueryBatch.scan first cs).kind,
        .ofNat (c.skipGap.skip ((QueryBatch.scan first cs).extra + 1)).offset⟩ := by
      rw [scan_eq hfits hplace hb, ofLexeme, Lexeme.after, Nat.add_comm 1, Cursor.skip, hrest]
    rw [next_of_scan hgap hb hscan, Cursor.next, hsome, Option.getD_some, ofToken,
      (Cursor.takes_of_next? hsome).stops]

/-- Each call gives the token at its place. -/
theorem call_eq (hfits : Fits source) (n : Nat) :
    call source n = .ok (ofToken ((Cursor.ofSource source).after n).next.1,
      .ofNat ((Cursor.ofSource source).after (n + 1)).offset) := by
  induction n with
  | zero => exact next_eq hfits (Cursor.standsIn_ofSource source)
  | succ n ih =>
    rw [call_succ source ih]
    exact next_eq hfits ((Cursor.standsIn_ofSource source).after (n + 1))

end QueryBatch.Bytes
