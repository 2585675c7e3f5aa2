import QueryBatch.Proofs.Screening
import QueryBatch.Proofs.Token.Bytes

/-!
# The scanner of bytes goes on

Whatever the source, and also where its places do not fit into 32 bits, a call of the scanner either
fails, or goes on by at least one byte, or stands at the end of the source. So the calls come to an
end: there are only so many places. Main statements:

* `add_le_of_forward`, `skipWhile_le`, `skipGap_le`: no loop moves a place back;
* `Ends`, `ends_scan`: a lexeme ends behind the place where it starts;
* `next_progress`: a token uses at least one byte, unless it is the end of the source;
* `call_ends`: after some calls the end of the source is there, unless one of them fails.
-/

namespace QueryBatch.Bytes

open Text

variable {source : String}

/-- There is no byte exactly at the end of the source and behind it. -/
theorem peek_eq_none_iff {place : UInt32} :
    peek source place = none ↔ utf8Length source.toList ≤ place.toNat := by
  rw [peek, getElem?_toByteArray, List.getElem?_eq_none_iff, length_encode]

/-! ## Loops -/

/-- What goes on from a place `k` bytes further on ends there, or later. -/
theorem add_le_of_forward {place stop : UInt32} {k : Nat}
    {f : { next : UInt32 // next.toNat = place.toNat + k } → Except Fault UInt32}
    (hf : ∀ next, f next = .ok stop → next.1.toNat ≤ stop.toNat)
    (h : forward place k >>= f = .ok stop) : place.toNat + k ≤ stop.toNat := by
  obtain ⟨next, -, hrest⟩ := bind_eq_ok_iff.1 h
  rw [← next.2]
  exact hf next hrest

/-- A run of bytes ends where it starts, or later. -/
theorem skipWhile_le (p : Char → Bool) {place stop : UInt32}
    (h : skipWhile source p place = .ok stop) : place.toNat ≤ stop.toNat := by
  fun_induction skipWhile source p place with
  | case1 => exact Except.ok.inj h ▸ Nat.le_refl _
  | case2 place c hc hp ih => exact Nat.le_of_add_right_le (add_le_of_forward ih h)
  | case3 => exact Except.ok.inj h ▸ Nat.le_refl _

/-- A byte that passes the test is stepped over. -/
theorem skipWhile_lt {p : Char → Bool} {place stop : UInt32} {c : Char}
    (hpeek : peek source place = some c) (hc : p c = true)
    (h : skipWhile source p place = .ok stop) : place.toNat < stop.toNat := by
  rw [skipWhile_of_peek hpeek, if_pos hc] at h
  exact add_le_of_forward (fun _ => skipWhile_le p) h

/-- Text that stands for nothing ends where it starts, or later. -/
theorem skipGap_le {inComment : Bool} {place stop : UInt32}
    (h : skipGap source inComment place = .ok stop) : place.toNat ≤ stop.toNat := by
  fun_induction skipGap source inComment place with
  | case1 | case6 => exact Except.ok.inj h ▸ Nat.le_refl _
  | case2 inComment place c hc hopen ih | case3 inComment place c hc hopen hsep ih
  | case4 inComment place c hc hopen hsep hmark ih =>
    exact Nat.le_of_add_right_le (add_le_of_forward ih h)
  | case5 inComment place c hc hopen hsep hmark hfirst ih =>
    obtain ⟨isMark, -, hrest⟩ := bind_eq_ok_iff.1 h
    cases isMark with
    | false => exact Except.ok.inj hrest ▸ Nat.le_refl _
    | true => exact Nat.le_of_add_right_le (add_le_of_forward ih hrest)

/-! ## Lexemes -/

/-- What is scanned, if anything, is a lexeme that ends with byte `n` or behind it. -/
def Ends (n : Nat) (result : Except Fault Scanned) : Prop :=
  ∀ scanned, result = .ok scanned → scanned.kind ≠ .eof ∧ n ≤ scanned.stop.toNat

theorem ends_ok {n : Nat} {kind : Kind} {stop : UInt32} (hkind : kind ≠ .eof)
    (hstop : n ≤ stop.toNat) : Ends n (.ok ⟨kind, stop⟩) := by
  intro scanned h
  obtain rfl := Except.ok.inj h
  exact ⟨hkind, hstop⟩

/-- What comes before a lexeme does not matter if the lexeme ends far enough. -/
theorem Ends.bind {α : Type} {n : Nat} {first : Except Fault α} {f : α → Except Fault Scanned}
    (h : ∀ a, first = .ok a → Ends n (f a)) : Ends n (first >>= f) := by
  intro scanned hscanned
  obtain ⟨a, ha, hrest⟩ := bind_eq_ok_iff.1 hscanned
  exact h a ha scanned hrest

theorem Ends.mono {m n : Nat} {result : Except Fault Scanned} (h : Ends n result) (hmn : m ≤ n) :
    Ends m result :=
  fun scanned hscanned => ⟨(h scanned hscanned).1, Nat.le_trans hmn (h scanned hscanned).2⟩

/-- A lexeme that goes on `k` bytes further on. -/
theorem Ends.forward {n k : Nat} {place : UInt32}
    {f : { next : UInt32 // next.toNat = place.toNat + k } → Except Fault Scanned}
    (hn : n ≤ place.toNat + k) (h : ∀ next, Ends next.1.toNat (f next)) :
    Ends n (forward place k >>= f) :=
  .bind fun next _ => (h next).mono (by rw [next.2]; exact hn)

/-- A lexeme whose end is `k` bytes further on. -/
theorem ends_forward {n k : Nat} {kind : Kind} {place : UInt32} (hkind : kind ≠ .eof)
    (hn : n ≤ place.toNat + k) : Ends n (forward place k >>= fun next => pure ⟨kind, next⟩) :=
  .forward hn fun _ => ends_ok hkind (Nat.le_refl _)

theorem ends_scanString (place : UInt32) : Ends place.toNat (scanString source place) := by
  fun_induction scanString source place with
  | case1 | case2 => exact ends_ok nofun (Nat.le_refl _)
  | case3 => exact ends_forward nofun (Nat.le_add_right ..)
  | case4 place c hc hend hquote hescape ihAfter ihNext =>
    refine .forward (Nat.le_add_right ..) fun next => ?_
    split
    · exact .forward (Nat.le_add_right ..) fun after => ihAfter next after
    · exact ihNext next
  | case5 place c hc hend hquote hescape ih => exact .forward (Nat.le_add_right ..) ih

theorem ends_scanBlockString (place : UInt32) :
    Ends place.toNat (scanBlockString source place) := by
  fun_induction scanBlockString source place with
  | case1 => exact ends_ok nofun (Nat.le_refl _)
  | case2 place c hc rest hquote ihEscaped ihNext | case3 place c hc rest hquote ihEscaped ihNext =>
    refine .bind fun closed _ => ?_
    have hmore : ∀ escaped : Bool, Ends place.toNat (if escaped = true
        then forward place 4 >>= fun next => scanBlockString source next
        else forward place 1 >>= fun next => scanBlockString source next) := by
      intro escaped
      split
      · exact .forward (Nat.le_add_right ..) ihEscaped
      · exact .forward (Nat.le_add_right ..) ihNext
    simp only [rest]
    split
    · exact ends_forward nofun (Nat.le_add_right ..)
    · split <;> exact .bind fun escaped _ => hmore escaped

/-- A string has at least its first quote. -/
theorem ends_scanQuoted (place : UInt32) : Ends (place.toNat + 1) (scanQuoted source place) := by
  refine .forward (Nat.le_refl _) fun inner => .bind fun isBlock _ => ?_
  split
  · exact .forward (Nat.le_add_right ..) fun next => ends_scanBlockString next.1
  · exact ends_scanString inner.1

theorem ends_endNumber {n : Nat} {kind : Kind} {place : UInt32} (hkind : kind ≠ .eof)
    (hplace : n ≤ place.toNat) : Ends n (.ok (endNumber source kind place)) := by
  unfold endNumber
  split
  · exact ends_ok nofun hplace
  · exact ends_ok hkind hplace

theorem ends_scanExponent (kind : Kind) (hkind : kind ≠ .eof) (place : UInt32) :
    Ends place.toNat (scanExponent source kind place) := by
  have hdigits : ∀ digits : UInt32, Ends digits.toNat (skipWhile source Char.isDigit digits >>=
      fun stop => if stop = digits then pure ⟨.error, stop⟩
        else pure (endNumber source .float stop)) := by
    refine fun digits => .bind fun stop hstop => ?_
    have hle := skipWhile_le _ hstop
    split
    · exact ends_ok nofun hle
    · exact ends_endNumber nofun hle
  unfold scanExponent
  split
  · refine .forward (Nat.le_add_right ..) fun sign => ?_
    split
    · exact .forward (Nat.le_add_right ..) fun digits => hdigits digits
    · exact hdigits sign
  · exact ends_endNumber hkind (Nat.le_refl _)

/-- A number ends where its digits do, or later. -/
theorem ends_scanUnsigned {n : Nat} {place : UInt32}
    (h : ∀ whole, skipWhile source Char.isDigit place = .ok whole → n ≤ whole.toNat) :
    Ends n (scanUnsigned source place) := by
  refine .bind fun whole hwhole => ?_
  have hle := h whole hwhole
  split
  · exact ends_ok nofun hle
  · refine .bind fun isFraction _ => ?_
    split
    · have hpoint := Nat.le_trans hle (Nat.le_add_right whole.toNat 1)
      refine .forward hpoint fun fraction => .bind fun stop hstop => ?_
      exact (ends_scanExponent .float nofun stop).mono (skipWhile_le _ hstop)
    · exact (ends_scanExponent .int nofun whole).mono hle

theorem ends_scanNumber {first : Char} {place : UInt32} (hpeek : peek source place = some first)
    (hfirst : (first == '-' || first.isDigit) = true) :
    Ends (place.toNat + 1) (scanNumber source first place) := by
  unfold scanNumber
  split
  · exact .forward (Nat.le_refl _) fun next => ends_scanUnsigned fun _ => skipWhile_le _
  · rename_i hsign
    exact ends_scanUnsigned fun _ =>
      skipWhile_lt hpeek ((Bool.or_eq_true_iff.1 hfirst).resolve_left hsign)

/-- A word has at least its first letter. -/
theorem ends_scanWord {first : Char} {place : UInt32} (hpeek : peek source place = some first)
    (hfirst : isNameStart first = true) : Ends (place.toNat + 1) (scanWord source place) := by
  refine .bind fun stop hstop => ?_
  have hlt := skipWhile_lt hpeek (isNameChar_of_isNameStart hfirst) hstop
  split
  · refine ends_ok (fun heof => ?_) hlt
    have hname := Kind.isName_ofWord (String.ofList ‹_›)
    rw [heof] at hname
    cases hname
  · exact nofun

theorem ends_scanSpread (place : UInt32) : Ends (place.toNat + 1) (scanSpread source place) := by
  refine .bind fun isSpread _ => ?_
  split
  · exact ends_forward nofun (by omega)
  · exact ends_forward nofun (Nat.le_refl _)

/-- A character that starts no lexeme is one by itself, with all its bytes. -/
theorem ends_scanOther (place : UInt32) : Ends (place.toNat + 1) (scanOther source place) := by
  unfold scanOther
  split
  · rename_i rest _
    refine ends_forward nofun (Nat.add_le_add_left ?_ _)
    cases rest with
    | nil => exact Nat.le_refl _
    | cons c cs => exact c.utf8Size_pos
  · exact nofun

/-- A lexeme has at least one byte. -/
theorem ends_scan {first : Char} {place : UInt32} (hpeek : peek source place = some first) :
    Ends (place.toNat + 1) (scan source first place) := by
  unfold scan
  split
  · exact ends_forward nofun (Nat.le_refl _)
  · split
    · exact ends_scanSpread place
    split
    · exact ends_scanQuoted place
    split
    · exact ends_scanNumber hpeek ‹_›
    split
    · exact ends_scanWord hpeek ‹_›
    · exact ends_scanOther place

/-! ## Calls -/

/-- What one call of the scanner may give: the end of the source, where every byte is behind the
place, or a token, behind which the place is further on. -/
theorem next_progress {place stop : UInt32} {t : Lexed} (h : next source place = .ok (t, stop)) :
    t.kind = .eof ∧ utf8Length source.toList ≤ stop.toNat ∨ t.kind ≠ .eof ∧ place < stop := by
  obtain ⟨start, hgap, h⟩ := bind_eq_ok_iff.1 h
  have hstart := skipGap_le hgap
  split at h
  · rename_i hpeek
    obtain ⟨rfl, rfl⟩ := Prod.mk.inj (Except.ok.inj h)
    exact .inl ⟨rfl, peek_eq_none_iff.1 hpeek⟩
  · rename_i first hpeek
    obtain ⟨scanned, hscan, h⟩ := bind_eq_ok_iff.1 h
    obtain ⟨rfl, rfl⟩ := Prod.mk.inj (Except.ok.inj h)
    obtain ⟨hkind, hstop⟩ := ends_scan hpeek scanned hscan
    exact .inr ⟨hkind, UInt32.lt_iff_toNat_lt.2 (by omega)⟩

theorem lt_of_next {place stop : UInt32} {t : Lexed} (h : next source place = .ok (t, stop))
    (hkind : t.kind ≠ .eof) : place.toNat < stop.toNat :=
  UInt32.lt_iff_toNat_lt.1 ((next_progress h).resolve_left fun hend => hkind hend.1).2

/-- Where no call gives the end of the source, each of them has used a byte. -/
theorem lt_of_call (h : ∀ m t place, call source m = .ok (t, place) → t.kind ≠ .eof) {n : Nat}
    {t : Lexed} {place : UInt32} (hcall : call source n = .ok (t, place)) : n < place.toNat := by
  have hkind := h n t place hcall
  induction n generalizing t place with
  | zero => exact lt_of_next hcall hkind
  | succ n ih =>
    obtain ⟨⟨u, start⟩, hbefore, hnext⟩ := bind_eq_ok_iff.1 hcall
    have hstart := ih hbefore (h n u start hbefore)
    have hplace : start.toNat < place.toNat := lt_of_next hnext hkind
    omega

/-- There are not more calls than places before one gives the end of the source or fails. -/
theorem call_ends (source : String) :
    ∃ n, (∃ t place, call source n = .ok (t, place) ∧ t.kind = .eof) ∨
      ∃ fault, call source n = .error fault := by
  refine Classical.byContradiction fun hnever => ?_
  have hkind : ∀ m t place, call source m = .ok (t, place) → t.kind ≠ .eof :=
    fun m t place hcall heof => hnever ⟨m, .inl ⟨t, place, hcall, heof⟩⟩
  cases hcall : call source UInt32.size with
  | error fault => exact hnever ⟨_, .inr ⟨fault, hcall⟩⟩
  | ok result =>
    have hlast := lt_of_call hkind hcall
    have hplace := result.2.toNat_lt_size
    omega

end QueryBatch.Bytes
