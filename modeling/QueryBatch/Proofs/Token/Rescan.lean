import QueryBatch.Proofs.Token.Delimiters
import QueryBatch.Proofs.Token.Literal
import QueryBatch.Proofs.Token.Spells
import QueryBatch.Proofs.Token.Tiling

/-!
# Scanning the texts of tokens again

How far a lexeme goes depends on what follows it. Where a source is cut behind a lexeme and goes on
with another text, the lexeme is found again as long as that text closes it. Main statements:

* `recurs_scanNumber`, `recurs_scanQuoted`, `recurs_scan`: a lexeme that is no error is found again
  behind the cut;
* `Token.Scanned.spells`: so the text of a token spells this token;
* `spellings_separator`: separators are stepped over and close what stands before them;
* `tokenize_rescans`: the text of a token is this token alone, and the texts of tokens with
  separators between them are these tokens.
-/

namespace QueryBatch

open Text

/-- A scanner finds the same lexeme again if the text is cut behind it and continued by a text that
closes it. -/
structure Recurs (scanner : List Char → Lexeme) (cs : List Char) : Prop where
  within : (scanner cs).extra ≤ cs.length
  again : ∀ rest, Closes rest → scanner (cs.take (scanner cs).extra ++ rest) = scanner cs

variable {first : Char} {cs rest : List Char} {n : Nat}

/-! ## Runs of characters -/

/-- What holds of the next character on both sides of a cut holds of the next one. -/
theorem forall_head?_take_append {P : Char → Prop} (h : ∀ c ∈ cs.head?, P c)
    (hrest : ∀ c ∈ rest.head?, P c) : ∀ c ∈ (cs.take n ++ rest).head?, P c := by
  cases cs with
  | nil => simpa using hrest
  | cons c cs =>
    cases n with
    | zero => simpa using hrest
    | succ n => exact h

theorem takeWhile_take_append {p : Char → Bool} (h : (cs.takeWhile p).length ≤ n)
    (hrest : ∀ c ∈ rest.head?, p c = false) :
    (cs.take n ++ rest).takeWhile p = cs.takeWhile p := by
  have hnil : ∀ d ∈ ([] : List Char), p d = true := nofun
  induction cs generalizing n with
  | nil =>
    rw [List.take_nil]
    exact takeWhile_append_of_head hnil hrest
  | cons c cs ih =>
    cases hc : p c with
    | false =>
      have hhead : ∀ d ∈ ((c :: cs).take n ++ rest).head?, p d = false :=
        forall_head?_take_append (by simpa using hc) hrest
      rw [List.takeWhile_cons_of_neg (by simp [hc])]
      exact takeWhile_append_of_head hnil hhead
    | true =>
      rw [List.takeWhile_cons_of_pos hc, List.length_cons] at h
      cases n with
      | zero => exact absurd h (Nat.not_succ_le_zero _)
      | succ n =>
        rw [List.take_succ_cons, List.cons_append, List.takeWhile_cons_of_pos hc,
          List.takeWhile_cons_of_pos hc, ih (Nat.le_of_succ_le_succ h)]

theorem head?_take_append (hcs : cs ≠ []) (hn : 0 < n) :
    (cs.take n ++ rest).head? = cs.head? := by
  obtain ⟨c, ds, rfl⟩ := List.exists_cons_of_ne_nil hcs
  obtain ⟨m, rfl⟩ := Nat.exists_eq_add_of_le' hn
  rfl

theorem drop_take_append {m : Nat} (hmn : m ≤ n) (hm : m ≤ cs.length) :
    (cs.take n ++ rest).drop m = (cs.drop m).take (n - m) ++ rest := by
  rw [List.drop_append_of_le_length (by rw [List.length_take]; omega), List.drop_take]

/-! ## Words -/

theorem recurs_scanWord (first : Char) (cs : List Char) : Recurs (scanWord first) cs := by
  refine ⟨(List.takeWhile_prefix isNameChar).length_le, fun rest hrest => ?_⟩
  have htake : (cs.take (cs.takeWhile isNameChar).length ++ rest).takeWhile isNameChar =
      cs.takeWhile isNameChar :=
    takeWhile_take_append (Nat.le_refl _) fun c hc => (hrest c hc).1
  simp only [scanWord, htake]

/-! ## Numbers -/

theorem digitRun_le (cs : List Char) : digitRun cs ≤ cs.length :=
  (List.takeWhile_prefix _).length_le

theorem digitRun_take_append (h : digitRun cs ≤ n) (hrest : Closes rest) :
    digitRun (cs.take n ++ rest) = digitRun cs := by
  have hdigit : ∀ c ∈ rest.head?, c.isDigit = false :=
    hrest.not fun c hc _ => isDigit_of_not_nameChar hc
  rw [digitRun, takeWhile_take_append h hdigit, ← digitRun]

theorem fractionRun_le (cs : List Char) : fractionRun cs ≤ cs.length := by
  unfold fractionRun
  split
  · have hdigits := digitRun_le ‹_›
    split
    · exact Nat.zero_le _
    · exact Nat.succ_le_succ hdigits
  · exact Nat.zero_le _

theorem fractionRun_take_append (h : fractionRun cs ≤ n) (hrest : Closes rest) :
    fractionRun (cs.take n ++ rest) = fractionRun cs := by
  have hpoint : ∀ c ∈ rest.head?, (c == '.') = false := hrest.not fun c _ hc => by simpa using hc
  by_cases hhead : cs.head? = some '.'
  · obtain ⟨ds, rfl⟩ := List.head?_eq_some_iff.1 hhead
    rw [fractionRun] at h ⊢
    cases n with
    | zero =>
      rw [List.take_zero, List.nil_append, fractionRun_of_head hpoint]
      split at h
      · rw [if_pos ‹_›]
      · cases h
    | succ n =>
      have hdigits : digitRun (ds.take n ++ rest) = digitRun ds := by
        refine digitRun_take_append ?_ hrest
        split at h <;> omega
      rw [List.take_succ_cons, List.cons_append, fractionRun, hdigits]
  · have hcs : ∀ c ∈ cs.head?, (c == '.') = false := by
      intro c hc
      rw [beq_eq_false_iff_ne]
      rintro rfl
      exact hhead hc
    rw [fractionRun_of_head hcs, fractionRun_of_head (forall_head?_take_append hcs hpoint)]

theorem exponentRun_take_append_of_none (h : exponentRun cs = none) (hrest : Closes rest) :
    exponentRun (cs.take n ++ rest) = none := by
  refine exponentRun_of_head (forall_head?_take_append ?_ hrest.not_exponent)
  intro c hc
  obtain ⟨ds, rfl⟩ := List.head?_eq_some_iff.1 hc
  rw [exponentRun] at h
  split at h
  · cases h
  · rename_i hletter
    exact Bool.eq_false_iff.2 hletter

/-- The parts of an exponent. -/
theorem exponentRun_of_runs {letter : Char} {sign digits : Nat}
    (hletter : (letter == 'e' || letter == 'E') = true)
    (hsign : (if cs.head? == some '+' || cs.head? == some '-' then 1 else 0) = sign)
    (hdigits : digitRun (cs.drop sign) = digits) :
    exponentRun (letter :: cs) = some (1 + sign + digits, digits) := by
  subst hsign hdigits
  rw [exponentRun, if_pos hletter]

/-- An exponent has digits, so that its sign is in front of the cut. -/
theorem exponentRun_take_append_of_some {length digits : Nat}
    (h : exponentRun cs = some (length, digits)) (hdigits : digits ≠ 0) (hn : length ≤ n)
    (hrest : Closes rest) :
    exponentRun (cs.take n ++ rest) = some (length, digits) ∧ length ≤ cs.length := by
  cases cs with
  | nil => cases h
  | cons letter cs =>
    rw [exponentRun] at h
    split at h
    · rename_i hletter
      obtain ⟨hlength, hrun⟩ := Prod.mk.inj (Option.some.inj h)
      obtain ⟨sign, hsign⟩ : ∃ sign,
        (if cs.head? == some '+' || cs.head? == some '-' then 1 else 0) = sign := ⟨_, rfl⟩
      rw [hsign] at hlength hrun
      have hone : sign ≤ 1 := by
        rw [← hsign]
        split <;> omega
      have hbound := digitRun_le (cs.drop sign)
      rw [List.length_drop] at hbound
      obtain ⟨m, rfl⟩ : ∃ m, n = m + 1 := ⟨n - 1, by omega⟩
      have hhead : (cs.take m ++ rest).head? = cs.head? :=
        head?_take_append (List.ne_nil_of_length_pos (by omega)) (by omega)
      have hafter : digitRun ((cs.take m ++ rest).drop sign) = digits := by
        rw [drop_take_append (by omega) (by omega), digitRun_take_append (by omega) hrest, hrun]
      refine ⟨?_, by rw [List.length_cons]; omega⟩
      rw [List.take_succ_cons, List.cons_append,
        exponentRun_of_runs hletter (by rw [hhead, hsign]) hafter, ← hlength, hrun]
    · cases h

theorem exponentRun_take_append {exponent : Option (Nat × Nat)} (h : exponentRun cs = exponent)
    (hdigits : ¬ exponent.any (·.2 == 0) = true) (hn : (exponent.map (·.1)).getD 0 ≤ n)
    (hrest : Closes rest) :
    exponentRun (cs.take n ++ rest) = exponent ∧ (exponent.map (·.1)).getD 0 ≤ cs.length := by
  cases exponent with
  | none => exact ⟨exponentRun_take_append_of_none h hrest, Nat.zero_le _⟩
  | some pair => exact exponentRun_take_append_of_some h (by simpa using hdigits) hn hrest

/-- The runs that a number consists of; its exponent has `tail` characters. -/
structure NumberRuns (cs : List Char) (whole fraction tail : Nat) (exponent : Option (Nat × Nat)) :
    Prop where
  hwhole : digitRun cs = whole
  hfraction : fractionRun (cs.drop whole) = fraction
  hexponent : exponentRun (cs.drop (whole + fraction)) = exponent
  htail : (exponent.map (·.1)).getD 0 = tail

namespace NumberRuns

variable {whole fraction tail : Nat} {exponent : Option (Nat × Nat)}

theorem exists_of (cs : List Char) :
    ∃ whole fraction tail exponent, NumberRuns cs whole fraction tail exponent :=
  ⟨_, _, _, _, rfl, rfl, rfl, rfl⟩

theorem scanNumber_eq (h : NumberRuns cs whole fraction tail exponent) (first : Char) :
    scanNumber first cs =
      if first == '-' && whole == 0 then ⟨.error, 0⟩
      else if exponent.any (·.2 == 0) then ⟨.error, whole + fraction + tail⟩
      else if (cs.drop (whole + fraction + tail)).head?.any isNumberSpoiler then
        ⟨.error, whole + fraction + tail⟩
      else if fraction == 0 && exponent.isNone then ⟨.int, whole + fraction + tail⟩
      else ⟨.float, whole + fraction + tail⟩ := by
  obtain ⟨rfl, rfl, rfl, rfl⟩ := h
  rfl

/-- A number whose exponent has digits has the same runs where it is cut. -/
theorem take_append (h : NumberRuns cs whole fraction tail exponent)
    (hdigits : ¬ exponent.any (·.2 == 0) = true) (hrest : Closes rest) :
    NumberRuns (cs.take (whole + fraction + tail) ++ rest) whole fraction tail exponent ∧
      whole + fraction + tail ≤ cs.length := by
  obtain ⟨hagain, htail⟩ :=
    exponentRun_take_append h.hexponent hdigits (Nat.le_of_eq h.htail) hrest
  have hwhole := digitRun_le cs
  have hfraction := fractionRun_le (cs.drop whole)
  rw [h.hwhole] at hwhole
  rw [h.hfraction, List.length_drop] at hfraction
  rw [h.htail, List.length_drop] at htail
  refine ⟨⟨?_, ?_, ?_, h.htail⟩, by omega⟩
  · rw [digitRun_take_append (by rw [h.hwhole]; omega) hrest, h.hwhole]
  · rw [drop_take_append (by omega) hwhole,
      fractionRun_take_append (by rw [h.hfraction]; omega) hrest, h.hfraction]
  · rw [drop_take_append (by omega) (by omega), Nat.add_sub_cancel_left, hagain]

end NumberRuns

theorem recurs_scanNumber (h : (scanNumber first cs).kind ≠ .error) :
    Recurs (scanNumber first) cs := by
  obtain ⟨whole, fraction, tail, exponent, hruns⟩ := NumberRuns.exists_of cs
  have hscan := hruns.scanNumber_eq first
  -- What would make the number an error is not there.
  split at hscan
  · exact absurd (by rw [hscan]) h
  rename_i hdash
  split at hscan
  · exact absurd (by rw [hscan]) h
  rename_i hdigits
  split at hscan
  · exact absurd (by rw [hscan]) h
  have hextra : (scanNumber first cs).extra = whole + fraction + tail := by
    rw [hscan]
    split <;> rfl
  have hwithin := (hruns.take_append hdigits closes_nil).2
  refine ⟨hextra ▸ hwithin, fun rest hrest => ?_⟩
  have hend : (cs.take (whole + fraction + tail) ++ rest).drop (whole + fraction + tail) =
      rest := by
    rw [drop_take_append (Nat.le_refl _) hwithin, Nat.sub_self, List.take_zero, List.nil_append]
  rw [hextra, (hruns.take_append hdigits hrest).1.scanNumber_eq first, hend, if_neg hdash,
    if_neg hdigits, any_isNumberSpoiler hrest, if_neg Bool.false_ne_true, hscan]

/-! ## Strings -/

/-- A scanner that steps over some characters and leaves the rest to another one, before a text
and before what the text becomes by the cut. -/
theorem Recurs.behind {outer inner : List Char → Lexeme} (front : List Char) (h : Recurs inner cs)
    (hhere : outer (front ++ cs) = (inner cs).after front.length)
    (hcut : ∀ rest, Closes rest → outer (front ++ (cs.take (inner cs).extra ++ rest)) =
      (inner (cs.take (inner cs).extra ++ rest)).after front.length) :
    Recurs outer (front ++ cs) := by
  have hextra : (outer (front ++ cs)).extra = front.length + (inner cs).extra := by
    rw [hhere, Lexeme.after]
  refine ⟨?_, fun rest hrest => ?_⟩
  · rw [hextra, List.length_append]
    exact Nat.add_le_add_left h.within _
  · rw [hextra, List.take_length_add_append, List.append_assoc, hcut rest hrest,
      h.again rest hrest, hhere]

theorem recurs_scanString (h : (scanString cs).kind ≠ .error) : Recurs scanString cs := by
  fun_induction scanString cs with
  | case1 | case2 | case5 => exact absurd rfl h
  | case3 c cs ih =>
    exact (ih h).behind ['\\', c] (scanString_escape c cs) fun _ _ => scanString_escape c _
  | case4 c cs hlast hescape hquote =>
    obtain rfl := eq_of_beq hquote
    exact ⟨Nat.succ_le_succ (Nat.zero_le _), fun _ _ => rfl⟩
  | case6 c cs hlast hescape hquote hend ih =>
    have hslash : c ≠ '\\' := by
      rintro rfl
      cases cs with
      | nil => exact hlast rfl rfl
      | cons d ds => exact hescape d ds rfl rfl
    have hplain : isPlain c = true := by
      simpa [isPlain, hslash, hend] using hquote
    exact (ih h).behind [c] (scanString_of_isPlain hplain cs) fun _ _ =>
      scanString_of_isPlain hplain _

theorem three_le_extra_scanBlockString (h : (scanBlockString cs).kind ≠ .error) :
    3 ≤ (scanBlockString cs).extra := by
  fun_induction scanBlockString cs with
  | case1 => exact absurd rfl h
  | case2 cs => exact Nat.le_refl 3
  | case3 cs ih | case4 c cs _ _ ih => exact Nat.le_trans (ih h) (Nat.le_add_left ..)

/-- The closing quotes are in front of the cut, so that no quotes close the text before them. -/
theorem recurs_scanBlockString (h : (scanBlockString cs).kind ≠ .error) :
    Recurs scanBlockString cs := by
  fun_induction scanBlockString cs with
  | case1 => exact absurd rfl h
  | case2 cs => exact ⟨Nat.le_add_left 3 cs.length, fun _ _ => rfl⟩
  | case3 cs ih =>
    exact (ih h).behind ['\\', '"', '"', '"'] (scanBlockString.eq_3 cs) fun _ _ =>
      scanBlockString.eq_3 _
  | case4 c cs hclosing hescape ih =>
    refine (ih h).behind [c] (scanBlockString.eq_4 c cs hclosing hescape) fun rest _ => ?_
    have hthree := three_le_extra_scanBlockString h
    have hwithin := (ih h).within
    obtain ⟨x, y, z, ds, rfl⟩ : ∃ x y z ds, cs = x :: y :: z :: ds := by
      match cs with
      | x :: y :: z :: ds => exact ⟨x, y, z, ds, rfl⟩
      | [] | [_] | [_, _] =>
        simp only [List.length_cons, List.length_nil] at hwithin
        omega
    obtain ⟨k, hk⟩ := Nat.exists_eq_add_of_le' hthree
    rw [hk]
    refine scanBlockString.eq_4 c _ (fun tail hc htail => ?_) fun tail hc htail => ?_
    · obtain ⟨rfl, hmore⟩ := List.cons.inj htail
      obtain ⟨rfl, -⟩ := List.cons.inj hmore
      exact hclosing _ hc rfl
    · obtain ⟨rfl, hmore⟩ := List.cons.inj htail
      obtain ⟨rfl, hlast⟩ := List.cons.inj hmore
      obtain ⟨rfl, -⟩ := List.cons.inj hlast
      exact hescape _ hc rfl

/-- Behind the quotes of an empty string no quote follows. -/
theorem recurs_scanQuoted (h : (scanQuoted cs).kind ≠ .error) : Recurs scanQuoted cs := by
  unfold scanQuoted at h
  split at h
  · exact (recurs_scanBlockString h).behind ['"', '"'] rfl fun _ _ => rfl
  · rename_i hopening
    have hcs := scanQuoted.eq_2 cs hopening
    obtain ⟨hwithin, hagain⟩ := recurs_scanString h
    refine ⟨by rwa [hcs], fun rest hrest => ?_⟩
    rw [hcs, scanQuoted.eq_2, hagain rest hrest]
    intro more hmore
    by_cases hquote : cs.head? = some '"'
    · obtain ⟨ds, rfl⟩ := List.head?_eq_some_iff.1 hquote
      obtain rfl : rest = '"' :: more := (List.cons.inj hmore).2
      exact (hrest '"' rfl).2.2 rfl
    · have hhead : ∀ c ∈ (cs.take (scanString cs).extra ++ rest).head?, c ≠ '"' :=
        forall_head?_take_append (by rintro c hc rfl; exact hquote hc) fun c hc => (hrest c hc).2.2
      rw [hmore] at hhead
      exact hhead '"' rfl rfl

/-! ## All lexemes -/

theorem recurs_scanSpread (h : (scanSpread cs).kind ≠ .error) : Recurs scanSpread cs := by
  unfold scanSpread at h
  split at h
  · exact ⟨Nat.le_add_left 2 _, fun _ _ => rfl⟩
  · exact absurd rfl h

theorem recurs_of_eq {scanner : List Char → Lexeme} (h : Recurs scanner cs)
    (hscan : ∀ cs, scan first cs = scanner cs) : Recurs (scan first) cs := by
  rwa [show scan first = scanner from funext hscan]

/-- A lexeme that is no error starts where a token is taken, and is found again behind a cut. -/
theorem recurs_scan (h : (scan first cs).kind ≠ .error) :
    startsLexeme first = true ∧ Recurs (scan first) cs := by
  cases hmark : Punctuator.ofChar? first with
  | some mark =>
    have hscan : ∀ ds, scan first ds = ⟨.punctuator mark, 0⟩ := fun ds => by rw [scan, hmark]
    exact ⟨(text_of_ofChar? hmark).2, recurs_of_eq ⟨Nat.zero_le _, fun _ _ => rfl⟩ hscan⟩
  | none =>
    by_cases hpoint : first = '.'
    · subst hpoint
      exact ⟨rfl, recurs_of_eq (recurs_scanSpread h) fun _ => rfl⟩
    by_cases hquote : first = '"'
    · subst hquote
      exact ⟨rfl, recurs_of_eq (recurs_scanQuoted h) fun _ => rfl⟩
    by_cases hnumber : first = '-' ∨ first.isDigit = true
    · have hscan : ∀ ds, scan first ds = scanNumber first ds := fun ds =>
        (scan_of_number hnumber ds).2
      rw [hscan] at h
      exact ⟨(scan_of_number hnumber cs).1, recurs_of_eq (recurs_scanNumber h) hscan⟩
    by_cases hword : isNameStart first = true
    · exact ⟨(scan_of_isNameStart hword cs).1,
        recurs_of_eq (recurs_scanWord first cs) fun ds => (scan_of_isNameStart hword ds).2⟩
    · refine absurd ?_ h
      have hother : (first == '-' || first.isDigit) = false := by simpa using hnumber
      rw [scan, hmark]
      simp only [beq_false_of_ne hpoint, beq_false_of_ne hquote, hother, if_neg hword,
        Bool.false_eq_true, if_false]

/-! ## Tokens -/

/-- A token of some source that is no error. -/
structure Token.Scanned (t : Token) : Prop where
  kind : t.kind ≠ .error
  source : ∃ source, t ∈ tokenize source

/-- The text of a token is this token again, in front of any text that closes it. -/
theorem Token.Scanned.spells {t : Token} (h : t.Scanned) : Spells t.text [t.spelling] := by
  intro rest hrest
  obtain ⟨hkind, source, hsource⟩ := h
  obtain ⟨first, cs, start, rfl⟩ := Cursor.exists_scan_of_mem_tokens hsource
  obtain ⟨hstart, hwithin, hagain⟩ := recurs_scan hkind
  have hlength : (cs.take (scan first cs).extra).length = (scan first cs).extra :=
    List.length_take_of_le hwithin
  rw [String.toList_ofList]
  refine spellings_of_scan hstart ?_
  rw [hagain rest hrest, hlength]

/-- What the scanner finds in the text of a token: the token, and then the end. -/
structure Token.ScansAlone (t : Token) : Prop where
  tokens : tokenize t.text = [⟨t.kind, t.text, 0⟩]
  ends : ∀ n, 0 < n → ((Cursor.ofSource t.text).after n).next.1 =
    ⟨.eof, "", utf8Length t.text.toList⟩

theorem Token.Scanned.scansAlone {t : Token} (h : t.Scanned) : t.ScansAlone := by
  have hspelling : (tokenize t.text).map Token.spelling = [t.spelling] := by
    have hspells := h.spells [] closes_nil
    rw [List.append_nil] at hspells
    rw [map_spelling_tokenize, hspells, spellings_nil, List.append_nil]
  obtain ⟨u, htokens, hu⟩ := List.map_eq_singleton_iff.1 hspelling
  obtain ⟨hkind, htext⟩ := Spelling.mk.inj hu
  have hmem : u ∈ (Cursor.ofSource t.text).tokens := by
    show u ∈ tokenize t.text
    rw [htokens]
    exact List.mem_cons_self
  obtain ⟨before, after, hsplit, hplace⟩ :=
    (Cursor.standsIn_ofSource t.text).exists_of_mem_tokens hmem
  have hbefore : before = [] := by
    have hlength := congrArg List.length hsplit
    rw [htext, List.length_append, List.length_append] at hlength
    exact List.eq_nil_of_length_eq_zero (by omega)
  have hall : tokenize t.text = [⟨t.kind, t.text, 0⟩] := by
    rw [htokens, ← hkind, ← htext, ← show u.start = 0 by rw [← hplace, hbefore]; rfl]
  refine ⟨hall, fun n hn => ?_⟩
  have hnil : ((Cursor.ofSource t.text).after n).tokens = [] := by
    rw [Cursor.tokens_after]
    show (tokenize t.text).drop n = []
    rw [hall]
    exact List.drop_eq_nil_of_le hn
  rw [(Cursor.next_of_tokens_nil hnil).1, Cursor.stop_after, Cursor.stop_ofSource]

/-! ## Separators -/

theorem gap_comment {body : List Char} (hbody : ∀ c ∈ body, c ≠ '\r' ∧ c ≠ '\n') {e : Char}
    (he : e = '\r' ∨ e = '\n') (cs : List Char) :
    gap true (body ++ e :: cs) = body.length + 1 + gap false cs := by
  induction body with
  | nil =>
    rw [List.nil_append, gap, if_pos (isLineEnd_iff.2 he), List.length_nil]
    omega
  | cons c body ih =>
    have hc := not_isLineEnd_iff.2 (hbody c List.mem_cons_self)
    rw [List.cons_append, gap, hc, if_neg Bool.false_ne_true, Bool.true_or, if_pos rfl,
      ih fun d hd => hbody d (List.mem_cons_of_mem _ hd), List.length_cons]
    omega

theorem gap_append {separator : List Char} (h : Ignorable false separator) (cs : List Char) :
    gap false (separator ++ cs) = separator.length + gap false cs := by
  induction h with
  | nil => rw [List.nil_append, List.length_nil, Nat.zero_add]
  | @character c more hc _ ih =>
    have hstep : gap false (c :: (more ++ cs)) = gap false (more ++ cs) + 1 := by
      simp only [List.mem_cons, List.not_mem_nil, or_false] at hc
      rcases hc with rfl | rfl | rfl | rfl | rfl | rfl <;> rfl
    rw [List.cons_append, hstep, ih, List.length_cons]
    omega
  | @comment body more e hbody he _ ih =>
    have hstep : gap false ('#' :: (body ++ e :: (more ++ cs))) =
        gap true (body ++ e :: (more ++ cs)) + 1 := rfl
    rw [List.cons_append, List.append_assoc, List.cons_append, hstep, gap_comment hbody he, ih,
      List.length_cons, List.length_append, List.length_cons]
    omega
  | lastComment _ hlast => cases hlast

/-- Separators are stepped over, and close what stands before them. -/
theorem spellings_separator {separator : List Char} (h : Ignorable false separator)
    (hne : separator ≠ []) (cs : List Char) :
    Closes (separator ++ cs) ∧ spellings (separator ++ cs) = spellings cs := by
  constructor
  · cases h with
    | nil => exact absurd rfl hne
    | character hc _ =>
      refine closes_cons ?_ _
      simp only [List.mem_cons, List.not_mem_nil, or_false] at hc
      rcases hc with rfl | rfl | rfl | rfl | rfl | rfl <;> rfl
    | comment => exact closes_cons rfl _
    | lastComment _ hlast => cases hlast
  · refine map_spelling_congr ?_
    show (separator ++ cs).drop (gap false (separator ++ cs)) = cs.drop (gap false cs)
    rw [gap_append h, List.drop_length_add_append]

/-- A text that consists of the texts of some tokens with separators between them. -/
inductive Joined : List Token → List Char → Prop
  | nil : Joined [] []
  | single (t : Token) : Joined [t] t.text.toList
  | cons {t u : Token} {ts : List Token} {separator cs : List Char}
    (hseparator : Ignorable false separator) (hne : separator ≠ []) (h : Joined (u :: ts) cs) :
    Joined (t :: u :: ts) (t.text.toList ++ (separator ++ cs))

theorem Joined.spellings {ts : List Token} (h : Joined ts cs) (hts : ∀ t ∈ ts, t.Scanned) :
    spellings cs = ts.map Token.spelling := by
  induction h with
  | nil => exact spellings_nil
  | single t =>
    have hspells := (hts t List.mem_cons_self).spells [] closes_nil
    rwa [List.append_nil, spellings_nil] at hspells
  | @cons t u ts separator cs hseparator hne _ ih =>
    obtain ⟨ht, hmore⟩ := List.forall_mem_cons.1 hts
    obtain ⟨hcloses, hskip⟩ := spellings_separator hseparator hne cs
    rw [ht.spells _ hcloses, hskip, ih hmore]
    rfl

/-- The text of a token is scanned as this token and nothing else. The texts of tokens, which may
be those of different sources, are scanned as these tokens if there are separators between them. For
texts of at most `2 ^ 32 - 4` bytes, the scanner of bytes gives the same tokens (`call_of_lt`). -/
theorem tokenize_rescans :
    (∀ t : Token, t.Scanned → t.ScansAlone) ∧
      ∀ (ts : List Token) (text : String), (∀ t ∈ ts, t.Scanned) → Joined ts text.toList →
        (tokenize text).map Token.spelling = ts.map Token.spelling := by
  refine ⟨fun t => Token.Scanned.scansAlone, fun ts text hts hjoined => ?_⟩
  rw [map_spelling_tokenize, hjoined.spellings hts]

/-- The tokens of one source in another order, with a quote in a comment behind a string. -/
theorem tokenize_rescans_reordered :
    (tokenize "\"\"#\"\n\"\"\t-1.5E+2 query\uFEFF,...").map Token.spelling =
      [⟨.string, "\"\""⟩, ⟨.string, "\"\""⟩, ⟨.float, "-1.5E+2"⟩, ⟨.keyword .query, "query"⟩,
        ⟨.punctuator .spread, "..."⟩] := by
  let spread : Token := ⟨.punctuator .spread, "...", 0⟩
  let number : Token := ⟨.float, "-1.5E+2", 3⟩
  let empty : Token := ⟨.string, "\"\"", 11⟩
  let word : Token := ⟨.keyword .query, "query", 13⟩
  have hfound : ∀ t ∈ [empty, empty, number, word, spread],
      t.kind ≠ .error ∧ t ∈ tokenize "...-1.5E+2\x7b\"\"query" := by
    decide +kernel
  have hscanned : ∀ t ∈ [empty, empty, number, word, spread], t.Scanned := fun t ht =>
    ⟨(hfound t ht).1, _, (hfound t ht).2⟩
  have hcomment : Ignorable false ('#' :: (['"'] ++ '\n' :: [])) :=
    .comment (List.forall_mem_singleton.2 (by decide)) (.inr rfl) .nil
  have hblank {c : Char} {cs : List Char} (h : Ignorable false cs)
    (hc : c ∈ [' ', '\t', '\r', '\n', ',', '\uFEFF']) : Ignorable false (c :: cs) := .character hc h
  have htext : "\"\"#\"\n\"\"\t-1.5E+2 query\uFEFF,...".toList =
      empty.text.toList ++ ('#' :: (['"'] ++ '\n' :: []) ++ (empty.text.toList ++ (['\t'] ++
        (number.text.toList ++ ([' '] ++ (word.text.toList ++ (['\uFEFF', ','] ++
          spread.text.toList))))))) := by
    decide
  refine tokenize_rescans.2 [empty, empty, number, word, spread] _ hscanned ?_
  rw [htext]
  exact .cons hcomment (by decide) <| .cons (hblank .nil (by decide)) (by decide) <|
    .cons (hblank .nil (by decide)) (by decide) <|
      .cons (hblank (hblank .nil (by decide)) (by decide)) (by decide) <| .single spread

end QueryBatch
