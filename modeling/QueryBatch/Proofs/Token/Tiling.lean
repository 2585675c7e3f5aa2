import QueryBatch.Proofs.Token.ByteTokens

/-!
# Tokens tile their source

Each byte of a source is in exactly one token or in text that stands for nothing. Main statements:

* `ignorable_gap`: what is stepped over consists of blanks, commas, byte order marks and comments;
* `Tiles.lt_of_mem`, `Tiles.pairwise`, `Tiles.splitAtByte?`: the pieces of a tiling are not empty,
  follow each other and start and end between two characters;
* `Cursor.tiles`: the tokens from a place on tile the text from there on;
* `scansLosslessly`: what the calls of the scanner of bytes give, one after the other.
-/

namespace QueryBatch

open Text

/-! ## Text that stands for nothing -/

/-- Text that may stand between tokens. A comment runs up to the end of its line; it may run up to
the end of the text where this is the `last` text of the source. -/
inductive Ignorable (last : Bool) : List Char → Prop
  | nil : Ignorable last []
  | character {c : Char} {cs : List Char} (hc : c ∈ [' ', '\t', '\r', '\n', ',', '\uFEFF'])
    (h : Ignorable last cs) : Ignorable last (c :: cs)
  | comment {body cs : List Char} {e : Char} (hbody : ∀ c ∈ body, c ≠ '\r' ∧ c ≠ '\n')
    (he : e = '\r' ∨ e = '\n') (h : Ignorable last cs) : Ignorable last ('#' :: (body ++ e :: cs))
  | lastComment {body : List Char} (hbody : ∀ c ∈ body, c ≠ '\r' ∧ c ≠ '\n')
    (hlast : last = true) : Ignorable last ('#' :: body)

theorem isLineEnd_iff {c : Char} : isLineEnd c = true ↔ c = '\r' ∨ c = '\n' := by
  simp [isLineEnd, or_comm]

theorem not_isLineEnd_iff {c : Char} : isLineEnd c = false ↔ c ≠ '\r' ∧ c ≠ '\n' := by
  simp [isLineEnd, and_comm]

theorem mem_of_isIgnored {c : Char} (h : isIgnored c = true) :
    c ∈ [' ', '\t', '\r', '\n', ',', '\uFEFF'] := by
  simp only [isIgnored, isLineEnd, Bool.or_eq_true, beq_iff_eq] at h
  rcases h with (((h | h) | h) | h) | h | h <;> simp [h]

/-- What is stepped over may stand between tokens. The induction also carries a comment of which
some text has been read. -/
theorem ignorable_gap (cs : List Char) :
    Ignorable (cs.drop (gap false cs)).isEmpty (cs.take (gap false cs)) ∧
      ∀ body : List Char, (∀ c ∈ body, c ≠ '\r' ∧ c ≠ '\n') →
        Ignorable (cs.drop (gap true cs)).isEmpty ('#' :: (body ++ cs.take (gap true cs))) := by
  induction cs with
  | nil => exact ⟨.nil, fun body hbody => by simpa using Ignorable.lastComment hbody rfl⟩
  | cons c cs ih =>
    obtain ⟨hgap, hcomment⟩ := ih
    rw [gap, gap]
    cases hend : isLineEnd c with
    | true =>
      have hc := isLineEnd_iff.1 hend
      refine ⟨.character ?_ hgap, fun body hbody => .comment hbody hc hgap⟩
      rcases hc with rfl | rfl <;> simp
    | false =>
      have hmore : ∀ body : List Char, (∀ d ∈ body, d ≠ '\r' ∧ d ≠ '\n') →
          Ignorable (cs.drop (gap true cs)).isEmpty
            ('#' :: (body ++ c :: cs.take (gap true cs))) := by
        intro body hbody
        have hlonger : ∀ d ∈ body ++ [c], d ≠ '\r' ∧ d ≠ '\n' :=
          List.forall_mem_append.2 ⟨hbody, by simpa using not_isLineEnd_iff.1 hend⟩
        simpa using hcomment _ hlonger
      refine ⟨?_, hmore⟩
      cases hmark : c == '#' with
      | true =>
        obtain rfl := eq_of_beq hmark
        exact hcomment [] fun d hd => absurd hd List.not_mem_nil
      | false =>
        cases hignored : isIgnored c with
        | true => exact .character (mem_of_isIgnored hignored) hgap
        | false => exact .nil

/-! ## Tilings -/

/-- From byte `n` on, a text consists of lexemes with given kinds and places, with nothing but text
to step over before, between and behind them. -/
inductive Tiles : Nat → List Char → List Bytes.Lexed → Prop
  | last {n : Nat} {cs : List Char} (h : Ignorable true cs) : Tiles n cs []
  | lexeme {n : Nat} {skipped lexeme cs : List Char} {t : Bytes.Lexed} {ts : List Bytes.Lexed}
    (hskipped : Ignorable false skipped) (hnonempty : lexeme ≠ []) (hkind : t.kind ≠ .eof)
    (hstart : t.start.toNat = n + utf8Length skipped)
    (hstop : t.stop.toNat = t.start.toNat + utf8Length lexeme) (h : Tiles t.stop.toNat cs ts) :
    Tiles n (skipped ++ (lexeme ++ cs)) (t :: ts)

namespace Tiles

variable {n : Nat} {cs : List Char} {ts : List Bytes.Lexed}

theorem lt_of_mem (h : Tiles n cs ts) :
    ∀ t ∈ ts, n ≤ t.start.toNat ∧ t.start.toNat < t.stop.toNat := by
  induction h with
  | last => nofun
  | @lexeme n skipped lexeme cs t ts _ hnonempty _ hstart hstop _ ih =>
    have hpos : utf8Length lexeme ≠ 0 := fun hzero => hnonempty (utf8Length_eq_zero.1 hzero)
    refine List.forall_mem_cons.2 ⟨by omega, fun u hu => ?_⟩
    have hu := ih u hu
    omega

theorem pairwise (h : Tiles n cs ts) :
    ts.Pairwise fun t u => t.stop.toNat ≤ u.start.toNat := by
  induction h with
  | last => exact .nil
  | lexeme _ _ _ _ _ h ih => exact .cons (fun u hu => (h.lt_of_mem u hu).1) ih

theorem kind_ne_eof (h : Tiles n cs ts) : ∀ t ∈ ts, t.kind ≠ .eof := by
  induction h with
  | last => nofun
  | lexeme _ _ hkind _ _ _ ih => exact List.forall_mem_cons.2 ⟨hkind, ih⟩

/-- Every lexeme starts and ends between two characters. -/
theorem splitAtByte? (h : Tiles n cs ts) {source before : List Char}
    (hsource : source = before ++ cs) (hn : utf8Length before = n) : ∀ t ∈ ts,
    (splitAtByte? t.start.toNat source).isSome ∧ (splitAtByte? t.stop.toNat source).isSome := by
  induction h generalizing before with
  | last => nofun
  | @lexeme n skipped lexeme cs t ts _ _ _ hstart hstop _ ih =>
    have hfirst : source = (before ++ skipped) ++ (lexeme ++ cs) := by simp [hsource]
    have hsecond : source = (before ++ skipped ++ lexeme) ++ cs := by simp [hsource]
    have hlength : utf8Length (before ++ skipped) = t.start.toNat := by
      rw [utf8Length_append, hn, hstart]
    have hlength' : utf8Length (before ++ skipped ++ lexeme) = t.stop.toNat := by
      rw [utf8Length_append, hlength, hstop]
    refine List.forall_mem_cons.2 ⟨⟨?_, ?_⟩, ih hsecond hlength'⟩
    · rw [hfirst, ← hlength, splitAtByte?_append]
      rfl
    · rw [hsecond, ← hlength', splitAtByte?_append]
      rfl

end Tiles

/-- The tokens from a place on tile the text from there on. -/
theorem Cursor.tiles {c : Cursor} (h : c.stop < UInt32.size) :
    Tiles c.offset c.rest (c.tokens.map Bytes.ofToken) := by
  fun_induction tokens c with
  | case1 c hnone =>
    have hend : c.rest.drop (gap false c.rest) = [] := by
      have hrest := rest_next_of_next? hnone
      rwa [next, hnone] at hrest
    have hall := List.take_append_drop (gap false c.rest) c.rest
    have hskipped := (ignorable_gap c.rest).1
    rw [hend, List.append_nil] at hall
    rw [hend, hall] at hskipped
    exact .last hskipped
  | case2 c t d hsome ih =>
    have htakes := takes_of_next? hsome
    obtain ⟨hrest, hmore, hstart⟩ := rest_of_next? hsome
    have hskipped := (ignorable_gap c.rest).1
    rw [hmore] at hskipped
    have hd : d.offset ≤ d.stop := Nat.le_add_right ..
    have hstops := htakes.stops
    have hremains := htakes.remains
    have hnonempty := htakes.nonempty
    have hstartNat : (Bytes.ofToken t).start.toNat = t.start :=
      UInt32.toNat_ofNat_of_lt' (by omega)
    have hstopNat : (Bytes.ofToken t).stop.toNat = t.stop := UInt32.toNat_ofNat_of_lt' (by omega)
    have htext : t.text.toList ≠ [] := by
      intro hnil
      simp only [Token.stop, Token.span, Span.ofLength, hnil, utf8Length_nil] at hnonempty
      omega
    have hlater : Tiles (Bytes.ofToken t).stop.toNat d.rest (d.tokens.map Bytes.ofToken) := by
      rw [hstopNat, hstops]
      exact ih (by omega)
    have htiles := Tiles.lexeme hskipped htext htakes.kind (by rw [hstartNat, hstart])
      (by rw [hstopNat, hstartNat]; rfl) hlater
    rwa [← hrest] at htiles

/-! ## The calls of the scanner -/

/-- What the calls of the scanner give, one after the other: the tokens `ts`, and from then on the
end of the source. Between the tokens there is only text that stands for nothing. -/
structure ScansLosslessly (source : String) (ts : List Bytes.Lexed) : Prop where
  tokens : ∀ n (h : n < ts.length), Bytes.call source n = .ok (ts[n], ts[n].stop)
  ends : ∃ last : UInt32, last.toNat = utf8Length source.toList ∧
    ∀ n, ts.length ≤ n → Bytes.call source n = .ok (⟨.eof, last, last⟩, last)
  kinds : ∀ t ∈ ts, t.kind ≠ .eof
  nonempty : ∀ t ∈ ts, t.start.toNat < t.stop.toNat
  ordered : ts.Pairwise fun t u => t.stop.toNat ≤ u.start.toNat
  boundaries : ∀ t ∈ ts, (splitAtByte? t.start.toNat source.toList).isSome ∧
    (splitAtByte? t.stop.toNat source.toList).isSome
  tiles : Tiles 0 source.toList ts

theorem Bytes.fits_of_le {source : String} (h : utf8Length source.toList ≤ UInt32.size - 4) :
    Fits source := by
  have hsize : 4 ≤ UInt32.size := by decide
  unfold Fits
  omega

theorem call_of_lt {source : String} (hfits : Bytes.Fits source) {n : Nat}
    (h : n < (tokenize source).length) : Bytes.call source n =
      .ok (Bytes.ofToken (tokenize source)[n], .ofNat (tokenize source)[n].stop) := by
  have hdrop : ((Cursor.ofSource source).after n).tokens =
      (tokenize source)[n] :: (tokenize source).drop (n + 1) := by
    rw [Cursor.tokens_after, ← List.drop_eq_getElem_cons h]
    rfl
  obtain ⟨htoken, hoffset⟩ := Cursor.next_of_tokens hdrop
  rw [Bytes.call_eq hfits, htoken, Cursor.after, hoffset]

theorem call_of_le {source : String} (hfits : Bytes.Fits source) {n : Nat}
    (h : (tokenize source).length ≤ n) : Bytes.call source n =
      .ok (⟨.eof, .ofNat (utf8Length source.toList), .ofNat (utf8Length source.toList)⟩,
        .ofNat (utf8Length source.toList)) := by
  have hdrop : ((Cursor.ofSource source).after n).tokens = [] := by
    rw [Cursor.tokens_after]
    exact List.drop_eq_nil_of_le h
  obtain ⟨htoken, hoffset⟩ := Cursor.next_of_tokens_nil hdrop
  rw [Bytes.call_eq hfits, htoken, Cursor.after, hoffset, Cursor.stop_after, Cursor.stop_ofSource]
  rfl

/-- The scanner drops and doubles no byte of its source. -/
theorem scansLosslessly {source : String} (h : utf8Length source.toList ≤ UInt32.size - 4) :
    ScansLosslessly source ((tokenize source).map Bytes.ofToken) := by
  have hfits := Bytes.fits_of_le h
  have hlast := hfits.toNat_ofNat (Nat.le_refl _)
  have htiles : Tiles 0 source.toList ((tokenize source).map Bytes.ofToken) :=
    Cursor.tiles (c := .ofSource source) (by rw [Cursor.stop_ofSource]; exact hfits.lt_size)
  have hwhole : source.toList = [] ++ source.toList := rfl
  refine ⟨fun n hn => ?_, ⟨_, hlast, fun n hn => ?_⟩, htiles.kind_ne_eof,
    fun t ht => (htiles.lt_of_mem t ht).2, htiles.pairwise, htiles.splitAtByte? hwhole rfl, htiles⟩
  · rw [List.length_map] at hn
    rw [call_of_lt hfits hn, List.getElem_map]
    rfl
  · rw [List.length_map] at hn
    exact call_of_le hfits hn

theorem scansLosslessly_of_query :
    ScansLosslessly "\uFEFF\x7b é(n: \"ü\\é\") # ä\n\x7d"
      ((tokenize "\uFEFF\x7b é(n: \"ü\\é\") # ä\n\x7d").map Bytes.ofToken) :=
  scansLosslessly (by decide)

end QueryBatch
