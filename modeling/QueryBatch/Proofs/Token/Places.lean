import QueryBatch.Proofs.Token.Words

/-!
# The places of tokens

Tokens follow each other in the source: each of them ends after the one before it, and none ends
after the source does. Main statements:

* `Cursor.Takes`, `Cursor.takes_of_next?`: a cursor that gives a token goes on by at least one byte;
* `Cursor.stop_of_mem_tokens`: the tokens from a place on end after it, and within the source;
* `Cursor.offset_next`, `Cursor.offset_after_succ`: behind the next token, the place is told by the
  tokens that are left;
* `Cursor.headStop_lt`: using tokens moves that place on.
-/

namespace QueryBatch

open Text

namespace Cursor

/-- The offset of the end of the text that a cursor stands in. -/
def stop (c : Cursor) : Nat := c.offset + utf8Length c.rest

theorem stop_ofSource (source : String) : (ofSource source).stop = utf8Length source.toList :=
  Nat.zero_add _

theorem stop_skip (c : Cursor) (n : Nat) : (c.skip n).stop = c.stop := by
  have hlen : utf8Length (c.rest.take n) + utf8Length (c.rest.drop n) = utf8Length c.rest := by
    rw [← utf8Length_append, List.take_append_drop]
  rw [stop, stop, skip, Nat.add_assoc, hlen]

theorem offset_le_skip (c : Cursor) (n : Nat) : c.offset ≤ (c.skip n).offset := Nat.le_add_right ..

/-! ## One token -/

/-- From the place `c`, the next token is `t`, and behind it is the place `d`. -/
structure Takes (c : Cursor) (t : Token) (d : Cursor) : Prop where
  kind : t.kind ≠ .eof
  starts : c.offset ≤ t.start
  nonempty : t.start < t.stop
  stops : t.stop = d.offset
  remains : d.stop = c.stop

theorem Takes.offset_lt {c d : Cursor} {t : Token} (h : c.Takes t d) : c.offset < d.offset := by
  have := h.starts
  have := h.nonempty
  have := h.stops
  omega

theorem takes_of_next? {c d : Cursor} {t : Token} (h : c.next? = some (t, d)) : c.Takes t d := by
  obtain ⟨first, cs, hrest, rfl, rfl⟩ := next?_eq_some_iff.1 h
  have hfirst := Char.utf8Size_pos first
  refine ⟨kind_scan_ne_eof first cs, c.offset_le_skip _, ?_, ?_, ?_⟩
  · simp only [Token.stop, Token.span, Span.ofLength, String.toList_ofList, utf8Length_cons]
    omega
  · simp only [Token.stop, Token.span, Span.ofLength, String.toList_ofList, skip, hrest,
      List.take_succ_cons]
  · rw [stop_skip, skipGap, stop_skip]

/-- Where no token follows, everything is stepped over. -/
theorem rest_next_of_next? {c : Cursor} (h : c.next? = none) : c.next.2.rest = [] := by
  rw [next, h]
  exact next?_eq_none_iff.1 h

theorem stop_next (c : Cursor) : c.next.2.stop = c.stop := by
  cases h : c.next? with
  | none =>
    rw [next, h]
    exact c.stop_skip _
  | some pair =>
    rw [next, h]
    exact (takes_of_next? h).remains

theorem offset_next_of_next? {c : Cursor} (h : c.next? = none) : c.next.2.offset = c.stop := by
  rw [← c.stop_next, stop, rest_next_of_next? h]
  rfl

/-! ## All tokens -/

theorem tokens_of_next?_none {c : Cursor} (h : c.next? = none) : c.tokens = [] := by
  rw [tokens]
  split
  · rfl
  · rename_i hsome
    rw [hsome] at h
    cases h

theorem stop_of_mem_tokens {c : Cursor} {t : Token} (h : t ∈ c.tokens) :
    c.offset < t.stop ∧ t.stop ≤ c.stop := by
  fun_induction tokens c with
  | case1 c hnone => cases h
  | case2 c u d hsome ih =>
    have htakes := takes_of_next? hsome
    have hd : d.offset ≤ d.stop := Nat.le_add_right ..
    have hstarts := htakes.offset_lt
    have hstops := htakes.stops
    have hremains := htakes.remains
    rcases List.mem_cons.1 h with rfl | hmore
    · omega
    · have hlater := ih hmore
      omega

/-- The tokens end one after the other. -/
theorem pairwise_tokens (c : Cursor) : c.tokens.Pairwise fun t u => t.stop < u.stop := by
  fun_induction tokens c with
  | case1 c hnone => exact List.Pairwise.nil
  | case2 c t d hsome ih =>
    refine List.pairwise_cons.2 ⟨fun u hu => ?_, ih⟩
    rw [(takes_of_next? hsome).stops]
    exact (stop_of_mem_tokens hu).1

end Cursor

/-! ## The place behind the next token -/

/-- The place behind the first of some tokens that a text ends with; `last` is where it ends. -/
def headStop (last : Nat) : List Token → Nat
  | [] => last
  | t :: _ => t.stop

namespace Cursor

/-- The place behind the next token is known from the tokens that are left. -/
theorem offset_next (c : Cursor) : c.next.2.offset = headStop c.stop c.tokens := by
  cases h : c.next? with
  | none => rw [offset_next_of_next? h, tokens_of_next?_none h, headStop]
  | some pair =>
    obtain ⟨t, d⟩ := pair
    rw [tokens_of_next? h, headStop, (takes_of_next? h).stops, next, h]
    rfl

/-- Where some tokens have been used, the place behind the next token is further on. -/
theorem headStop_lt {c : Cursor} {t u : Token} {ts us : List Token} (h : t :: ts <:+ c.tokens)
    (hus : u :: us <:+ ts) : headStop c.stop (t :: ts) < headStop c.stop (u :: us) := by
  have hpairs := c.pairwise_tokens.sublist h.sublist
  exact (List.pairwise_cons.1 hpairs).1 u (hus.subset List.mem_cons_self)

/-! ## The places of a run -/

/-- The place behind `n` tokens. -/
def after (c : Cursor) : Nat → Cursor
  | 0 => c
  | n + 1 => (c.after n).next.2

theorem tokens_next (c : Cursor) : c.next.2.tokens = c.tokens.tail := by
  cases h : c.next? with
  | none => rw [tokens_of_next?_none h, tokens_of_end (by rw [rest_next_of_next? h]; rfl)]; rfl
  | some pair =>
    rw [tokens_of_next? h, next, h]
    rfl

theorem tokens_after (c : Cursor) (n : Nat) : (c.after n).tokens = c.tokens.drop n := by
  induction n with
  | zero => rfl
  | succ n ih => rw [after, tokens_next, ih, List.tail_drop]

theorem stop_after (c : Cursor) (n : Nat) : (c.after n).stop = c.stop := by
  induction n with
  | zero => rfl
  | succ n ih => rw [after, stop_next, ih]

/-- The first of the tokens from a place on is the next one. -/
theorem next_of_tokens {c : Cursor} {t : Token} {ts : List Token} (h : c.tokens = t :: ts) :
    c.next.1 = t ∧ c.next.2.offset = t.stop := by
  cases hnext : c.next? with
  | none =>
    rw [tokens_of_next?_none hnext] at h
    cases h
  | some pair =>
    rw [tokens_of_next? hnext] at h
    obtain ⟨rfl, -⟩ := List.cons.inj h
    rw [next, hnext]
    exact ⟨rfl, (takes_of_next? hnext).stops.symm⟩

/-- Where there are no more tokens, the end of the source is next. -/
theorem next_of_tokens_nil {c : Cursor} (h : c.tokens = []) :
    c.next.1 = ⟨.eof, "", c.stop⟩ ∧ c.next.2.offset = c.stop := by
  cases hnext : c.next? with
  | none =>
    have hoffset := offset_next_of_next? hnext
    rw [next, hnext] at hoffset ⊢
    exact ⟨congrArg _ hoffset, hoffset⟩
  | some pair =>
    rw [tokens_of_next? hnext] at h
    cases h

/-- The place behind the next token, where `n` tokens have been used. -/
theorem offset_after_succ (c : Cursor) (n : Nat) :
    (c.after (n + 1)).offset = headStop c.stop (c.tokens.drop n) := by
  rw [after, offset_next, stop_after, tokens_after]

/-! ## Places in a source -/

/-- Where a token follows, the text from a place on is what is stepped over, the token's text and
the text behind it. -/
theorem rest_of_next? {c d : Cursor} {t : Token} (h : c.next? = some (t, d)) :
    c.rest = c.rest.take (gap false c.rest) ++ (t.text.toList ++ d.rest) ∧
      (c.rest.drop (gap false c.rest)).isEmpty = false ∧
      t.start = c.offset + utf8Length (c.rest.take (gap false c.rest)) := by
  obtain ⟨first, cs, hrest, rfl, rfl⟩ := next?_eq_some_iff.1 h
  have hdrop : c.rest.drop (gap false c.rest) = first :: cs := hrest
  refine ⟨?_, by rw [hdrop]; rfl, rfl⟩
  rw [skip, hrest, String.toList_ofList, List.drop_succ_cons, List.cons_append,
    List.take_append_drop, ← hdrop, List.take_append_drop]

/-- A cursor stands at a place in a source, which is not inside a character. -/
def StandsIn (c : Cursor) (source : String) : Prop :=
  ∃ before, source.toList = before ++ c.rest ∧ utf8Length before = c.offset

theorem standsIn_ofSource (source : String) : (ofSource source).StandsIn source := ⟨[], rfl, rfl⟩

namespace StandsIn

variable {c d : Cursor} {t : Token} {source : String}

theorem skip (h : c.StandsIn source) (n : Nat) : (c.skip n).StandsIn source := by
  obtain ⟨before, hsource, hoffset⟩ := h
  refine ⟨before ++ c.rest.take n, ?_, ?_⟩
  · rw [hsource, Cursor.skip, List.append_assoc, List.take_append_drop]
  · rw [utf8Length_append, hoffset, Cursor.skip]

theorem next (h : c.StandsIn source) : c.next.2.StandsIn source := by
  cases hnext : c.next? with
  | none =>
    rw [Cursor.next, hnext]
    exact h.skip _
  | some pair =>
    obtain ⟨first, cs, -, -, hplace⟩ := next?_eq_some_iff.1 hnext
    rw [Cursor.next, hnext]
    exact hplace ▸ (h.skip _).skip _

theorem after (h : c.StandsIn source) (n : Nat) : (c.after n).StandsIn source := by
  induction n with
  | zero => exact h
  | succ n ih => exact ih.next

/-- The text of each token is where its span says. -/
theorem exists_of_mem_tokens (h : c.StandsIn source) (ht : t ∈ c.tokens) :
    ∃ before after, source.toList = before ++ (t.text.toList ++ after) ∧
      utf8Length before = t.start := by
  fun_induction tokens c with
  | case1 c hnone => cases ht
  | case2 c u d hsome ih =>
    rcases List.mem_cons.1 ht with rfl | hmore
    · obtain ⟨before, hsource, hoffset⟩ := h
      obtain ⟨hrest, -, hstart⟩ := rest_of_next? hsome
      refine ⟨before ++ c.rest.take (gap false c.rest), d.rest, ?_, ?_⟩
      · rw [hsource, List.append_assoc, ← hrest]
      · rw [utf8Length_append, hoffset, hstart]
    · have hnext := h.next
      rw [Cursor.next, hsome] at hnext
      exact ih hnext hmore

end StandsIn

end Cursor

end QueryBatch
