import Mathlib.Data.List.Induction
import Mathlib.Data.Prod.Lex
import QueryBatch.Proofs.Text.Encoding
import QueryBatch.Proofs.Text.Numeral
import QueryBatch.Source.Diagnostic

/-!
# Positions tell the places of a source apart

Further on in a source, the line is a later one, or it is the same and the column is greater. So no
two places have the same position, and what is shown of a position tells the place. Main statements:

* `Position.lt_advance`, `Position.after_append`: each character moves the position on, and the
  position behind a text is reached character by character;
* `Position.after_eq_ofBytes`: the position is found by counting the line feeds among the bytes and
  searching for the last of them;
* `Position.isSome_ofOffset?_iff`: there is a position between any two characters, and nowhere else;
* `Position.lt_of_ofOffset?`: positions are in the order of the places;
* `Diagnostic.labelLine?_inj`: labels that are shown alike start at the same position;
* `Position.tellsPlaces`: all of this for every source.
-/

namespace QueryBatch

open Text

namespace Position

/-! ## The order of positions -/

/-- The line and the column as a pair, of which the line is compared first. -/
def key (p : Position) : Nat ×ₗ Nat := toLex (p.line, p.column)

theorem key_injective : Function.Injective key := by
  rintro ⟨line, column⟩ ⟨line', column'⟩ h
  simpa [key] using h

/-- Positions in the order of a text: a later line, or in the same line a greater column. -/
instance : LinearOrder Position := LinearOrder.lift' key key_injective

/-- Positions are ordered by lines, and by columns within a line. -/
theorem lt_iff {p q : Position} :
    p < q ↔ p.line < q.line ∨ p.line = q.line ∧ p.column < q.column :=
  Prod.Lex.lt_iff

/-! ## Character by character -/

/-- The position behind one more character. -/
def advance (p : Position) (c : Char) : Position :=
  if c = '\n' then ⟨p.line + 1, 1⟩ else ⟨p.line, p.column + c.utf8Size⟩

/-- Each character moves the position on. -/
theorem lt_advance (p : Position) (c : Char) : p < p.advance c := by
  rw [lt_iff, advance]
  split
  · exact .inl (Nat.lt_succ_self p.line)
  · exact .inr ⟨rfl, Nat.lt_add_of_pos_right c.utf8Size_pos⟩

theorem after_concat (before : List Char) (c : Char) :
    after (before ++ [c]) = (after before).advance c := by
  by_cases hc : c = '\n'
  · simp [after, advance, hc]
  · have hcount : (before ++ [c]).count '\n' = before.count '\n' := by simp [hc]
    have hrun : (before ++ [c]).reverse.takeWhile (· != '\n') =
        c :: before.reverse.takeWhile (· != '\n') := by simp [hc]
    simp only [after, hcount, hrun, utf8Length_cons, advance, if_neg hc]
    congr 1
    omega

/-- The position behind a text, from that in front of its last piece. -/
theorem after_append (before piece : List Char) :
    after (before ++ piece) = piece.foldl advance (after before) := by
  induction piece generalizing before with
  | nil => rw [List.append_nil, List.foldl_nil]
  | cons c piece ih => rw [List.append_cons, ih, after_concat, List.foldl_cons]

theorem le_foldl_advance (p : Position) (piece : List Char) : p ≤ piece.foldl advance p := by
  induction piece generalizing p with
  | nil => exact le_refl p
  | cons c piece ih => exact (p.lt_advance c).le.trans (ih (p.advance c))

/-- More characters before a place give a later position. -/
theorem after_lt_after_append (before : List Char) {piece : List Char} (h : piece ≠ []) :
    after before < after (before ++ piece) := by
  obtain ⟨c, piece, rfl⟩ := List.exists_cons_of_ne_nil h
  rw [after_append, List.foldl_cons]
  exact ((after before).lt_advance c).trans_le (le_foldl_advance _ piece)

/-! ## By two searches through the bytes -/

/-- The place of the last `a`. -/
def lastIdxOf? (a : Char) : List Char → Option Nat
  | [] => none
  | c :: cs => ((lastIdxOf? a cs).map (· + 1)).or (if c = a then some 0 else none)

theorem lastIdxOf?_append (a : Char) (cs ds : List Char) :
    lastIdxOf? a (cs ++ ds) = ((lastIdxOf? a ds).map (cs.length + ·)).or (lastIdxOf? a cs) := by
  induction cs with
  | nil => simp [lastIdxOf?]
  | cons c cs ih =>
    rw [List.cons_append, lastIdxOf?, ih, lastIdxOf?]
    cases lastIdxOf? a ds with
    | none => rfl
    | some n => simp [Nat.add_right_comm]

theorem lastIdxOf?_eq_none {a : Char} {cs : List Char} (h : a ∉ cs) : lastIdxOf? a cs = none := by
  induction cs with
  | nil => rfl
  | cons c cs ih =>
    obtain ⟨hc, hcs⟩ := List.ne_and_not_mem_of_not_mem_cons h
    rw [lastIdxOf?, ih hcs, if_neg (Ne.symm hc)]
    rfl

theorem lt_length_of_lastIdxOf? {a : Char} {cs : List Char} {n : Nat}
    (h : lastIdxOf? a cs = some n) : n < cs.length := by
  induction cs generalizing n with
  | nil => cases h
  | cons c cs ih =>
    rw [lastIdxOf?] at h
    cases hcs : lastIdxOf? a cs with
    | none =>
      obtain ⟨-, rfl⟩ : c = a ∧ 0 = n := by simpa [hcs] using h
      exact Nat.zero_lt_succ _
    | some m =>
      obtain rfl : m + 1 = n := by simpa [hcs] using h
      exact Nat.succ_lt_succ (ih hcs)

/-- The position behind some bytes. The line is told by the number of line feeds, and the column by
the place of the last one, or by the number of all bytes where there is none. -/
def ofBytes (bytes : List Char) : Position where
  line := bytes.count '\n' + 1
  column :=
    match lastIdxOf? '\n' bytes with
    | some newline => bytes.length - newline
    | none => bytes.length + 1

/-- The two searches move on by one character as the walk does. -/
theorem ofBytes_append_encodeChar (bytes : List Char) (c : Char) :
    ofBytes (bytes ++ encodeChar c) = (ofBytes bytes).advance c := by
  by_cases hc : c = '\n'
  · subst hc
    have hbytes : encodeChar '\n' = ['\n'] := encodeChar_of_narrow rfl
    simp [ofBytes, advance, hbytes, lastIdxOf?_append, lastIdxOf?]
  · have hfree : '\n' ∉ encodeChar c := not_mem_encodeChar rfl hc
    have hcount : (encodeChar c).count '\n' = 0 := List.count_eq_zero.2 hfree
    have hlast : lastIdxOf? '\n' (bytes ++ encodeChar c) = lastIdxOf? '\n' bytes := by
      rw [lastIdxOf?_append, lastIdxOf?_eq_none hfree, Option.map_none, Option.none_or]
    simp only [ofBytes, advance, if_neg hc, hlast, List.count_append, hcount, Nat.add_zero,
      List.length_append, length_encodeChar, mk.injEq, true_and]
    cases hplace : lastIdxOf? '\n' bytes with
    | none => exact Nat.add_right_comm ..
    | some newline => exact Nat.sub_add_comm (lt_length_of_lastIdxOf? hplace).le

/-- Walking through the characters and searching the bytes give the same position. -/
theorem after_eq_ofBytes (before : List Char) : after before = ofBytes (encode before) := by
  induction before using List.reverseRecOn with
  | nil => rfl
  | append_singleton before c ih =>
    rw [after_concat, ih, encode_append, encode_cons, encode_nil, List.append_nil,
      ofBytes_append_encodeChar]

/-! ## The places that have a position -/

variable {source : String} {offset a b : Nat} {p q : Position}

/-- A place has a position if it is between two characters, and places behind the end have that of
the end. -/
theorem ofOffset?_eq_some_iff : ofOffset? source offset = some p ↔
    ∃ before rest, source.toList = before ++ rest ∧
      utf8Length before = min offset source.utf8ByteSize ∧ after before = p := by
  rw [ofOffset?, Option.map_eq_some_iff, utf8ByteSize_eq]
  constructor
  · rintro ⟨⟨before, rest⟩, hsplit, rfl⟩
    obtain ⟨hsource, hlength⟩ := eq_append_of_splitAtByte? hsplit
    exact ⟨before, rest, hsource, hlength, rfl⟩
  · rintro ⟨before, rest, hsource, hlength, rfl⟩
    rw [← hlength, hsource, splitAtByte?_append]
    exact ⟨_, rfl, rfl⟩

theorem isSome_ofOffset?_iff : (ofOffset? source offset).isSome ↔
    (⟨min offset source.utf8ByteSize⟩ : String.Pos.Raw).IsValid source := by
  rw [Option.isSome_iff_exists, String.Pos.Raw.isValid_iff_exists_append]
  constructor
  · rintro ⟨p, h⟩
    obtain ⟨before, rest, hsource, hlength, -⟩ := ofOffset?_eq_some_iff.1 h
    refine ⟨String.ofList before, String.ofList rest, ?_, String.Pos.Raw.ext ?_⟩
    · rw [← String.ofList_append, ← hsource, String.ofList_toList]
    · rw [String.byteIdx_rawEndPos, utf8ByteSize_ofList, hlength]
  · rintro ⟨before, rest, rfl, hlength⟩
    refine ⟨after before.toList, ofOffset?_eq_some_iff.2
      ⟨before.toList, rest.toList, String.toList_append, ?_, rfl⟩⟩
    rw [← utf8ByteSize_eq]
    exact (congrArg String.Pos.Raw.byteIdx hlength).symm

example : ofOffset? "é\n" 1 = none ∧ ofOffset? "é\n" 2 = some ⟨1, 3⟩ ∧
    ofOffset? "é\n" 3 = some ⟨2, 1⟩ := by
  decide

theorem exists_ofOffset? (h : (⟨offset⟩ : String.Pos.Raw).IsValid source) :
    ∃ p, ofOffset? source offset = some p := by
  rw [← Option.isSome_iff_exists, isSome_ofOffset?_iff, Nat.min_eq_left h.le_utf8ByteSize]
  exact h

theorem eq_ofBytes_of_ofOffset? (h : ofOffset? source offset = some p) :
    p = ofBytes ((encode source.toList).take offset) := by
  obtain ⟨before, rest, hsource, hlength, rfl⟩ := ofOffset?_eq_some_iff.1 h
  rw [utf8ByteSize_eq, ← length_encode, ← length_encode] at hlength
  rw [List.take_eq_take_min, ← hlength, hsource, encode_append, List.take_left, after_eq_ofBytes]

theorem lt_of_ofOffset? (ha : ofOffset? source a = some p) (hb : ofOffset? source b = some q)
    (hlt : min a source.utf8ByteSize < min b source.utf8ByteSize) : p < q := by
  obtain ⟨before, rest, hbefore, hlength, rfl⟩ := ofOffset?_eq_some_iff.1 ha
  obtain ⟨more, rest', hmore, hlength', rfl⟩ := ofOffset?_eq_some_iff.1 hb
  rw [← hlength, ← hlength'] at hlt
  -- Both texts start the source, so the one with fewer bytes starts the other.
  have hprefix : before <+: source.toList := ⟨rest, hbefore.symm⟩
  rcases List.prefix_or_prefix_of_prefix hprefix ⟨rest', hmore.symm⟩ with ⟨piece, rfl⟩ | ⟨piece, rfl⟩
  · refine after_lt_after_append before ?_
    rintro rfl
    simp at hlt
  · rw [utf8Length_append] at hlt
    omega

/-- Different places have different positions. -/
theorem eq_of_ofOffset? (ha : ofOffset? source a = some p) (hb : ofOffset? source b = some p) :
    min a source.utf8ByteSize = min b source.utf8ByteSize := by
  rcases Nat.lt_trichotomy (min a source.utf8ByteSize) (min b source.utf8ByteSize) with
    hlt | heq | hgt
  · exact absurd (lt_of_ofOffset? ha hb hlt) (lt_irrefl p)
  · exact heq
  · exact absurd (lt_of_ofOffset? hb ha hgt) (lt_irrefl p)

end Position

/-! ## What is shown of a position -/

namespace Diagnostic

/-- A line and a column are told from the message behind them. -/
theorem shown_inj {p q : Position} {message message' : String}
    (h : toString p.line ++ (":" ++ (toString p.column ++ (": " ++ message))) =
      toString q.line ++ (":" ++ (toString q.column ++ (": " ++ message')))) :
    p = q ∧ message = message' := by
  have hmark : ∀ {mark : String} (text : String), mark.toList.head? = some ':' →
      ∀ c ∈ (mark ++ text).toList.head?, c.isDigit = false := by
    intro mark text hhead c hc
    rw [String.toList_append, List.head?_append, hhead] at hc
    obtain rfl : ':' = c := Option.some.inj hc
    rfl
  obtain ⟨hline, hrest⟩ := toString_append_inj (hmark _ rfl) (hmark _ rfl) h
  obtain ⟨hcolumn, hmessage⟩ :=
    toString_append_inj (hmark _ rfl) (hmark _ rfl) ((String.append_right_inj _).1 hrest)
  refine ⟨Position.key_injective ?_, (String.append_right_inj _).1 hmessage⟩
  rw [Position.key, Position.key, hline, hcolumn]

theorem labelLine?_inj {source source' line : String} {l l' : Label}
    (h : labelLine? source l = some line) (h' : labelLine? source' l' = some line) :
    ∃ p, Position.ofOffset? source l.span.start = some p ∧
      Position.ofOffset? source' l'.span.start = some p ∧ l.message = l'.message := by
  obtain ⟨p, hp, rfl⟩ := Option.map_eq_some_iff.1 h
  obtain ⟨q, hq, hshown⟩ := Option.map_eq_some_iff.1 h'
  simp only [String.append_assoc, String.append_right_inj] at hshown
  obtain ⟨rfl, hmessage⟩ := shown_inj hshown
  exact ⟨q, hp, hq, hmessage.symm⟩

end Diagnostic

namespace Position

/-! ## Every source -/

/-- The positions of a source are in the order of its places, and so they tell them apart. -/
structure TellsPlaces (source : String) : Prop where
  /-- There is a position at each boundary of characters, and only there. For a place past the end,
  the end counts. -/
  isSome_iff : ∀ offset, (ofOffset? source offset).isSome ↔
    (⟨min offset source.utf8ByteSize⟩ : String.Pos.Raw).IsValid source
  /-- The position is found by two searches through the bytes in front of the place. -/
  bytes : ∀ offset p, ofOffset? source offset = some p →
    p = ofBytes ((encode source.toList).take offset)
  one_le : ∀ offset p, ofOffset? source offset = some p → 1 ≤ p.line ∧ 1 ≤ p.column
  lt : ∀ a b, a < b → b ≤ source.utf8ByteSize →
    (⟨a⟩ : String.Pos.Raw).IsValid source → (⟨b⟩ : String.Pos.Raw).IsValid source →
    ∃ p q, ofOffset? source a = some p ∧ ofOffset? source b = some q ∧ p < q
  stop : ∃ p, ∀ offset, source.utf8ByteSize ≤ offset → ofOffset? source offset = some p
  inj : ∀ a b p, ofOffset? source a = some p → ofOffset? source b = some p →
    min a source.utf8ByteSize = min b source.utf8ByteSize
  /-- What is shown of a label tells where it starts, too. -/
  label : ∀ l l' line, Diagnostic.labelLine? source l = some line →
    Diagnostic.labelLine? source l' = some line →
    min l.span.start source.utf8ByteSize = min l'.span.start source.utf8ByteSize ∧
      l.message = l'.message

theorem tellsPlaces (source : String) : TellsPlaces source where
  isSome_iff _ := isSome_ofOffset?_iff
  bytes _ _ := eq_ofBytes_of_ofOffset?
  one_le _ _ h := by
    obtain ⟨before, _, _, _, rfl⟩ := ofOffset?_eq_some_iff.1 h
    exact ⟨Nat.succ_pos _, Nat.succ_pos _⟩
  lt a b hlt hle ha hb := by
    obtain ⟨p, hp⟩ := exists_ofOffset? ha
    obtain ⟨q, hq⟩ := exists_ofOffset? hb
    refine ⟨p, q, hp, hq, lt_of_ofOffset? hp hq ?_⟩
    rwa [Nat.min_eq_left (hlt.le.trans hle), Nat.min_eq_left hle]
  stop := ⟨after source.toList, fun _ hle => ofOffset?_of_length_le (utf8ByteSize_eq source ▸ hle)⟩
  inj _ _ _ := eq_of_ofOffset?
  label l l' line h h' := by
    obtain ⟨p, hp, hp', hmessage⟩ := Diagnostic.labelLine?_inj h h'
    exact ⟨eq_of_ofOffset? hp hp', hmessage⟩

end Position

end QueryBatch
