import QueryBatch.Proofs.Text.Numeral
import QueryBatch.Token.Scan

/-!
# Spellings

The spelling of a token is what it is apart from its place: its kind and its text. Main statements:

* `map_spelling_tokens`: how the tokens of a text are spelled does not depend on what stands before
  the text;
* `spellings_ignored`, `spellings_lexeme`: the two steps in which the spellings of a text are found;
* `spellings_mark`, `spellings_word`: a punctuator ends where it ends, and a word where a character
  follows that closes it.
-/

namespace QueryBatch

open Text

/-- What a token is apart from its place. -/
structure Spelling where
  kind : Kind
  text : String
  deriving DecidableEq, Repr

def Token.spelling (t : Token) : Spelling := ⟨t.kind, t.text⟩

namespace Spelling

def mark (m : Punctuator) : Spelling := ⟨.punctuator m, m.text⟩

/-- The spelling of a name or of a keyword. -/
def word (name : String) : Spelling := ⟨.ofWord name, name⟩

end Spelling

/-- The spellings of the tokens of a text. -/
def spellings (cs : List Char) : List Spelling := (Cursor.mk 0 cs).tokens.map Token.spelling

/-! ## Steps -/

theorem Cursor.tokens_of_next? {c d : Cursor} {t : Token} (h : c.next? = some (t, d)) :
    c.tokens = t :: d.tokens := by
  rw [tokens]
  split
  · rename_i hnone
    rw [hnone] at h
    cases h
  · rename_i u e hsome
    obtain ⟨rfl, rfl⟩ := Prod.mk.inj (Option.some.inj (hsome.symm.trans h))
    rfl

theorem Cursor.tokens_of_end {c : Cursor} (h : c.rest.drop (gap false c.rest) = []) :
    c.tokens = [] := tokens_eq_nil_iff.2 h

theorem Cursor.tokens_of_lexeme {c : Cursor} {first : Char} {cs : List Char}
    (h : c.rest.drop (gap false c.rest) = first :: cs) :
    c.tokens = ⟨(scan first cs).kind, String.ofList (first :: cs.take (scan first cs).extra),
        c.skipGap.offset⟩ :: (c.skipGap.skip ((scan first cs).extra + 1)).tokens := by
  rw [tokens_of_next? (next?_eq_some_iff.2 ⟨first, cs, h, rfl, rfl⟩)]

theorem Cursor.rest_skip_skipGap {c : Cursor} {first : Char} {cs : List Char}
    (h : c.rest.drop (gap false c.rest) = first :: cs) (n : Nat) :
    (c.skipGap.skip (n + 1)).rest = cs.drop n := by
  show (c.rest.drop (gap false c.rest)).drop (n + 1) = cs.drop n
  rw [h, List.drop_succ_cons]

/-- Cursors before the same text, and before texts with the same rest after the gap, give tokens
with the same spellings. -/
theorem map_spelling_congr {c d : Cursor}
    (h : c.rest.drop (gap false c.rest) = d.rest.drop (gap false d.rest)) :
    c.tokens.map Token.spelling = d.tokens.map Token.spelling := by
  cases hc : c.rest.drop (gap false c.rest) with
  | nil => rw [Cursor.tokens_of_end hc, Cursor.tokens_of_end (h ▸ hc)]
  | cons first cs =>
    have hd := h ▸ hc
    rw [Cursor.tokens_of_lexeme hc, Cursor.tokens_of_lexeme hd, List.map_cons, List.map_cons]
    have hrest : (c.skipGap.skip ((scan first cs).extra + 1)).rest =
        (d.skipGap.skip ((scan first cs).extra + 1)).rest := by
      rw [Cursor.rest_skip_skipGap hc, Cursor.rest_skip_skipGap hd]
    have hshort := Cursor.rest_skip_skipGap hc (scan first cs).extra
    exact congrArg (List.cons _) (map_spelling_congr (by rw [hrest]))
termination_by c.rest.length
decreasing_by
  have hlen := congrArg List.length hc
  rw [List.length_drop, List.length_cons] at hlen
  rw [hshort, List.length_drop]
  omega

theorem map_spelling_tokens (c : Cursor) : c.tokens.map Token.spelling = spellings c.rest :=
  map_spelling_congr rfl

theorem map_spelling_tokenize (source : String) :
    (tokenize source).map Token.spelling = spellings source.toList :=
  map_spelling_tokens _

@[simp] theorem spellings_nil : spellings [] = [] := by
  rw [spellings, Cursor.tokens_of_end rfl, List.map_nil]

/-- Blanks, commas and byte order marks are stepped over. -/
theorem spellings_ignored {c : Char} (h : isIgnored c = true) (cs : List Char) :
    spellings (c :: cs) = spellings cs := by
  refine map_spelling_congr ?_
  have hgap : gap false (c :: cs) = gap false cs + 1 := by
    have hc : (c == '#') = false := by
      rw [beq_eq_false_iff_ne]
      rintro rfl
      revert h
      decide
    rw [gap, Bool.false_or, hc, h]
    split <;> rfl
  rw [hgap, List.drop_succ_cons]

/-- A character starts a lexeme if it is neither stepped over nor opens a comment. -/
def startsLexeme (c : Char) : Bool := !isIgnored c && c != '#'

theorem gap_of_startsLexeme {first : Char} (h : startsLexeme first = true) (cs : List Char) :
    gap false (first :: cs) = 0 := by
  simp only [startsLexeme, isIgnored, Bool.and_eq_true, Bool.not_eq_true', Bool.or_eq_false_iff,
    bne_iff_ne] at h
  simp [gap, isIgnored, h]

theorem spellings_lexeme {first : Char} (h : startsLexeme first = true) (cs : List Char) :
    spellings (first :: cs) =
      ⟨(scan first cs).kind, String.ofList (first :: cs.take (scan first cs).extra)⟩ ::
        spellings (cs.drop (scan first cs).extra) := by
  have hgap : (first :: cs).drop (gap false (first :: cs)) = first :: cs := by
    rw [gap_of_startsLexeme h, List.drop_zero]
  rw [spellings, Cursor.tokens_of_lexeme hgap, List.map_cons, map_spelling_tokens,
    Cursor.rest_skip_skipGap hgap]
  rfl

/-- A lexeme with a known end is one spelling. -/
theorem spellings_of_scan {first : Char} {more rest : List Char} {kind : Kind}
    (h : startsLexeme first = true) (hscan : scan first (more ++ rest) = ⟨kind, more.length⟩) :
    spellings (first :: more ++ rest) =
      ⟨kind, String.ofList (first :: more)⟩ :: spellings rest := by
  rw [List.cons_append, spellings_lexeme h, hscan, List.take_left, List.drop_left]

/-! ## Punctuators -/

/-- The character of a punctuator that has only one. -/
theorem text_of_ofChar? {c : Char} {m : Punctuator} (h : Punctuator.ofChar? c = some m) :
    m.text = String.ofList [c] ∧ startsLexeme c = true := by
  unfold Punctuator.ofChar? at h
  split at h <;> first | cases h; decide | cases h

@[simp] theorem spellings_mark {c : Char} {m : Punctuator} (h : Punctuator.ofChar? c = some m)
    (cs : List Char) : spellings (c :: cs) = .mark m :: spellings cs := by
  obtain ⟨htext, hstart⟩ := text_of_ofChar? h
  have hscan : scan c ([] ++ cs) = ⟨.punctuator m, ([] : List Char).length⟩ := by
    rw [scan, h]
    rfl
  rw [← List.nil_append cs, ← List.cons_append, spellings_of_scan hstart hscan, ← htext]
  rfl

/-! ## Words -/

/-- A text closes the lexeme before it if it cannot be taken for more of a word, a number or a
string. -/
def Closes (cs : List Char) : Prop :=
  ∀ c ∈ cs.head?, isNameChar c = false ∧ c ≠ '.' ∧ c ≠ '"'

/-- A name of the query language. -/
def isWord (name : String) : Bool :=
  match name.toList with
  | [] => false
  | c :: cs => isNameStart c && cs.all isNameChar

/-- A character that passes a test is none that does not. -/
theorem beq_of_test {p : Char → Bool} {c d : Char} (hc : p c = true) (hd : p d = false) :
    (c == d) = false := by
  rw [beq_eq_false_iff_ne]
  rintro rfl
  rw [hc] at hd
  cases hd

theorem toNat_of_isAlpha {c : Char} (h : c.isAlpha = true) : 65 ≤ c.toNat ∧ c.toNat ≤ 122 := by
  rcases Bool.or_eq_true_iff.1 h with hupper | hlower
  · obtain ⟨hlow, hhigh⟩ := of_decide_eq_true hupper
    exact ⟨hlow, Nat.le_trans hhigh (by decide)⟩
  · obtain ⟨hlow, hhigh⟩ := Bool.and_eq_true_iff.1 hlower
    exact ⟨Nat.le_trans (by decide) (of_decide_eq_true hlow), of_decide_eq_true hhigh⟩

/-- No name starts with a digit, as all letters come after the digits. -/
theorem isDigit_of_isNameStart {c : Char} (h : isNameStart c = true) : c.isDigit = false := by
  rw [Bool.eq_false_iff]
  intro hdigit
  obtain ⟨-, hc⟩ := Char.isDigit_iff_toNat.1 hdigit
  have hnine : '9'.toNat = 57 := rfl
  rcases Bool.or_eq_true_iff.1 h with halpha | hscore
  · have hletter := toNat_of_isAlpha halpha
    omega
  · rw [beq_iff_eq.1 hscore] at hdigit
    revert hdigit
    decide

theorem ofChar?_of_isNameStart {c : Char} (h : isNameStart c = true) :
    Punctuator.ofChar? c = none := by
  unfold Punctuator.ofChar?
  split <;> first | rfl | cases h

/-- No other lexeme starts as a word does. -/
theorem scan_of_isNameStart {first : Char} (h : isNameStart first = true) (cs : List Char) :
    startsLexeme first = true ∧ scan first cs = scanWord first cs := by
  have hne : ∀ c, isNameStart c = false → (first == c) = false := fun c => beq_of_test h
  constructor
  · simp only [startsLexeme, isIgnored, isLineEnd, hne ' ' rfl, hne '\t' rfl, hne ',' rfl,
      hne '\uFEFF' rfl, hne '\n' rfl, hne '\r' rfl, bne, hne '#' rfl, Bool.or_self, Bool.not_false,
      Bool.and_self]
  · simp only [scan, ofChar?_of_isNameStart h, hne '.' rfl, hne '"' rfl, hne '-' rfl,
      isDigit_of_isNameStart h, h, Bool.false_eq_true, if_false, if_true, Bool.or_self]

theorem spellings_word {name : String} (h : isWord name = true) {rest : List Char}
    (hrest : Closes rest) : spellings (name.toList ++ rest) = .word name :: spellings rest := by
  unfold isWord at h
  split at h
  · cases h
  · rename_i first more hname
    obtain ⟨hfirst, hmore⟩ := Bool.and_eq_true_iff.1 h
    obtain ⟨hstart, hscan⟩ := scan_of_isNameStart hfirst (more ++ rest)
    have htake : (more ++ rest).takeWhile isNameChar = more :=
      takeWhile_append_of_head (List.all_eq_true.1 hmore) fun c hc => (hrest c hc).1
    have hword : scan first (more ++ rest) =
        ⟨.ofWord (String.ofList (first :: more)), more.length⟩ := by
      simp only [hscan, scanWord, htake]
    rw [hname, spellings_of_scan hstart hword, ← hname, String.ofList_toList]
    rfl

end QueryBatch
