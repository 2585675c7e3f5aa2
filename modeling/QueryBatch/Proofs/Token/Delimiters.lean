import QueryBatch.Document.Literal
import QueryBatch.Proofs.Token.Words

/-!
# The quotes of string tokens

A token is a string only if it has been scanned up to its closing quotes, so that these and the
opening ones can be cut off. Main statements:

* `exists_of_scanString`, `exists_of_scanBlockString`: what is scanned ends in the closing quotes;
* `exists_of_kind_string`, `exists_of_kind_blockString`: so a token has the quotes at both ends;
* `Literal.slice?_inner`: cutting them off cuts no character.
-/

namespace QueryBatch

open Text

/-! ## Closing quotes -/

/-- A string that ends is closed by a quote. -/
theorem exists_of_scanString {cs : List Char} (h : (scanString cs).kind = .string) :
    ∃ body, cs.take (scanString cs).extra = body ++ ['"'] := by
  fun_induction scanString cs with
  | case1 | case2 => cases h
  | case3 c cs ih =>
    obtain ⟨body, hbody⟩ := ih h
    refine ⟨'\\' :: c :: body, ?_⟩
    rw [Lexeme.after, Nat.add_comm, List.take_succ_cons, List.take_succ_cons, hbody]
    rfl
  | case4 c cs hlast hescape hquote => exact ⟨[], by rw [eq_of_beq hquote]; rfl⟩
  | case5 => cases h
  | case6 c cs hlast hescape hquote hend ih =>
    obtain ⟨body, hbody⟩ := ih h
    refine ⟨c :: body, ?_⟩
    rw [Lexeme.after, Nat.add_comm, List.take_succ_cons, hbody]
    rfl

/-- A block string that ends is closed by three quotes. -/
theorem exists_of_scanBlockString {cs : List Char} (h : (scanBlockString cs).kind = .blockString) :
    ∃ body, cs.take (scanBlockString cs).extra = body ++ ['"', '"', '"'] := by
  fun_induction scanBlockString cs with
  | case1 => cases h
  | case2 cs => exact ⟨[], rfl⟩
  | case3 cs ih =>
    obtain ⟨body, hbody⟩ := ih h
    refine ⟨'\\' :: '"' :: '"' :: '"' :: body, ?_⟩
    rw [Lexeme.after, Nat.add_comm]
    simp only [List.take_succ_cons, hbody, List.cons_append]
  | case4 c cs hclosing hescape ih =>
    obtain ⟨body, hbody⟩ := ih h
    refine ⟨c :: body, ?_⟩
    rw [Lexeme.after, Nat.add_comm, List.take_succ_cons, hbody]
    rfl

theorem kind_scanString (cs : List Char) : (scanString cs).kind ≠ .blockString := by
  fun_induction scanString cs with
  | case1 | case2 | case4 | case5 =>
    intro h
    cases h
  | case3 c cs ih | case6 c cs _ _ _ _ ih => exact ih

theorem kind_scanBlockString (cs : List Char) : (scanBlockString cs).kind ≠ .string := by
  fun_induction scanBlockString cs with
  | case1 | case2 =>
    intro h
    cases h
  | case3 cs ih | case4 c cs _ _ ih => exact ih

/-! ## Quotes at both ends -/

/-- The lexemes of a kind have quotes. -/
def Kind.isQuoted (kind : Kind) : Bool := kind == .string || kind == .blockString

/-- Only what starts with a quote is a string. -/
theorem isQuoted_scan {first : Char} (h : first ≠ '"') (cs : List Char) :
    (scan first cs).kind.isQuoted = false := by
  unfold scan
  split
  · rfl
  · rw [beq_false_of_ne h, if_neg Bool.false_ne_true]
    split
    · unfold scanSpread
      split <;> rfl
    · split
      · simp only [scanNumber]
        repeat' split
        all_goals rfl
      · split
        · simp only [scanWord, Kind.ofWord]
          split <;> rfl
        · rfl

/-- Three quotes open a block string, and any other quote a string. -/
theorem scanQuoted_cases (cs : List Char) :
    (∃ more, cs = '"' :: '"' :: more ∧ scanQuoted cs = (scanBlockString more).after 2) ∨
      scanQuoted cs = scanString cs := by
  unfold scanQuoted
  split
  · exact .inl ⟨_, rfl, rfl⟩
  · exact .inr rfl

/-- The text of a string has its quotes at both ends, as two different characters. -/
theorem exists_of_kind_string {source : String} {t : Token} (ht : t ∈ tokenize source)
    (h : t.kind = .string) : ∃ body, t.text.toList = ['"'] ++ (body ++ ['"']) := by
  obtain ⟨first, cs, start, rfl⟩ := Cursor.exists_scan_of_mem_tokens ht
  by_cases hquote : first = '"'
  · subst hquote
    replace h : (scanQuoted cs).kind = .string := h
    obtain ⟨body, hbody⟩ : ∃ body, cs.take (scanQuoted cs).extra = body ++ ['"'] := by
      rcases scanQuoted_cases cs with ⟨more, rfl, hblock⟩ | hstring
      · rw [hblock] at h
        exact absurd h (kind_scanBlockString more)
      · rw [hstring] at h ⊢
        exact exists_of_scanString h
    refine ⟨body, ?_⟩
    rw [String.toList_ofList, ← hbody]
    rfl
  · have hscan : (scan first cs).kind.isQuoted = false := isQuoted_scan hquote cs
    rw [show (scan first cs).kind = .string from h] at hscan
    cases hscan

/-- The text of a block string has three quotes at each end, none of which are shared. -/
theorem exists_of_kind_blockString {source : String} {t : Token} (ht : t ∈ tokenize source)
    (h : t.kind = .blockString) :
    ∃ body, t.text.toList = ['"', '"', '"'] ++ (body ++ ['"', '"', '"']) := by
  obtain ⟨first, cs, start, rfl⟩ := Cursor.exists_scan_of_mem_tokens ht
  by_cases hquote : first = '"'
  · subst hquote
    replace h : (scanQuoted cs).kind = .blockString := h
    obtain ⟨body, hbody⟩ : ∃ body, cs.take (scanQuoted cs).extra =
        '"' :: '"' :: (body ++ ['"', '"', '"']) := by
      rcases scanQuoted_cases cs with ⟨more, rfl, hblock⟩ | hstring
      · rw [hblock] at h ⊢
        obtain ⟨body, hbody⟩ := exists_of_scanBlockString h
        refine ⟨body, ?_⟩
        rw [Lexeme.after, Nat.add_comm, List.take_succ_cons, List.take_succ_cons, hbody]
      · rw [hstring] at h
        exact absurd h (kind_scanString cs)
    refine ⟨body, ?_⟩
    rw [String.toList_ofList]
    show '"' :: cs.take (scanQuoted cs).extra = _
    rw [hbody]
    rfl
  · have hscan : (scan first cs).kind.isQuoted = false := isQuoted_scan hquote cs
    rw [show (scan first cs).kind = .blockString from h] at hscan
    cases hscan

/-! ## Cutting the quotes off -/

/-- Where a text has `quotes` at both ends, cutting as many bytes off cuts no character. -/
theorem Literal.slice?_inner {text : String} {quotes body : List Char}
    (h : text.toList = quotes ++ (body ++ quotes)) (hnarrow : utf8Length quotes = quotes.length) :
    slice? quotes.length (utf8Length text.toList - quotes.length) text.toList =
      some (inner quotes.length text) := by
  have hstop : utf8Length text.toList - quotes.length = utf8Length quotes + utf8Length body := by
    simp only [h, utf8Length_append]
    omega
  have hinner : inner quotes.length text = body := by
    have hlength : (quotes ++ (body ++ quotes)).length - 2 * quotes.length = body.length := by
      simp only [List.length_append]
      omega
    rw [inner, h, hlength, List.drop_left, List.take_left]
  rw [hstop, hinner, h, ← slice?_append quotes body quotes, hnarrow]

end QueryBatch
