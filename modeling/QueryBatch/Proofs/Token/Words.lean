import QueryBatch.Proofs.Token.Spelling

/-!
# The words of a source

Main statements:

* `scan_of_isName`: no lexeme but a word may stand where a name is asked for;
* `kind_scan_ne_eof`: no lexeme is taken for the end of the source;
* `namesWord_of_mem_tokenize`: where a token of a source may stand for a name, its text is a word,
  and its kind is that of the word;
* `isWord_append`: a word is continued by characters of names.
-/

namespace QueryBatch

/-! ## Lexemes that are no words -/

/-- A kind of lexemes that may not stand where a name is asked for. -/
def Kind.Wordless (kind : Kind) : Prop := kind.isName = false ∧ kind ≠ .eof

theorem wordless_scanString (cs : List Char) : (scanString cs).kind.Wordless := by
  fun_induction scanString cs with
  | case1 | case2 | case4 | case5 => exact ⟨rfl, nofun⟩
  | case3 c cs ih | case6 c cs _ _ _ _ ih => exact ih

theorem wordless_scanBlockString (cs : List Char) : (scanBlockString cs).kind.Wordless := by
  fun_induction scanBlockString cs with
  | case1 | case2 => exact ⟨rfl, nofun⟩
  | case3 cs ih | case4 c cs _ _ ih => exact ih

theorem wordless_scanQuoted (cs : List Char) : (scanQuoted cs).kind.Wordless := by
  unfold scanQuoted
  split
  · exact wordless_scanBlockString _
  · exact wordless_scanString _

theorem wordless_scanSpread (cs : List Char) : (scanSpread cs).kind.Wordless := by
  unfold scanSpread
  split <;> exact ⟨rfl, nofun⟩

theorem wordless_scanNumber (first : Char) (cs : List Char) :
    (scanNumber first cs).kind.Wordless := by
  simp only [scanNumber]
  repeat' split
  all_goals exact ⟨rfl, nofun⟩

/-- Only what starts like a name is a word. -/
theorem wordless_scan {first : Char} (h : isNameStart first = false) (cs : List Char) :
    (scan first cs).kind.Wordless := by
  unfold scan
  split
  · exact ⟨rfl, nofun⟩
  · repeat' split
    · exact wordless_scanSpread cs
    · exact wordless_scanQuoted cs
    · exact wordless_scanNumber first cs
    · rename_i hstart
      rw [h] at hstart
      cases hstart
    · exact ⟨rfl, nofun⟩

/-! ## Words -/

/-- A token that may be a name was scanned as a word. -/
theorem scan_of_isName {first : Char} {cs : List Char}
    (h : (scan first cs).kind.isName = true) :
    isNameStart first = true ∧ scan first cs = scanWord first cs := by
  cases hstart : isNameStart first with
  | true => exact ⟨rfl, (scan_of_isNameStart hstart cs).2⟩
  | false =>
    rw [(wordless_scan hstart cs).1] at h
    cases h

/-- The end of the source is no lexeme. -/
theorem kind_scan_ne_eof (first : Char) (cs : List Char) : (scan first cs).kind ≠ .eof := by
  cases hstart : isNameStart first with
  | false => exact (wordless_scan hstart cs).2
  | true =>
    have hname : (scan first cs).kind.isName = true := by
      rw [(scan_of_isNameStart hstart cs).2]
      exact Kind.isName_ofWord _
    intro heof
    rw [heof] at hname
    cases hname

/-- If a token may stand for a name, its text is a word, and its kind is that of the word. -/
def Token.NamesWord (t : Token) : Prop :=
  t.kind.isName = true → isWord t.text = true ∧ t.kind = .ofWord t.text

theorem namesWord_of_scan (first : Char) (cs : List Char) (start : Nat) :
    (Token.mk (scan first cs).kind (String.ofList (first :: cs.take (scan first cs).extra))
      start).NamesWord := by
  intro h
  obtain ⟨hfirst, hscan⟩ := scan_of_isName h
  have htake : cs.take (cs.takeWhile isNameChar).length = cs.takeWhile isNameChar :=
    (List.prefix_iff_eq_take.1 (List.takeWhile_prefix isNameChar)).symm
  simp only [hscan, scanWord, htake]
  refine ⟨?_, trivial⟩
  rw [isWord, String.toList_ofList]
  exact Bool.and_eq_true_iff.2 ⟨hfirst, List.all_takeWhile⟩

/-- Every token is a lexeme that is scanned somewhere. -/
theorem Cursor.exists_scan_of_mem_tokens {c : Cursor} {t : Token} (h : t ∈ c.tokens) :
    ∃ first cs start, t = ⟨(scan first cs).kind,
      String.ofList (first :: cs.take (scan first cs).extra), start⟩ := by
  cases hc : c.rest.drop (gap false c.rest) with
  | nil =>
    rw [tokens_of_end hc] at h
    cases h
  | cons first cs =>
    rw [tokens_of_lexeme hc] at h
    have hshort := rest_skip_skipGap hc (scan first cs).extra
    rcases List.mem_cons.1 h with rfl | hmore
    · exact ⟨first, cs, _, rfl⟩
    · exact exists_scan_of_mem_tokens hmore
termination_by c.rest.length
decreasing_by
  have hlen := congrArg List.length hc
  rw [List.length_drop, List.length_cons] at hlen
  rw [hshort, List.length_drop]
  omega

theorem Cursor.namesWord_of_mem_tokens {c : Cursor} {t : Token} (h : t ∈ c.tokens) :
    t.NamesWord := by
  obtain ⟨first, cs, start, rfl⟩ := exists_scan_of_mem_tokens h
  exact namesWord_of_scan first cs start

/-- The tokens of a source that may be names have the texts of names. -/
theorem namesWord_of_mem_tokenize {source : String} {t : Token} (h : t ∈ tokenize source) :
    t.NamesWord := Cursor.namesWord_of_mem_tokens h

/-! ## Words from parts -/

theorem isNameChar_of_isNameStart {c : Char} (h : isNameStart c = true) : isNameChar c = true := by
  rcases Bool.or_eq_true_iff.1 h with halpha | hscore
  · rw [isNameChar, Char.isAlphanum, halpha, Bool.true_or, Bool.true_or]
  · rw [isNameChar, hscore, Bool.or_true]

/-- A word is a letter or an underscore, and then letters, digits and underscores. -/
theorem isWord_iff {name : String} : isWord name = true ↔
    ∃ c cs, name.toList = c :: cs ∧ isNameStart c = true ∧ ∀ d ∈ cs, isNameChar d = true := by
  unfold isWord
  constructor
  · intro h
    split at h
    · cases h
    · rename_i c cs hname
      obtain ⟨hc, hcs⟩ := Bool.and_eq_true_iff.1 h
      exact ⟨c, cs, hname, hc, List.all_eq_true.1 hcs⟩
  · rintro ⟨c, cs, hname, hc, hcs⟩
    rw [hname]
    exact Bool.and_eq_true_iff.2 ⟨hc, List.all_eq_true.2 hcs⟩

theorem isNameChar_of_isWord {name : String} (h : isWord name = true) :
    ∀ c ∈ name.toList, isNameChar c = true := by
  obtain ⟨c, cs, hname, hc, hcs⟩ := isWord_iff.1 h
  rw [hname]
  exact List.forall_mem_cons.2 ⟨isNameChar_of_isNameStart hc, hcs⟩

/-- What a word is continued with need not be a word. -/
theorem isWord_append {name more : String} (h : isWord name = true)
    (hmore : ∀ c ∈ more.toList, isNameChar c = true) : isWord (name ++ more) = true := by
  obtain ⟨c, cs, hname, hc, hcs⟩ := isWord_iff.1 h
  refine isWord_iff.2 ⟨c, cs ++ more.toList, ?_, hc, List.forall_mem_append.2 ⟨hcs, hmore⟩⟩
  rw [String.toList_append, hname, List.cons_append]

theorem isNameChar_toString (n : Nat) : ∀ c ∈ (toString n).toList, isNameChar c = true := by
  intro c hc
  rw [isNameChar, Char.isAlphanum, Text.isDigit_of_mem_toString c hc, Bool.or_true, Bool.true_or]

end QueryBatch
