import QueryBatch.Proofs.Document.Escapes
import QueryBatch.Proofs.Text.Encoding

/-!
# What block strings stand for

The rules for block strings divide a text into lines at line feeds and at carriage returns, and
count a line as blank if it has only spaces and tabs. A text is read by these rules if each of its
carriage returns stands before a line feed, and if its lines of white space have only spaces and
tabs. Main statements:

* `BlockString.replaceAll_quotes`: the escapes of three quotes are read one by one;
* `BlockString.exists_divide_eq`: the lines that are read are those of the rules, up to an empty one
  at the end;
* `BlockString.dedentLine_eq_drop`: an indentation is as many characters as it is bytes;
* `BlockString.value_eq_ruled`: what such a text stands for;
* `BlockString.reads_blockString`: so are the block strings of a source read.
-/

namespace QueryBatch

namespace BlockString

open Text

/-! ## The rules -/

/-- A text in which each escape of three quotes is replaced by three quotes. -/
def unescape : List Char → List Char
  | [] => []
  | '\\' :: '"' :: '"' :: '"' :: cs => '"' :: '"' :: '"' :: unescape cs
  | c :: cs => c :: unescape cs

/-- The lines of a text, which a line feed, a carriage return, or both together divide. -/
def divide : List Char → List (List Char)
  | [] => [[]]
  | '\r' :: '\n' :: cs => [] :: divide cs
  | c :: cs => if isLineEnd c then [] :: divide cs else (divide cs).modifyHead (c :: ·)

def isSpacing (c : Char) : Bool := c == ' ' || c == '\t'

/-- Whether a line has only spaces and tabs. -/
def isSpacingLine (line : List Char) : Bool := line.all isSpacing

/-- The least number of spaces and tabs with which a line after the first starts, of those that have
another character. -/
def leastIndent (lines : List (List Char)) : Nat :=
  (((lines.drop 1).filter fun line => !isSpacingLine line).map indentation).min?.getD 0

/-- The lines, each without `width` characters but the first. -/
def unindent (width : Nat) (lines : List (List Char)) : List (List Char) :=
  lines.take 1 ++ (lines.drop 1).map (·.drop width)

/-- The lines without those at the start and at the end that pass a test. -/
def trim (isEmpty : List Char → Bool) (lines : List (List Char)) : List (List Char) :=
  ((lines.dropWhile isEmpty).reverse.dropWhile isEmpty).reverse

/-- The text for which the text between the quotes of a block string stands by the rules. -/
def ruled (body : List Char) : List Char :=
  let lines := divide (unescape body)
  List.intercalate ['\n'] (trim isSpacingLine (unindent (leastIndent lines) lines))

/-- Whether a carriage return stands elsewhere than before a line feed. -/
def hasLoneReturn : List Char → Bool
  | [] => false
  | c :: cs => c == '\r' && cs.head? != some '\n' || hasLoneReturn cs

/-- Whether the lines of white space have only spaces and tabs. -/
def spacesPlainly (body : List Char) : Bool :=
  (divide (unescape body)).all fun line => !isBlankLine line || isSpacingLine line

/-! ## Escapes -/

theorem replaceAll_quotes (cs : List Char) :
    replaceAll ['\\', '"', '"', '"'] ['"', '"', '"'] cs = unescape cs := by
  unfold replaceAll
  fun_induction unescape cs with
  | case1 => rfl
  | case2 cs ih =>
    simp only [replaceAllAfter, List.isPrefixOf, beq_self_eq_true, Bool.and_self, if_true,
      List.length_cons, List.length_nil]
    exact congrArg (['"', '"', '"'] ++ ·) ih
  | case3 c cs hescape ih =>
    have hother : List.isPrefixOf ['\\', '"', '"', '"'] (c :: cs) = false := by
      rw [Bool.eq_false_iff, ne_eq, List.isPrefixOf_iff_prefix]
      rintro ⟨more, hmore⟩
      obtain ⟨rfl, rfl⟩ := List.cons.inj hmore
      exact hescape more rfl rfl
    rw [replaceAllAfter, if_neg (by rw [hother]; exact Bool.false_ne_true), ih]

theorem head?_unescape (cs : List Char) :
    (unescape cs).head? = some '\n' ↔ cs.head? = some '\n' := by
  fun_cases unescape cs <;> simp

/-- The escapes neither add nor take away a line end. -/
theorem hasLoneReturn_unescape (cs : List Char) :
    hasLoneReturn (unescape cs) = hasLoneReturn cs := by
  fun_induction unescape cs with
  | case1 => rfl
  | case2 cs ih => simpa [hasLoneReturn] using ih
  | case3 c cs hescape ih =>
    have hhead : ((unescape cs).head? != some '\n') = (cs.head? != some '\n') := by
      rw [Bool.eq_iff_iff, bne_iff_ne, bne_iff_ne, ne_eq, ne_eq, head?_unescape]
    rw [hasLoneReturn, hasLoneReturn, hhead, ih]

/-! ## Lines -/

theorem lines_eq_nil_iff {cs : List Char} : lines cs = [] ↔ cs = [] := by
  fun_cases lines cs <;> simp_all

/-- Where no carriage return stands alone, the rules find the lines that are read. What follows the
last line end counts as a line even if it is empty. -/
theorem exists_divide_eq {cs : List Char} (h : hasLoneReturn cs = false) :
    ∃ extra, divide cs = lines cs ++ extra ∧ ∀ line ∈ extra, line = [] := by
  fun_induction divide cs with
  | case1 => exact ⟨[[]], rfl, by simp⟩
  | case2 cs ih =>
    obtain ⟨extra, hdivide, hextra⟩ := ih (by simpa [hasLoneReturn] using h)
    exact ⟨extra, by rw [hdivide, lines.eq_3]; rfl, hextra⟩
  | case3 c cs hreturn hend ih =>
    simp only [hasLoneReturn, Bool.or_eq_false_iff] at h
    obtain ⟨extra, hdivide, hextra⟩ := ih h.2
    obtain rfl : c = '\n' := by
      rcases Bool.or_eq_true_iff.1 hend with hfeed | hret
      · exact eq_of_beq hfeed
      · obtain rfl := eq_of_beq hret
        cases cs with
        | nil => simp at h
        | cons d ds =>
          have hd : d = '\n' := by simpa using h.1
          exact absurd (congrArg (· :: ds) hd) (hreturn ds rfl)
    exact ⟨extra, by rw [hdivide, lines.eq_2]; rfl, hextra⟩
  | case4 c cs hreturn hend ih =>
    simp only [hasLoneReturn, Bool.or_eq_false_iff] at h
    obtain ⟨extra, hdivide, hextra⟩ := ih h.2
    have hfeed : c ≠ '\n' := by rintro rfl; exact hend rfl
    have hret : ∀ ds, c = '\r' → cs = '\n' :: ds → False := by rintro _ rfl -; exact hend rfl
    rw [hdivide, lines.eq_4 c cs hfeed hret]
    cases hlines : lines cs with
    | cons line more => exact ⟨extra, rfl, hextra⟩
    | nil =>
      obtain rfl := lines_eq_nil_iff.1 hlines
      have hone : extra = [[]] := by simpa [divide, hlines] using hdivide.symm
      exact ⟨[], by rw [hone]; rfl, by simp⟩

/-! ## Cutting off the indentation -/

theorem isNarrow_of_isSpacing {c : Char} (h : isSpacing c = true) : isNarrow c = true := by
  rcases Bool.or_eq_true_iff.1 h with hspace | htab
  · rw [eq_of_beq hspace]; rfl
  · rw [eq_of_beq htab]; rfl

theorem isBlank_of_isSpacing {c : Char} (h : isSpacing c = true) : isBlank c = true := by
  rcases Bool.or_eq_true_iff.1 h with hspace | htab
  · rw [eq_of_beq hspace]; rfl
  · rw [eq_of_beq htab]; rfl

theorem isBlankLine_of_isSpacingLine {line : List Char} (h : isSpacingLine line = true) :
    isBlankLine line = true :=
  List.all_eq_true.2 fun c hc => isBlank_of_isSpacing (List.all_eq_true.1 h c hc)

theorem isSpacing_of_mem_take {line : List Char} {width : Nat} (h : width ≤ indentation line)
    {c : Char} (hc : c ∈ line.take width) : isSpacing c = true := by
  have hfront : line.take width <+: line.takeWhile isSpacing :=
    List.prefix_of_prefix_length_le (List.take_prefix width line) (List.takeWhile_prefix isSpacing)
      (Nat.le_trans (List.length_take_le width line) h)
  exact List.all_eq_true.1 (List.all_takeWhile) c (hfront.subset hc)

/-- A space and a tab have one byte each. -/
theorem dedentLine_eq_drop {line : List Char} {width : Nat}
    (h : width ≤ indentation line ∨ isSpacingLine line = true) :
    dedentLine width line = line.drop width := by
  have hspacing : ∀ c ∈ line.take width, isSpacing c = true := by
    intro c hc
    rcases h with hindent | hline
    · exact isSpacing_of_mem_take hindent hc
    · exact List.all_eq_true.1 hline c (List.mem_of_mem_take hc)
  have hbytes : utf8Length (line.take width) = (line.take width).length :=
    utf8Length_of_narrow fun c hc => isNarrow_of_isSpacing (hspacing c hc)
  rcases Nat.le_total width line.length with hlong | hshort
  · have hcut := splitAtByte?_append (line.take width) (line.drop width)
    rw [List.take_append_drop, hbytes, List.length_take_of_le hlong] at hcut
    rw [dedentLine, hcut]
  · have hafter : ∀ before after, splitAtByte? width line = some (before, after) → after = [] := by
      intro before after hsplit
      obtain ⟨hline, hbefore⟩ := eq_append_of_splitAtByte? hsplit
      have hlength := congrArg utf8Length hline
      rw [List.take_of_length_le hshort] at hbytes
      rw [utf8Length_append] at hlength
      exact utf8Length_eq_zero.1 (by omega)
    rw [dedentLine, List.drop_eq_nil_of_le hshort]
    split
    · exact hafter _ _ ‹_›
    · rfl

/-! ## Lines that have only spaces and tabs -/

variable {lines : List (List Char)}

/-- Whether white space is told from spaces and tabs makes no difference to some lines. -/
def Plain (lines : List (List Char)) : Prop :=
  ∀ line ∈ lines, isBlankLine line = isSpacingLine line

theorem plain_of_spacesPlainly {body : List Char} (h : spacesPlainly body = true) :
    Plain (divide (unescape body)) := by
  intro line hline
  have hspaces := List.all_eq_true.1 h line hline
  cases hblank : isBlankLine line with
  | true => simpa [hblank] using hspaces.symm
  | false =>
    rw [eq_comm, Bool.eq_false_iff]
    intro hspacing
    rw [isBlankLine_of_isSpacingLine hspacing] at hblank
    cases hblank

theorem commonIndent_eq_leastIndent (h : Plain lines) : commonIndent lines = leastIndent lines := by
  have hfilter : ((lines.drop 1).filter fun line => !isBlankLine line) =
      (lines.drop 1).filter fun line => !isSpacingLine line :=
    List.filter_congr fun line hline => by rw [h line (List.mem_of_mem_drop hline)]
  rw [commonIndent, leastIndent, hfilter]

theorem leastIndent_le {line : List Char} (hline : line ∈ lines.drop 1)
    (h : isSpacingLine line = false) : leastIndent lines ≤ indentation line := by
  refine List.min?_getD_le_of_mem (List.mem_map_of_mem (List.mem_filter.2 ⟨hline, ?_⟩))
  rw [h]
  rfl

theorem dedent_eq_unindent (h : Plain lines) :
    dedent lines = unindent (leastIndent lines) lines := by
  rw [dedent, unindent, commonIndent_eq_leastIndent h]
  congr 1
  refine List.map_congr_left fun line hline => dedentLine_eq_drop ?_
  cases hspacing : isSpacingLine line with
  | true => exact .inr rfl
  | false => exact .inl (leastIndent_le hline hspacing)

/-- Without its indentation, a line is blank if it was so before. -/
theorem plain_unindent (h : Plain lines) : Plain (unindent (leastIndent lines) lines) := by
  intro line hline
  rcases List.mem_append.1 hline with hfirst | hmore
  · exact h line (List.mem_of_mem_take hfirst)
  · obtain ⟨whole, hwhole, rfl⟩ := List.mem_map.1 hmore
    have hplain := h whole (List.mem_of_mem_drop hwhole)
    cases hspacing : isSpacingLine whole with
    | true =>
      have hrest : isSpacingLine (whole.drop (leastIndent lines)) = true :=
        List.all_eq_true.2 fun c hc => List.all_eq_true.1 hspacing c (List.mem_of_mem_drop hc)
      rw [hrest, isBlankLine_of_isSpacingLine hrest]
    | false =>
      rw [hspacing] at hplain
      obtain ⟨c, hc, hblank⟩ := List.all_eq_false.1 hplain
      -- The character that is no white space is behind the indentation.
      have hrest : c ∈ whole.drop (leastIndent lines) := by
        rw [← List.take_append_drop (leastIndent lines) whole] at hc
        refine (List.mem_append.1 hc).resolve_left fun hindent => hblank ?_
        exact isBlank_of_isSpacing (isSpacing_of_mem_take (leastIndent_le hwhole hspacing) hindent)
      have hfalse : isBlankLine (whole.drop (leastIndent lines)) = false :=
        List.all_eq_false.2 ⟨c, hrest, hblank⟩
      rw [hfalse, eq_comm, Bool.eq_false_iff]
      intro hspaces
      rw [isBlankLine_of_isSpacingLine hspaces] at hfalse
      cases hfalse

/-! ## Empty lines at the end -/

variable {extra : List (List Char)}

theorem leastIndent_append (h : ∀ line ∈ extra, line = []) :
    leastIndent (lines ++ extra) = leastIndent lines := by
  have hnone : ∀ n, ((extra.drop n).filter fun line => !isSpacingLine line) = [] := by
    intro n
    rw [List.filter_eq_nil_iff]
    intro line hline
    rw [h line (List.mem_of_mem_drop hline)]
    exact Bool.false_ne_true
  rw [leastIndent, leastIndent, List.drop_append, List.filter_append, hnone, List.append_nil]

theorem unindent_append (h : ∀ line ∈ extra, line = []) (width : Nat) :
    unindent width (lines ++ extra) = unindent width lines ++ extra := by
  have hsame : ∀ n, (extra.drop n).map (·.drop width) = extra.drop n := by
    intro n
    conv_rhs => rw [← List.map_id (extra.drop n)]
    refine List.map_congr_left fun line hline => ?_
    rw [h line (List.mem_of_mem_drop hline), List.drop_nil]
    rfl
  rw [unindent, unindent, List.take_append, List.drop_append, List.map_append, hsame]
  cases lines with
  | nil => simpa using List.take_append_drop 1 extra
  | cons line more => simp

theorem trim_append {isEmpty : List Char → Bool} (h : ∀ line ∈ extra, isEmpty line = true) :
    trim isEmpty (lines ++ extra) = trim isEmpty lines := by
  have hextra : extra.dropWhile isEmpty = [] := by
    rw [← List.append_nil extra, List.dropWhile_append_of_pos h, List.dropWhile_nil]
  have hreverse : ∀ line ∈ extra.reverse, isEmpty line = true :=
    fun line hline => h line (List.mem_reverse.1 hline)
  rw [trim, trim, List.dropWhile_append]
  split
  · rename_i hnone
    rw [hextra, List.isEmpty_iff.1 hnone]
  · rw [List.reverse_append, List.dropWhile_append_of_pos hreverse]

theorem dropWhile_congr {isEmpty isEmpty' : List Char → Bool}
    (h : ∀ line ∈ lines, isEmpty line = isEmpty' line) :
    lines.dropWhile isEmpty = lines.dropWhile isEmpty' := by
  induction lines with
  | nil => rfl
  | cons line more ih =>
    rw [List.dropWhile_cons, List.dropWhile_cons, h line List.mem_cons_self,
      ih fun other hother => h other (List.mem_cons_of_mem _ hother)]

theorem trim_congr {isEmpty isEmpty' : List Char → Bool}
    (h : ∀ line ∈ lines, isEmpty line = isEmpty' line) :
    trim isEmpty lines = trim isEmpty' lines := by
  rw [trim, trim, dropWhile_congr h]
  refine congrArg List.reverse (dropWhile_congr fun line hline => h line ?_)
  exact (List.dropWhile_sublist isEmpty').subset (List.mem_reverse.1 hline)

/-! ## Values -/

/-- A text is read by the rules if no carriage return stands alone and the lines of white space have
only spaces and tabs. -/
theorem value_eq_ruled {body : List Char} (hreturn : hasLoneReturn body = false)
    (hspaces : spacesPlainly body = true) : value body = ruled body := by
  obtain ⟨extra, hdivide, hextra⟩ :=
    exists_divide_eq ((hasLoneReturn_unescape body).trans hreturn)
  have hplain : Plain (Text.lines (unescape body)) := fun line hline =>
    plain_of_spacesPlainly hspaces line (hdivide ▸ List.mem_append_left extra hline)
  have hblank : ∀ line ∈ extra, isSpacingLine line = true := fun line hline => by
    rw [hextra line hline]; rfl
  have htrim : trimBlankLines (dedent (Text.lines (unescape body))) =
      trim isSpacingLine (unindent (leastIndent (divide (unescape body)))
        (divide (unescape body))) := by
    rw [hdivide, leastIndent_append hextra, unindent_append hextra, trim_append hblank,
      ← trim_congr (plain_unindent hplain), dedent_eq_unindent hplain]
    rfl
  rw [value, replaceAll_quotes, ruled, htrim]

example : ruled "\r\n    a\\\"\"\"b\r\n\t\r\n      c\n    ".toList =
    "a\"\"\"b\n\n  c".toList := by decide

end BlockString

/-! ## Block string tokens -/

theorem Literal.inner_blockQuotes {text : String} {body : List Char}
    (h : text.toList = ['"', '"', '"'] ++ (body ++ ['"', '"', '"'])) : inner 3 text = body := by
  rw [inner, h]
  simp

namespace BlockString

/-- A block string token is read without an issue, as the text for which the text between its quotes
stands. The rules tell which text that is, if no carriage return stands alone and the lines of white
space have only spaces and tabs. -/
structure Reads (t : Token) (body text : List Char) : Prop where
  quotes : t.text.toList = ['"', '"', '"'] ++ (body ++ ['"', '"', '"'])
  reads : ∀ constant rest, Production.value constant (t :: rest) =
    ⟨.string (String.ofList text), rest, []⟩
  rules : hasLoneReturn body = false → spacesPlainly body = true → text = ruled body

/-- The block strings of a source have the value that the rules for indentation tell, up to the
carriage returns and the white space that these do not know. -/
theorem reads_blockString {source : String} {t : Token} (ht : t ∈ tokenize source)
    (hkind : t.kind = .blockString) : ∃ body text, Reads t body text := by
  obtain ⟨body, htext⟩ := exists_of_kind_blockString ht hkind
  have hliteral : Literal.ofToken? t = some ⟨.string (String.ofList (value body)), []⟩ := by
    simp only [Literal.ofToken?, hkind, Literal.ofBlockString, Literal.inner_blockQuotes htext]
  refine ⟨body, value body, htext, ?_, value_eq_ruled⟩
  exact Production.value_of_literal hliteral

theorem reads_blockString_note :
    (⟨.blockString, "\"\"\"\n  a\n   b\n\"\"\"", 7⟩ : Token) ∈
        tokenize "\x7b f(x: \"\"\"\n  a\n   b\n\"\"\") \x7d" ∧
      ∃ body text, Reads ⟨.blockString, "\"\"\"\n  a\n   b\n\"\"\"", 7⟩ body text := by
  have htoken : (⟨.blockString, "\"\"\"\n  a\n   b\n\"\"\"", 7⟩ : Token) ∈
      tokenize "\x7b f(x: \"\"\"\n  a\n   b\n\"\"\") \x7d" := by decide +kernel
  exact ⟨htoken, reads_blockString htoken rfl⟩

/-- A carriage return that stands alone divides no lines, and a line of other white space than
spaces and tabs does not count for the common indentation. -/
theorem reads_unruled :
    ((⟨.blockString, "\"\"\"a\rb\"\"\"", 7⟩ : Token) ∈
        tokenize "\x7b f(x: \"\"\"a\rb\"\"\") \x7d" ∧
      Production.value false [⟨.blockString, "\"\"\"a\rb\"\"\"", 7⟩] = ⟨.string "a\rb", [], []⟩ ∧
      ruled "a\rb".toList = "a\nb".toList) ∧
    (⟨.blockString, "\"\"\"a\n b\n\u3000\n c\"\"\"", 7⟩ : Token) ∈
        tokenize "\x7b f(x: \"\"\"a\n b\n\u3000\n c\"\"\") \x7d" ∧
      Production.value false [⟨.blockString, "\"\"\"a\n b\n\u3000\n c\"\"\"", 7⟩] =
        ⟨.string "a\nb\n\nc", [], []⟩ ∧
      ruled "a\n b\n\u3000\n c".toList = "a\n b\n\u3000\n c".toList := by
  have hreturn : Literal.ofToken? ⟨.blockString, "\"\"\"a\rb\"\"\"", 7⟩ =
      some ⟨.string "a\rb", []⟩ := by rfl
  have hspace : Literal.ofToken? ⟨.blockString, "\"\"\"a\n b\n\u3000\n c\"\"\"", 7⟩ =
      some ⟨.string "a\nb\n\nc", []⟩ := by rfl
  exact ⟨⟨by decide +kernel, Production.value_of_literal hreturn false [], by decide⟩,
    by decide +kernel, Production.value_of_literal hspace false [], by decide⟩

end BlockString

end QueryBatch
