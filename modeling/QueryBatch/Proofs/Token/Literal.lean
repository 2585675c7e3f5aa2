import QueryBatch.Document.Quoted
import QueryBatch.Proofs.Token.Spelling

/-!
# Spellings of literals

Main statements:

* `spellings_numeral`, `spellings_minus_numeral`: a numeral is one token, a floating point number
  if it has a point or an exponent;
* `spellings_quoted`: what is written for a string is one token, whatever the string is.
-/

namespace QueryBatch

open Text

/-! ## Numbers -/

namespace Text.NumeralParts

/-- The kind of token that a numeral is. -/
def kind (n : NumeralParts) : Kind := if n.fraction = [] ∧ n.exponent = none then .int else .float

end Text.NumeralParts

theorem digitRun_append {digits rest : List Char} (h : ∀ c ∈ digits, c.isDigit = true)
    (hrest : ∀ c ∈ rest.head?, c.isDigit = false) : digitRun (digits ++ rest) = digits.length := by
  rw [digitRun, takeWhile_append_of_head h hrest]

theorem Closes.not {rest : List Char} (h : Closes rest) {p : Char → Bool}
    (hp : ∀ c, isNameChar c = false → c ≠ '.' → p c = false) : ∀ c ∈ rest.head?, p c = false :=
  fun c hc => hp c (h c hc).1 (h c hc).2.1

theorem isDigit_of_not_nameChar {c : Char} (h : isNameChar c = false) : c.isDigit = false := by
  simp only [isNameChar, Char.isAlphanum, Bool.or_eq_false_iff] at h
  exact h.1.2

theorem isAlpha_of_not_nameChar {c : Char} (h : isNameChar c = false) : c.isAlpha = false := by
  simp only [isNameChar, Char.isAlphanum, Bool.or_eq_false_iff] at h
  exact h.1.1

theorem Closes.not_exponent {rest : List Char} (h : Closes rest) :
    ∀ c ∈ rest.head?, (c == 'e' || c == 'E') = false := h.not fun c hc _ => by
  have hother : (!isNameChar c) = true := by rw [hc]; rfl
  have hne : ∀ d, (!isNameChar d) = false → (c == d) = false :=
    fun d => beq_of_test (p := (!isNameChar ·)) hother
  rw [hne 'e' rfl, hne 'E' rfl, Bool.or_self]

theorem fractionRun_of_head {cs : List Char} (h : ∀ c ∈ cs.head?, (c == '.') = false) :
    fractionRun cs = 0 := by
  unfold fractionRun
  split
  · exact absurd (h '.' rfl) (by decide)
  · rfl

theorem exponentRun_of_head {cs : List Char}
    (h : ∀ c ∈ cs.head?, (c == 'e' || c == 'E') = false) : exponentRun cs = none := by
  cases cs with
  | nil => rfl
  | cons c cs => rw [exponentRun, h c rfl, if_neg Bool.false_ne_true]

section Numbers

variable {n : NumeralParts} {rest : List Char}

/-- The scanner finds the fraction of a numeral, and takes nothing of the exponent. -/
theorem fractionRun_text (h : n.Proper) (hrest : Closes rest) :
    fractionRun (n.fractionText ++ (n.exponentText ++ rest)) = n.fractionText.length := by
  have hpoint : ∀ c ∈ (n.exponentText ++ rest).head?, (c == '.') = false :=
    NumeralParts.head?_exponentText rfl (hrest.not fun c _ hc => by simpa using hc)
  have hdigit : ∀ c ∈ (n.exponentText ++ rest).head?, c.isDigit = false :=
    NumeralParts.head?_exponentText rfl (hrest.not fun c hc _ => isDigit_of_not_nameChar hc)
  unfold NumeralParts.fractionText
  split
  · exact fractionRun_of_head hpoint
  · rename_i hne
    have hrun := digitRun_append h.fraction hdigit
    rw [List.cons_append, fractionRun, hrun, if_neg (by simpa using hne), List.length_cons]

/-- What is found where an exponent may follow. -/
def Text.NumeralParts.exponentRun? (n : NumeralParts) : Option (Nat × Nat) :=
  n.exponent.map fun (sign, digits) => (1 + sign.length + digits.length, digits.length)

/-- The scanner finds the exponent of a numeral, and nothing behind it. -/
theorem exponentRun_text (h : n.Proper) (hrest : Closes rest) :
    exponentRun (n.exponentText ++ rest) = n.exponentRun? := by
  have hdigit : ∀ c ∈ rest.head?, c.isDigit = false :=
    hrest.not fun c hc _ => isDigit_of_not_nameChar hc
  unfold NumeralParts.exponentText NumeralParts.exponentRun?
  split
  · rename_i hnone
    rw [hnone]
    exact exponentRun_of_head hrest.not_exponent
  · rename_i sign digits hsome
    obtain ⟨hsign, hne, hdigits⟩ := h.exponent sign digits hsome
    have hrun := digitRun_append hdigits hdigit
    obtain ⟨first, more, rfl⟩ := List.exists_cons_of_ne_nil hne
    have hfirst : ∀ c, c.isDigit = false → first ≠ c := fun c hc =>
      beq_eq_false_iff_ne.1 (beq_of_test (hdigits first List.mem_cons_self) hc)
    rw [List.cons_append] at hrun
    rw [hsome]
    rcases hsign with rfl | rfl | rfl
    · simp [exponentRun, hfirst '+' rfl, hfirst '-' rfl, hrun]
    · simp [exponentRun, hrun]
    · simp [exponentRun, hrun]

theorem length_exponentText : n.exponentText.length = (n.exponentRun?.map (·.1)).getD 0 := by
  unfold NumeralParts.exponentText NumeralParts.exponentRun?
  split
  · rename_i hnone
    rw [hnone]
    rfl
  · rename_i sign digits hsome
    rw [hsome]
    simp
    omega

theorem isNone_exponentRun? : n.exponentRun?.isNone = n.exponent.isNone := Option.isNone_map

/-- The exponent of a numeral has digits. -/
theorem any_exponentRun? (h : n.Proper) : n.exponentRun?.any (·.2 == 0) = false := by
  cases hexponent : n.exponent with
  | none => simp [Text.NumeralParts.exponentRun?, hexponent]
  | some e => simpa [Text.NumeralParts.exponentRun?, hexponent] using (h.exponent _ _ hexponent).2.1

theorem any_isNumberSpoiler (hrest : Closes rest) : rest.head?.any isNumberSpoiler = false := by
  cases rest with
  | nil => rfl
  | cons c rest =>
    obtain ⟨hname, hpoint, -⟩ := hrest c rfl
    have hscore : (c == '_') = false := by
      rw [isNameChar, Bool.or_eq_false_iff] at hname
      exact hname.2
    simp [isNumberSpoiler, isAlpha_of_not_nameChar hname, hscore, hpoint]

theorem length_fractionText_eq_zero : n.fractionText.length = 0 ↔ n.fraction = [] := by
  unfold NumeralParts.fractionText
  split <;> simp_all

/-- A numeral is scanned as a whole: its digits, its fraction and its exponent. -/
theorem scanNumber_text (h : n.Proper) {first : Char} {digits : List Char}
    (hdigits : ∀ c ∈ digits, c.isDigit = true) (hfirst : first = '-' → digits ≠ [])
    (hrest : Closes rest) :
    scanNumber first (digits ++ (n.fractionText ++ n.exponentText) ++ rest) =
      ⟨n.kind, (digits ++ (n.fractionText ++ n.exponentText)).length⟩ := by
  have hafter : ∀ c ∈ (n.fractionText ++ (n.exponentText ++ rest)).head?, c.isDigit = false :=
    NumeralParts.head?_fractionText rfl rfl (hrest.not fun c hc _ => isDigit_of_not_nameChar hc)
  have hdash : (first == '-' && digits.length == 0) = false := by
    by_cases hf : first = '-'
    · simp [hfirst hf]
    · simp [hf]
  have hempty : n.exponentRun?.any (·.2 == 0) = false := any_exponentRun? h
  have hspoiler : rest.head?.any isNumberSpoiler = false := any_isNumberSpoiler hrest
  have hdrop : (digits ++ (n.fractionText ++ (n.exponentText ++ rest))).drop
      (digits.length + n.fractionText.length) = n.exponentText ++ rest := by
    rw [← List.append_assoc, ← List.length_append, List.drop_left]
  have hend : (digits ++ (n.fractionText ++ (n.exponentText ++ rest))).drop
      (digits.length + n.fractionText.length + n.exponentText.length) = rest := by
    rw [← List.append_assoc, ← List.append_assoc, ← List.length_append, ← List.length_append,
      List.drop_left]
  simp only [List.append_assoc, scanNumber, digitRun_append hdigits hafter, List.drop_left,
    fractionRun_text h hrest, hdrop, exponentRun_text h hrest, ← length_exponentText, hend, hdash,
    hempty, hspoiler, Bool.false_eq_true, if_false, List.length_append, isNone_exponentRun?,
    Text.NumeralParts.kind, Bool.and_eq_true, beq_iff_eq, Option.isNone_iff_eq_none,
    length_fractionText_eq_zero]
  rw [Nat.add_assoc]
  split <;> rfl

/-- A number starts with the minus sign or with a digit, and no other lexeme does. -/
theorem scan_of_number {first : Char} (h : first = '-' ∨ first.isDigit = true) (cs : List Char) :
    startsLexeme first = true ∧ scan first cs = scanNumber first cs := by
  rcases h with rfl | h
  · exact ⟨rfl, rfl⟩
  have hne : ∀ c, c.isDigit = false → (first == c) = false := fun c => beq_of_test h
  have hmark : Punctuator.ofChar? first = none := by
    unfold Punctuator.ofChar?
    split <;> first | rfl | cases h
  constructor
  · simp only [startsLexeme, isIgnored, isLineEnd, hne ' ' rfl, hne '\t' rfl, hne ',' rfl,
      hne '\uFEFF' rfl, hne '\n' rfl, hne '\r' rfl, bne, hne '#' rfl, Bool.or_self, Bool.not_false,
      Bool.and_self]
  · simp only [scan, hmark, hne '.' rfl, hne '"' rfl, h, Bool.or_true, Bool.false_eq_true, if_false,
      if_true]

/-- A numeral is one token if what follows cannot be taken for more of it. -/
theorem spellings_numeral (h : n.Proper) (hrest : Closes rest) :
    spellings (n.text ++ rest) = ⟨n.kind, String.ofList n.text⟩ :: spellings rest := by
  obtain ⟨first, digits, hwhole, hfirst⟩ := NumeralParts.exists_first h
  have htext : n.text = first :: (digits ++ (n.fractionText ++ n.exponentText)) := by
    rw [NumeralParts.text, hwhole, List.cons_append]
  have hdigits : ∀ c ∈ digits, c.isDigit = true := fun c hc =>
    h.whole c (hwhole ▸ List.mem_cons_of_mem _ hc)
  have hdash : first = '-' → digits ≠ [] := by
    rintro rfl
    cases hfirst
  obtain ⟨hstart, hscan⟩ := scan_of_number (.inr hfirst)
    (digits ++ (n.fractionText ++ n.exponentText) ++ rest)
  rw [htext, spellings_of_scan hstart (hscan.trans (scanNumber_text h hdigits hdash hrest))]

/-- A minus sign and a numeral are one token. -/
theorem spellings_minus_numeral (h : n.Proper) (hrest : Closes rest) :
    spellings ('-' :: n.text ++ rest) =
      ⟨n.kind, String.ofList ('-' :: n.text)⟩ :: spellings rest := by
  obtain ⟨hstart, hscan⟩ := scan_of_number (.inl rfl) (n.text ++ rest)
  exact spellings_of_scan hstart
    (hscan.trans (scanNumber_text h h.whole (fun _ => h.whole_ne_nil) hrest))

end Numbers

/-! ## Strings -/

/-- Whether a character stands for itself in a string and neither ends it nor escapes another. -/
def isPlain (c : Char) : Bool := c != '\\' && c != '"' && !isLineEnd c

theorem Lexeme.after_after (m n : Nat) (l : Lexeme) : (l.after n).after m = l.after (n + m) := by
  simp [Lexeme.after]
  omega

theorem scanString_of_isPlain {c : Char} (h : isPlain c = true) (cs : List Char) :
    scanString (c :: cs) = (scanString cs).after 1 := by
  simp only [isPlain, Bool.and_eq_true, bne_iff_ne, Bool.not_eq_true'] at h
  rw [scanString.eq_4 _ _ (fun hc _ => h.1.1 hc) fun _ _ hc => absurd hc h.1.1]
  simp [h]

/-- Plain characters are stepped over one by one. -/
theorem scanString_of_all {ds : List Char} (h : ∀ c ∈ ds, isPlain c = true) (cs : List Char) :
    scanString (ds ++ cs) = (scanString cs).after ds.length := by
  induction ds with
  | nil => simp [Lexeme.after]
  | cons d ds ih =>
    rw [List.cons_append, scanString_of_isPlain (h d List.mem_cons_self),
      ih fun c hc => h c (List.mem_cons_of_mem _ hc), Lexeme.after_after, List.length_cons]

/-- The character behind a backslash is not looked at. -/
theorem scanString_escape (letter : Char) (cs : List Char) :
    scanString ('\\' :: letter :: cs) = (scanString cs).after 2 := by
  rw [scanString]

theorem isPlain_hex {n : Nat} (hn : n < 0xA0) :
    ∀ c ∈ (hexPadded 4 n).map Char.toUpper, isPlain c = true := by
  have hall : (List.range 0xA0).all
      (fun n => ((hexPadded 4 n).map Char.toUpper).all isPlain) = true := by
    decide +kernel
  exact List.all_eq_true.1 (List.all_eq_true.1 hall n (List.mem_range.2 hn))

theorem isPlain_of_letterOf? {c : Char} (h : letterOf? c = none) : isPlain c = true := by
  have hne : ∀ d, letterOf? d ≠ none → c ≠ d := by
    rintro d hd rfl
    exact hd h
  simp [isPlain, isLineEnd, hne '\\' (by decide), hne '"' (by decide), hne '\n' (by decide),
    hne '\r' (by decide)]

/-- An escaped character leaves the string open. -/
theorem scanString_encodeChar (c : Char) (cs : List Char) :
    scanString (Quoted.encodeChar c ++ cs) =
      (scanString cs).after (Quoted.encodeChar c).length := by
  unfold Quoted.encodeChar
  split
  · exact scanString_escape _ cs
  · rename_i hletter
    split
    · rename_i hcontrol
      have hhex := isPlain_hex (Quoted.lt_of_isControl hcontrol)
      rw [List.cons_append, List.cons_append, scanString_escape, scanString_of_all hhex,
        Lexeme.after_after, List.length_cons, List.length_cons]
    · exact scanString_of_isPlain (isPlain_of_letterOf? hletter) cs

/-- So the first quote that ends the string is the one behind the escaped text. -/
theorem scanString_encode (cs rest : List Char) :
    scanString (Quoted.encode cs ++ '"' :: rest) = ⟨.string, (Quoted.encode cs).length + 1⟩ := by
  induction cs with
  | nil => rfl
  | cons c cs ih =>
    rw [Quoted.encode, List.flatMap_cons, List.append_assoc, scanString_encodeChar]
    show (scanString (Quoted.encode cs ++ '"' :: rest)).after _ = _
    rw [ih, Lexeme.after, List.length_append]
    rfl

theorem head?_encode_append {cs rest : List Char} (hne : cs ≠ []) :
    (Quoted.encode cs ++ rest).head? ≠ some '"' := by
  obtain ⟨c, cs, rfl⟩ := List.exists_cons_of_ne_nil hne
  rw [Quoted.encode, List.flatMap_cons, List.append_assoc]
  unfold Quoted.encodeChar
  split
  · rw [List.cons_append, List.head?_cons]
    decide
  · rename_i hletter
    have hc := isPlain_of_letterOf? hletter
    simp only [isPlain, Bool.and_eq_true, bne_iff_ne] at hc
    split
    · rw [List.cons_append, List.head?_cons]
      decide
    · simpa using hc.1.2

/-- An empty string looks like the start of a block string if a quote follows. -/
theorem scanQuoted_encode {cs rest : List Char} (hrest : cs = [] → rest.head? ≠ some '"') :
    scanQuoted (Quoted.encode cs ++ '"' :: rest) = ⟨.string, (Quoted.encode cs).length + 1⟩ := by
  rw [← scanString_encode cs rest]
  unfold scanQuoted
  split
  · rename_i more hquotes
    by_cases hcs : cs = []
    · subst hcs
      obtain rfl : rest = '"' :: more := (List.cons.inj hquotes).2
      exact absurd rfl (hrest rfl)
    · exact absurd (congrArg List.head? hquotes) (head?_encode_append hcs)
  · rfl

/-- What is written for a string is one token, unless a quote follows. -/
theorem spellings_quoted (cs : List Char) {rest : List Char} (hrest : rest.head? ≠ some '"') :
    spellings ('"' :: (Quoted.encode cs ++ ['"']) ++ rest) =
      ⟨.string, String.ofList ('"' :: (Quoted.encode cs ++ ['"']))⟩ :: spellings rest := by
  refine spellings_of_scan rfl ?_
  rw [List.append_assoc, List.length_append, List.length_singleton]
  exact scanQuoted_encode fun _ => hrest

end QueryBatch
