import QueryBatch.Proofs.Document.Spelling
import QueryBatch.Proofs.Token.Words

/-!
# Printed documents without errors and on one line

A document may be printed that nobody could have written: with empty selections, variables that are
declared twice or not at all, or variables in defaults. Its text consists of tokens without errors
all the same. Main statements:

* `Value.errorFree_spellings`, `Field.errorFree_spellings`: no token of a phrase is an error;
* `Quoted.isControl_encodeChar`, `Binary64.Layout.oneLine_text`: control characters are escaped in a
  string, and there are none in a number;
* `Value.oneLine`, `Field.oneLine`: so there are none in a phrase in the compact style;
* `Document.prints_alike`: a document has the same tokens in each style, none of which is an error,
  and stands on one line in the compact style.
-/

namespace QueryBatch

open Text

/-! ## Tokens without errors -/

/-- None of some tokens is an error. -/
def ErrorFree (ss : List Spelling) : Prop := ∀ s ∈ ss, s.kind ≠ .error

namespace ErrorFree

variable {ss ts : List Spelling}

theorem nil : ErrorFree [] := nofun

/-- Phrases without errors may stand one behind the other. -/
theorem append (hs : ErrorFree ss) (ht : ErrorFree ts) : ErrorFree (ss ++ ts) :=
  List.forall_mem_append.2 ⟨hs, ht⟩

theorem mark (m : Punctuator) (h : ErrorFree ss) : ErrorFree (.mark m :: ss) :=
  List.forall_mem_cons.2 ⟨nofun, h⟩

theorem word (name : String) (h : ErrorFree ss) : ErrorFree (.word name :: ss) := by
  refine List.forall_mem_cons.2 ⟨fun hkind => ?_, h⟩
  have hname := Kind.isName_ofWord name
  rw [show Kind.ofWord name = .error from hkind] at hname
  cases hname

/-- A list of phrases has no errors if no phrase has any. -/
theorem flatMap {α : Type} {f : α → List Spelling} (h : ∀ x, ErrorFree (f x)) (xs : List α) :
    ErrorFree (xs.flatMap f) :=
  fun s hs => by
    obtain ⟨x, -, hx⟩ := List.mem_flatMap.1 hs
    exact h x s hx

/-- Neither the parentheses nor what stands in them are errors. -/
theorem parenthesized {α : Type} {f : α → List Spelling} (h : ∀ x, ErrorFree (f x)) (xs : List α) :
    ErrorFree (parenthesized f xs) := by
  unfold QueryBatch.parenthesized
  split
  · exact nil
  · exact mark _ ((flatMap h xs).append (mark _ nil))

end ErrorFree

namespace Value

mutual

/-- A value is never spelled with a token that is an error. -/
theorem errorFree_spellings (v : Value) : ErrorFree v.spellings := by
  cases v with
  | var name => exact .mark _ (.word _ .nil)
  | int value | float value | string text => exact List.forall_mem_singleton.2 nofun
  | boolean value | null | enum name => exact .word _ .nil
  | list items => exact .mark _ ((errorFree_items items).append (.mark _ .nil))
  | object entries => exact .mark _ ((errorFree_entries entries).append (.mark _ .nil))

theorem errorFree_items (vs : List Value) : ErrorFree (spellingsOfItems vs) := by
  cases vs with
  | nil => exact .nil
  | cons v vs => exact (errorFree_spellings v).append (errorFree_items vs)

theorem errorFree_entries (es : List (String × Value)) : ErrorFree (spellingsOfEntries es) := by
  match es with
  | [] => exact .nil
  | (key, v) :: es =>
    exact .append (.word _ (.mark _ (errorFree_spellings v))) (errorFree_entries es)

end

end Value

theorem Argument.errorFree_list (args : List Argument) : ErrorFree (listSpellings args) :=
  .parenthesized (fun a => .word _ (.mark _ a.value.errorFree_spellings)) args

theorem Directive.errorFree_spellings (d : Directive) : ErrorFree d.spellings :=
  .mark _ (.word _ (Argument.errorFree_list d.arguments))

namespace Field

theorem errorFree_alias (alias? : Option String) : ErrorFree (aliasSpellings alias?) := by
  cases alias? with
  | none => exact .nil
  | some key => exact .word _ (.mark _ .nil)

mutual

/-- A field has no errors, nor have its arguments, its directives and its selection. -/
theorem errorFree_spellings (f : Field) : ErrorFree f.spellings := by
  obtain ⟨alias?, name, arguments, directives, selection⟩ := f
  have hdirectives : ErrorFree (directives.flatMap Directive.spellings) :=
    .flatMap Directive.errorFree_spellings directives
  exact (errorFree_alias alias?).append (.word _ ((Argument.errorFree_list arguments).append
    (hdirectives.append (errorFree_selection selection))))

theorem errorFree_selection (selection : Option (List Field)) :
    ErrorFree (selectionSpellings selection) := by
  cases selection with
  | none => exact .nil
  | some fields => exact .mark _ ((errorFree_fields fields).append (.mark _ .nil))

theorem errorFree_fields (fields : List Field) : ErrorFree (spellingsOfFields fields) := by
  cases fields with
  | nil => exact .nil
  | cons f fs => exact (errorFree_spellings f).append (errorFree_fields fs)

end

end Field

theorem TypeRef.errorFree_spellings (t : TypeRef) : ErrorFree t.spellings := by
  induction t with
  | named name => exact .word _ .nil
  | list element ih => exact .mark _ (ih.append (.mark _ .nil))
  | nonNull inner ih => exact ih.append (.mark _ .nil)

theorem VariableDefinition.errorFree_spellings (v : VariableDefinition) :
    ErrorFree v.spellings := by
  refine .mark _ (.word _ (.mark _ (v.type.errorFree_spellings.append ?_)))
  cases v.default with
  | none => exact .nil
  | some default => exact .mark _ default.errorFree_spellings

theorem Operation.errorFree_spellings (op : Operation) : ErrorFree op.spellings := by
  have hname : ErrorFree (nameSpellings op.name) := by
    cases op.name with
    | none => exact .nil
    | some name => exact .word _ .nil
  exact .word _ (hname.append ((ErrorFree.parenthesized VariableDefinition.errorFree_spellings
    op.definitions).append (Field.errorFree_selection (some op.fields))))

/-- No document is spelled with an error. -/
theorem Document.errorFree_spellings (d : Document) : ErrorFree d.spellings :=
  .flatMap Operation.errorFree_spellings d.operations

/-! ## Texts on one line -/

/-- A text without line ends and other control characters. -/
def OneLine (s : String) : Prop := ∀ c ∈ s.toList, isControl c = false

namespace OneLine

variable {s t : String}

theorem of_all (h : (s.toList.all fun c => !isControl c) = true) : OneLine s := fun c hc => by
  simpa using List.all_eq_true.1 h c hc

/-- Two texts on one line make one line. -/
theorem append (hs : OneLine s) (ht : OneLine t) : OneLine (s ++ t) := by
  rw [OneLine, String.toList_append]
  exact List.forall_mem_append.2 ⟨hs, ht⟩

/-- Any number of texts on one line do. -/
theorem join {texts : List String} (h : ∀ text ∈ texts, OneLine text) :
    OneLine (String.join texts) := by
  induction texts with
  | nil => exact of_all rfl
  | cons text texts ih =>
    obtain ⟨htext, hmore⟩ := List.forall_mem_cons.1 h
    rw [String.join_cons]
    exact htext.append (ih hmore)

/-- The separator has to be on the line too. -/
theorem intercalate {separator : String} (hseparator : OneLine separator) {texts : List String}
    (h : ∀ text ∈ texts, OneLine text) : OneLine (separator.intercalate texts) := by
  induction texts with
  | nil => exact of_all rfl
  | cons text texts ih =>
    obtain ⟨htext, hmore⟩ := List.forall_mem_cons.1 h
    cases texts with
    | nil => rwa [String.intercalate_singleton]
    | cons next texts =>
      rw [String.intercalate_cons_cons]
      exact (htext.append hseparator).append (ih hmore)

theorem commas {texts : List String} (h : ∀ text ∈ texts, OneLine text) :
    OneLine (", ".intercalate texts) := intercalate (of_all rfl) h

/-- Parentheses stand around a list only if it is not empty. -/
theorem parenthesized {α : Type} {text : α → String} {xs : List α}
    (h : ∀ x ∈ xs, OneLine (text x)) :
    OneLine (if xs.isEmpty then "" else "(" ++ ", ".intercalate (xs.map text) ++ ")") := by
  split
  · exact of_all rfl
  · exact ((of_all rfl).append (commas (List.forall_mem_map.2 h))).append (of_all rfl)

end OneLine

/-! ## Characters -/

/-- Letters, digits and underscores are no control characters. -/
theorem isControl_of_isNameChar {c : Char} (h : isNameChar c = true) : isControl c = false := by
  have hrange : 48 ≤ c.toNat ∧ c.toNat ≤ 122 := by
    rcases Bool.or_eq_true_iff.1 h with hletter | hscore
    · rcases Bool.or_eq_true_iff.1 hletter with halpha | hdigit
      · have hletter := toNat_of_isAlpha halpha
        omega
      · obtain ⟨hlow, hhigh⟩ := Char.isDigit_iff_toNat.1 hdigit
        exact ⟨hlow, Nat.le_trans hhigh (by decide)⟩
    · rw [beq_iff_eq.1 hscore]
      decide
  simp only [isControl, Bool.or_eq_false_iff, Bool.and_eq_false_iff, decide_eq_false_iff_not]
  omega

/-- Names are written on one line. -/
theorem OneLine.word {name : String} (h : isWord name = true) : OneLine name :=
  fun c hc => isControl_of_isNameChar (isNameChar_of_isWord h c hc)

theorem isControl_of_isDigit {c : Char} (h : c.isDigit = true) : isControl c = false :=
  isControl_of_isNameChar (by rw [isNameChar, Char.isAlphanum, h, Bool.or_true, Bool.true_or])

/-- A numeral consists of digits, a point, the letter of the exponent and signs. -/
theorem Text.NumeralParts.Proper.isControl_text {n : NumeralParts} (h : n.Proper) :
    ∀ c ∈ n.text, isControl c = false := by
  refine List.forall_mem_append.2 ⟨fun c hc => isControl_of_isDigit (h.whole c hc),
    List.forall_mem_append.2 ⟨?_, ?_⟩⟩
  · unfold NumeralParts.fractionText
    split
    · nofun
    · exact List.forall_mem_cons.2 ⟨rfl, fun c hc => isControl_of_isDigit (h.fraction c hc)⟩
  · unfold NumeralParts.exponentText
    split
    · nofun
    · rename_i sign digits hexponent
      obtain ⟨hsign, -, hdigits⟩ := h.exponent sign digits hexponent
      refine List.forall_mem_cons.2 ⟨rfl, List.forall_mem_append.2
        ⟨?_, fun c hc => isControl_of_isDigit (hdigits c hc)⟩⟩
      rcases hsign with rfl | rfl | rfl
      · nofun
      · exact List.forall_mem_singleton.2 rfl
      · exact List.forall_mem_singleton.2 rfl

theorem OneLine.integer (n : Int) : OneLine (toString n) := by
  have hdigits (k : Nat) : ∀ c ∈ Nat.toDigits 10 k, isControl c = false := by
    have h := (Value.proper_naturalNumeral k).isControl_text
    rwa [Value.text_naturalNumeral] at h
  cases n with
  | ofNat k =>
    rw [toString_ofNat, OneLine, String.toList_ofList]
    exact hdigits k
  | negSucc k =>
    rw [toString_negSucc, OneLine, String.toList_ofList]
    exact List.forall_mem_cons.2 ⟨rfl, hdigits (k + 1)⟩

/-- Numbers are written on one line, with an exponent or without. -/
theorem Binary64.Layout.oneLine_text (l : Layout) (x : Binary64) : OneLine (l.text x) := by
  cases x with
  | nan =>
    rw [text]
    exact .of_all rfl
  | infinite negative =>
    rw [text]
    cases negative <;> exact .of_all rfl
  | finite negative significand exponent _ =>
    have h := (l.proper_numeral (shortest l.tie significand exponent)).isControl_text
    rw [l.text_numeral] at h
    rw [text, OneLine, String.toList_ofList, finiteText]
    refine List.forall_mem_append.2 ⟨fun c hc => ?_, h⟩
    cases negative with
    | false => cases hc
    | true =>
      rw [List.mem_singleton.1 hc]
      rfl

/-- A control character is written as its number or as a letter. -/
theorem Quoted.isControl_encodeChar (c : Char) : ∀ d ∈ encodeChar c, isControl d = false := by
  have hhex : ∀ n < 0xA0, ((hexPadded 4 n).map Char.toUpper).all (fun d => !isControl d) := by
    decide +kernel
  unfold encodeChar
  split
  · rename_i letter hletter
    refine List.forall_mem_cons.2 ⟨rfl, List.forall_mem_singleton.2 ?_⟩
    unfold letterOf? at hletter
    split at hletter <;> first | cases hletter; rfl | cases hletter
  · split
    · rename_i hcontrol
      refine List.forall_mem_cons.2 ⟨rfl, List.forall_mem_cons.2 ⟨rfl, fun d hd => ?_⟩⟩
      simpa using List.all_eq_true.1 (hhex c.toNat (lt_of_isControl hcontrol)) d hd
    · rename_i hcontrol
      exact List.forall_mem_singleton.2 (Bool.eq_false_iff.2 hcontrol)

/-- A string is written on one line, since line ends and other control characters are escaped. -/
theorem Value.oneLine_quotedText (text : String) : OneLine (quotedText text) := by
  rw [quotedText, OneLine, String.toList_ofList]
  refine List.forall_mem_cons.2 ⟨rfl, List.forall_mem_append.2 ⟨fun d hd => ?_,
    List.forall_mem_singleton.2 rfl⟩⟩
  obtain ⟨c, -, hc⟩ := List.mem_flatMap.1 hd
  exact Quoted.isControl_encodeChar c d hc

/-! ## Phrases -/

namespace Value

mutual

/-- The text of a value is on one line, with the strings and the names in it. -/
theorem oneLine {v : Value} (h : v.isSpellable = true) : OneLine v.text := by
  cases v with
  | var name =>
    rw [text]
    exact .append (.of_all rfl) (.word h)
  | int value => exact .integer value.toInt
  | float value => exact documentNumbers.oneLine_text value
  | string text => exact oneLine_quotedText text
  | boolean value => cases value <;> exact .of_all rfl
  | null => exact .of_all rfl
  | enum name => exact .word h
  | list items =>
    rw [text]
    exact .append (.append (.of_all rfl) (.commas (oneLine_items h))) (.of_all rfl)
  | object entries =>
    rw [text]
    exact .append (.append (.of_all rfl) (.commas (oneLine_entries h))) (.of_all rfl)

theorem oneLine_items {vs : List Value} (h : areSpellable vs = true) :
    ∀ text ∈ itemTexts vs, OneLine text := by
  cases vs with
  | nil => nofun
  | cons v vs =>
    obtain ⟨hv, hvs⟩ := Bool.and_eq_true_iff.1 h
    exact List.forall_mem_cons.2 ⟨oneLine hv, oneLine_items hvs⟩

theorem oneLine_entries {es : List (String × Value)} (h : areEntriesSpellable es = true) :
    ∀ text ∈ entryTexts es, OneLine text := by
  match es, h with
  | [], _ => nofun
  | (key, v) :: es, h =>
    obtain ⟨hentry, hes⟩ := Bool.and_eq_true_iff.1 h
    obtain ⟨hkey, hv⟩ := Bool.and_eq_true_iff.1 hentry
    refine List.forall_mem_cons.2 ⟨?_, oneLine_entries hes⟩
    exact .append (.append (.word hkey) (.of_all rfl)) (oneLine hv)

end

end Value

theorem Argument.oneLine {a : Argument} (h : a.isSpellable = true) : OneLine a.text := by
  obtain ⟨hname, hvalue⟩ := Bool.and_eq_true_iff.1 h
  exact .append (.append (.word hname) (.of_all rfl)) (Value.oneLine hvalue)

theorem Argument.oneLine_list {args : List Argument} (h : args.all isSpellable = true) :
    OneLine (listText args) :=
  .parenthesized fun a ha => oneLine (List.all_eq_true.1 h a ha)

theorem Directive.oneLine {d : Directive} (h : d.isSpellable = true) : OneLine d.text := by
  obtain ⟨hname, hargs⟩ := Bool.and_eq_true_iff.1 h
  exact .append (.append (.of_all rfl) (.word hname)) (Argument.oneLine_list hargs)

/-- In the compact style, all gaps are single blanks. -/
theorem Style.oneLine_gap (depth : Nat) : OneLine (gap .compact depth) := by
  rw [gap]
  exact .of_all rfl

namespace Field

theorem oneLine_alias {alias? : Option String} (h : alias?.all isWord = true) :
    OneLine (aliasText alias?) := by
  cases alias? with
  | none => exact .of_all rfl
  | some key => exact .append (.word h) (.of_all rfl)

mutual

theorem oneLine {f : Field} (h : f.isSpellable = true) (depth : Nat) :
    OneLine (f.text .compact depth) := by
  obtain ⟨alias?, name, arguments, directives, selection⟩ := f
  simp only [isSpellable, Bool.and_eq_true] at h
  obtain ⟨⟨⟨⟨halias, hname⟩, hargs⟩, hdirs⟩, hsel⟩ := h
  have hdirs : OneLine (String.join (directives.map Directive.text)) :=
    .join (List.forall_mem_map.2 fun d hd => Directive.oneLine (List.all_eq_true.1 hdirs d hd))
  rw [text]
  exact .append (.append (.append (.append (oneLine_alias halias) (.word hname))
    (Argument.oneLine_list hargs)) hdirs) (oneLine_selection hsel depth)

theorem oneLine_selection {selection : Option (List Field)}
    (h : isSelectionSpellable selection = true) (depth : Nat) :
    OneLine (selectionText .compact depth selection) := by
  cases selection with
  | none => exact .of_all rfl
  | some fields =>
    rw [selectionText]
    exact .append (.append (.append (.of_all rfl) (oneLine_fields h (depth + 1)))
      (Style.oneLine_gap depth)) (.of_all rfl)

theorem oneLine_fields {fields : List Field} (h : areSpellable fields = true) (depth : Nat) :
    OneLine (fieldsText .compact depth fields) := by
  cases fields with
  | nil => exact .of_all rfl
  | cons f fs =>
    obtain ⟨hf, hfs⟩ := Bool.and_eq_true_iff.1 h
    rw [fieldsText]
    exact .append (.append (Style.oneLine_gap depth) (oneLine hf depth)) (oneLine_fields hfs depth)

end

end Field

theorem TypeRef.oneLine {t : TypeRef} (h : t.isSpellable = true) : OneLine t.text := by
  induction t with
  | named name => exact .word h
  | list element ih => exact .append (.append (.of_all rfl) (ih h)) (.of_all rfl)
  | nonNull inner ih => exact .append (ih h) (.of_all rfl)

theorem VariableDefinition.oneLine {v : VariableDefinition} (h : v.isSpellable = true) :
    OneLine v.text := by
  simp only [isSpellable, Bool.and_eq_true] at h
  obtain ⟨⟨hname, htype⟩, hdefault⟩ := h
  have hdefault : OneLine (defaultText v.default) := by
    cases hv : v.default with
    | none => exact .of_all rfl
    | some default =>
      rw [hv] at hdefault
      exact .append (.of_all rfl) (Value.oneLine hdefault)
  exact .append (.append (.append (.append (.of_all rfl) (.word hname)) (.of_all rfl))
    (TypeRef.oneLine htype)) hdefault

/-- The compact text of an operation is on one line. -/
theorem Operation.oneLine {op : Operation} (h : op.isSpellable = true) :
    OneLine (op.text .compact) := by
  simp only [isSpellable, Bool.and_eq_true] at h
  obtain ⟨⟨hname, hdefs⟩, hfields⟩ := h
  have hname : OneLine (nameText op.name) := by
    cases hop : op.name with
    | none => exact .of_all rfl
    | some name =>
      rw [hop] at hname
      exact .append (.of_all rfl) (.word hname)
  have hdefs : OneLine (VariableDefinition.listText op.definitions) :=
    .parenthesized fun v hv => VariableDefinition.oneLine (List.all_eq_true.1 hdefs v hv)
  have hfields : Field.isSelectionSpellable (some op.fields) = true := hfields
  exact .append (.append (.append (.word (isWord_kind op.kind)) hname) hdefs)
    (Field.oneLine_selection hfields 0)

namespace Document

variable {d : Document}

theorem oneLine (h : d.isSpellable = true) : OneLine (d.text .compact) :=
  .intercalate (.of_all rfl) (List.forall_mem_map.2 fun op hop =>
    Operation.oneLine (List.all_eq_true.1 h op hop))

/-- No token of a printed document is an error, whatever the style. -/
theorem kind_ne_error (h : d.isSpellable = true) (style : Style) :
    ∀ t ∈ tokenize (d.text style), t.kind ≠ .error := by
  intro t ht
  have hmem := List.mem_map_of_mem (f := Token.spelling) ht
  rw [spellings_text h style] at hmem
  exact d.errorFree_spellings t.spelling hmem

/-- Where all names of a document are names of the language and all its numbers are finite, the
document has the same tokens on one line and with any indentation, which are those of its parts. The
scanner of bytes gives them if the text has at most `2 ^ 32 - 4` bytes. -/
theorem prints_alike (h : d.isSpellable = true) (width : UInt64) :
    (tokenize (d.text .compact)).map Token.spelling =
        (tokenize (d.text (.indented width))).map Token.spelling ∧
      (tokenize (d.text .compact)).map Token.spelling = d.spellings ∧
      (∀ t ∈ tokenize (d.text .compact), t.kind ≠ .error) ∧
      (∀ t ∈ tokenize (d.text (.indented width)), t.kind ≠ .error) ∧
      ∀ c ∈ (d.text .compact).toList, isControl c = false := by
  have hcompact := spellings_text h .compact
  have hindented := spellings_text h (.indented width)
  exact ⟨hcompact.trans hindented.symm, hcompact, kind_ne_error h .compact,
    kind_ne_error h (.indented width), oneLine h⟩

/-- A variable that is defined twice, a default with a variable in it, a type that is not null
twice, control characters, and a selection without fields. -/
def oddSearch : Document where
  operations := [{
    kind := .query
    name := some "on"
    definitions := [⟨"a", .nonNull (.nonNull (.named "T")), some (.list [.var "b"])⟩,
      ⟨"a", .list (.named "T"), none⟩]
    fields := [⟨some "x", "f", [⟨"s", .string "1\n\x7f\u0085"⟩], [⟨"d", []⟩], some []⟩] }]

theorem prints_alike_oddSearch :
    oddSearch.text .compact = "query on($a: T!! = [$b], $a: [T]) \x7b " ++
        "x: f(s: \"1\\n\\u007F\\u0085\") @d \x7b \x7d \x7d" ∧
      (tokenize (oddSearch.text .compact)).map Token.spelling =
        (tokenize (oddSearch.text (.indented 0))).map Token.spelling ∧
      ∀ c ∈ (oddSearch.text .compact).toList, isControl c = false := by
  obtain ⟨htokens, -, -, -, hcontrol⟩ := prints_alike (d := oddSearch) (by decide) 0
  exact ⟨by decide +kernel, htokens, hcontrol⟩

end Document

end QueryBatch
