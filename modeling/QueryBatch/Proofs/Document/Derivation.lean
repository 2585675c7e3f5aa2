import QueryBatch.Proofs.Document.Grammar
import QueryBatch.Proofs.Document.Spelling

/-!
# Derivations of printed values

The tokens of a printed phrase are cut where the phrase is put together, and each part is a phrase
of the grammar. Main statements:

* `Literal.ofToken?_float`, `Literal.ofToken?_string`: what was written for a number or a string is
  the literal of that number or string;
* `TypeRef.isType`, `Value.isValue`: what was written for a type or a value is that type or value in
  the grammar.
-/

namespace QueryBatch

open Grammar Text

/-! ## Types and values that can be written -/

namespace TypeRef

/-- Whether no mark that excludes null follows another. -/
def isGrammatical : TypeRef → Bool
  | named _ => true
  | list element => element.isGrammatical
  | nonNull inner => !inner.isNonNull && inner.isGrammatical

end TypeRef

namespace Value

/-- Whether a name is none of the words that stand for a value of their own. -/
def isEnumName (name : String) : Bool := name != "true" && name != "false" && name != "null"

mutual

/-- Whether all enumeration values have names of their own. -/
def isGrammatical : Value → Bool
  | enum name => isEnumName name
  | list items => areGrammatical items
  | object entries => areEntriesGrammatical entries
  | _ => true

def areGrammatical : List Value → Bool
  | [] => true
  | v :: vs => v.isGrammatical && areGrammatical vs

def areEntriesGrammatical : List (String × Value) → Bool
  | [] => true
  | (_, v) :: es => v.isGrammatical && areEntriesGrammatical es

end

end Value

/-! ## Tokens with known spellings -/

variable {t : Token} {ts : List Token}

theorem kind_of_mark {m : Punctuator} (h : t.spelling = .mark m) : t.kind = .punctuator m :=
  congrArg Spelling.kind h

theorem isName_of_word {name : String} (h : t.spelling = .word name) : t.kind.isName = true := by
  have hkind : t.kind = .ofWord name := congrArg Spelling.kind h
  rw [hkind, Kind.isName_ofWord]

theorem text_of_word {name : String} (h : t.spelling = .word name) : t.text = name :=
  congrArg Spelling.text h

/-- A spelling is that of one token. -/
theorem exists_single {s : Spelling} (h : ts.map Token.spelling = [s]) :
    ∃ t, ts = [t] ∧ t.spelling = s := by
  obtain ⟨t, us, rfl, ht, hus⟩ := List.map_eq_cons_iff.1 h
  obtain rfl := List.map_eq_nil_iff.1 hus
  exact ⟨t, rfl, ht⟩

/-- Tokens between two punctuators. -/
theorem exists_enclosed {m n : Punctuator} {ss : List Spelling}
    (h : ts.map Token.spelling = .mark m :: (ss ++ [.mark n])) :
    ∃ o us c, ts = o :: (us ++ [c]) ∧ o.kind = .punctuator m ∧ us.map Token.spelling = ss ∧
      c.kind = .punctuator n := by
  obtain ⟨o, inner, rfl, ho, hinner⟩ := List.map_eq_cons_iff.1 h
  obtain ⟨us, last, rfl, hus, hlast⟩ := List.map_eq_append_iff.1 hinner
  obtain ⟨c, rfl, hc⟩ := exists_single hlast
  exact ⟨o, us, c, rfl, kind_of_mark ho, hus, kind_of_mark hc⟩

/-- Spellings of phrases, one behind the other, are divided as the phrases are. -/
theorem each_of_flatMap {α : Type} {R : List Token → α → Prop} {spelled : α → List Spelling}
    {as : List α} (h : ∀ a ∈ as, ∀ us, us.map Token.spelling = spelled a → R us a)
    (hts : ts.map Token.spelling = as.flatMap spelled) : Each R ts as := by
  induction as generalizing ts with
  | nil =>
    obtain rfl := List.map_eq_nil_iff.1 hts
    exact .nil
  | cons a as ih =>
    obtain ⟨us, vs, rfl, hus, hvs⟩ := List.map_eq_append_iff.1 hts
    exact .cons (h a List.mem_cons_self us hus)
      (ih (fun b hb => h b (List.mem_cons_of_mem _ hb)) hvs)

/-- Tokens of a list in parentheses, or none where the list is empty. -/
theorem exists_parenthesized {α : Type} {R : List Token → α → Prop} {spelled : α → List Spelling}
    {as : List α} (h : ∀ a ∈ as, ∀ us, us.map Token.spelling = spelled a → R us a)
    (hts : ts.map Token.spelling = parenthesized spelled as) :
    ts = [] ∧ as = [] ∨ ∃ o us c, ts = o :: (us ++ [c]) ∧ o.kind = .punctuator .parenOpen ∧
      Each R us as ∧ c.kind = .punctuator .parenClose := by
  unfold parenthesized at hts
  split at hts
  · rename_i hempty
    exact .inl ⟨List.map_eq_nil_iff.1 hts, List.isEmpty_iff.1 hempty⟩
  · obtain ⟨o, us, c, rfl, ho, hus, hc⟩ := exists_enclosed hts
    exact .inr ⟨o, us, c, rfl, ho, each_of_flatMap h hus, hc⟩

/-! ## Literals -/

namespace Literal

/-- An integer that was printed has its value, of 64 bits. -/
theorem ofToken?_int {n : Int64} (h : t.spelling = ⟨.int, toString n.toInt⟩) :
    ofToken? t = some ⟨.int n, []⟩ := by
  have hkind : t.kind = .int := congrArg Spelling.kind h
  have htext : t.text = toString n.toInt := congrArg Spelling.text h
  have hread : (integer? (toString n.toInt).toList).bind int64? = some n := by
    rw [integer?_toString, Option.bind_some, int64?_eq_some_iff]
  simp only [ofToken?, hkind, ofInt, htext, hread]

/-- A number that was printed has its value, since the digits are enough to tell it. -/
theorem ofToken?_float {x : Binary64} (hx : x.isFinite = true)
    (h : t.spelling = ⟨.float, documentNumbers.text x⟩) : ofToken? t = some ⟨.float x, []⟩ := by
  have hkind : t.kind = .float := congrArg Spelling.kind h
  have htext : t.text = documentNumbers.text x := congrArg Spelling.text h
  have hread : (Binary64.ofText? (documentNumbers.text x)).filter Binary64.isFinite = some x := by
    rw [Binary64.Layout.ofText?_text _ hx, Option.filter_some, if_pos hx]
  simp only [ofToken?, hkind, ofFloat, htext, hread]

/-- Between the quotes of a printed string there is its escaped text. -/
theorem inner_quotedText (text : String) :
    inner 1 (Value.quotedText text) = Quoted.encode text.toList := by
  rw [inner, Value.quotedText, String.toList_ofList]
  simp

/-- A string that was printed is decoded without issues. -/
theorem ofToken?_string {text : String} (h : t.spelling = ⟨.string, Value.quotedText text⟩) :
    ofToken? t = some ⟨.string text, []⟩ := by
  have hkind : t.kind = .string := congrArg Spelling.kind h
  have htext : t.text = Value.quotedText text := congrArg Spelling.text h
  simp only [ofToken?, hkind, ofString, htext, inner_quotedText, Quoted.decode_encode,
    Quoted.faults_encode, String.ofList_toList, List.map_nil]

theorem ofToken?_boolean {value : Bool}
    (h : t.spelling = .word (if value then "true" else "false")) :
    ofToken? t = some ⟨.boolean value, []⟩ := by
  have hkind : t.kind = .ofWord (if value then "true" else "false") := congrArg Spelling.kind h
  cases value with
  | true =>
    have hword : t.kind = .keyword .trueWord := hkind.trans (by decide)
    simp only [ofToken?, hword]
  | false =>
    have hword : t.kind = .keyword .falseWord := hkind.trans (by decide)
    simp only [ofToken?, hword]

theorem ofToken?_null (h : t.spelling = .word "null") : ofToken? t = some ⟨.null, []⟩ := by
  have hkind : t.kind = .ofWord "null" := congrArg Spelling.kind h
  have hword : t.kind = .keyword .nullWord := hkind.trans (by decide)
  simp only [ofToken?, hword]

/-- A name that is no word for a value of its own is no literal. -/
theorem ofToken?_enum {name : String} (hname : Value.isEnumName name = true)
    (h : t.spelling = .word name) : ofToken? t = none := by
  have hkind : t.kind = .ofWord name := congrArg Spelling.kind h
  unfold Kind.ofWord at hkind
  split at hkind
  · rename_i k hk
    obtain rfl := Keyword.ofText?_eq_some_iff.1 hk
    cases k with
    | trueWord => exact absurd hname (by decide)
    | falseWord => exact absurd hname (by decide)
    | nullWord => exact absurd hname (by decide)
    | _ => simp only [ofToken?, hkind]
  · simp only [ofToken?, hkind]

end Literal

/-! ## Types and values -/

/-- The tokens of a printed type form this type if no mark was doubled. -/
theorem TypeRef.isType {type : TypeRef} (hg : type.isGrammatical = true)
    (h : ts.map Token.spelling = type.spellings) : IsType ts type := by
  induction type generalizing ts with
  | named name =>
    obtain ⟨t, rfl, ht⟩ := exists_single h
    rw [← text_of_word ht]
    exact .named (isName_of_word ht)
  | list element ih =>
    obtain ⟨o, us, c, rfl, ho, hus, hc⟩ := exists_enclosed h
    exact .list ho (ih hg hus) hc
  | nonNull inner ih =>
    obtain ⟨hinner, hg⟩ := Bool.and_eq_true_iff.1 hg
    obtain ⟨us, last, rfl, hus, hlast⟩ := List.map_eq_append_iff.1 h
    obtain ⟨b, rfl, hb⟩ := exists_single hlast
    exact .nonNull (ih hg hus) (by simpa using hinner) (kind_of_mark hb)

namespace Value

/-- Whether a value may stand where it must be constant, or where it need not be. -/
def fits (constant : Bool) (v : Value) : Bool := !constant || v.isConstant

def areFitting (constant : Bool) (vs : List Value) : Bool :=
  !constant || !mentionsInItems (fun _ => true) vs

def areEntriesFitting (constant : Bool) (es : List (String × Value)) : Bool :=
  !constant || !mentionsInEntries (fun _ => true) es

variable {constant : Bool}

/-- Where variables may stand, every value fits. -/
theorem fits_false (v : Value) : v.fits false = true := rfl

theorem fits_cons {v : Value} {vs : List Value} (h : areFitting constant (v :: vs) = true) :
    v.fits constant = true ∧ areFitting constant vs = true := by
  cases constant with
  | false => exact ⟨rfl, rfl⟩
  | true => simpa [areFitting, fits, isConstant, mentionsInItems] using h

theorem fits_cons_entries {key : String} {v : Value} {es : List (String × Value)}
    (h : areEntriesFitting constant ((key, v) :: es) = true) :
    v.fits constant = true ∧ areEntriesFitting constant es = true := by
  cases constant with
  | false => exact ⟨rfl, rfl⟩
  | true => simpa [areEntriesFitting, fits, isConstant, mentionsInEntries] using h

theorem isValue_of_literal {s : Spelling} {v : Value}
    (hread : ∀ t : Token, t.spelling = s → Literal.ofToken? t = some ⟨v, []⟩)
    (h : ts.map Token.spelling = [s]) : IsValue constant ts v := by
  obtain ⟨t, rfl, ht⟩ := exists_single h
  exact .literal (hread t ht)

theorem isEntry {R : List Token → Value → Prop} {key : String} {v : Value}
    (hv : ∀ us, us.map Token.spelling = v.spellings → R us v)
    (h : ts.map Token.spelling = .word key :: .mark .colon :: v.spellings) :
    IsEntry R ts (key, v) := by
  obtain ⟨k, more, rfl, hk, hmore⟩ := List.map_eq_cons_iff.1 h
  obtain ⟨c, us, rfl, hc, hus⟩ := List.map_eq_cons_iff.1 hmore
  rw [← text_of_word hk]
  exact .mk (isName_of_word hk) (kind_of_mark hc) (hv us hus)

mutual

/-- The tokens of a printed value are those of the value in the grammar. -/
theorem isValue {v : Value} (hs : v.isSpellable = true) (hg : v.isGrammatical = true)
    (hfits : v.fits constant = true) {ts : List Token}
    (h : ts.map Token.spelling = v.spellings) : IsValue constant ts v := by
  cases v with
  | var name =>
    have hconstant : constant = false := by
      cases constant with
      | false => rfl
      | true => cases hfits
    obtain ⟨d, more, rfl, hd, hmore⟩ := List.map_eq_cons_iff.1 h
    obtain ⟨n, rfl, hn⟩ := exists_single hmore
    rw [← text_of_word hn]
    exact .var hconstant (kind_of_mark hd) (isName_of_word hn)
  | int value => exact isValue_of_literal (fun _ => Literal.ofToken?_int) h
  | float value => exact isValue_of_literal (fun _ => Literal.ofToken?_float hs) h
  | string text => exact isValue_of_literal (fun _ => Literal.ofToken?_string) h
  | boolean value => exact isValue_of_literal (fun _ => Literal.ofToken?_boolean) h
  | null => exact isValue_of_literal (fun _ => Literal.ofToken?_null) h
  | enum name =>
    obtain ⟨t, rfl, ht⟩ := exists_single h
    have hliteral := Literal.ofToken?_enum hg ht
    rw [← text_of_word ht]
    exact .enum (isName_of_word ht) hliteral
  | list items =>
    obtain ⟨o, us, c, rfl, ho, hus, hc⟩ := exists_enclosed h
    exact .list ho (areItems hs hg hfits hus) hc
  | object entries =>
    obtain ⟨o, us, c, rfl, ho, hus, hc⟩ := exists_enclosed h
    exact .object ho (areEntries hs hg hfits hus) hc

theorem areItems {vs : List Value} (hs : areSpellable vs = true) (hg : areGrammatical vs = true)
    (hfits : areFitting constant vs = true) {ts : List Token}
    (h : ts.map Token.spelling = spellingsOfItems vs) : Each (IsValue constant) ts vs := by
  cases vs with
  | nil =>
    obtain rfl := List.map_eq_nil_iff.1 h
    exact .nil
  | cons v vs =>
    obtain ⟨hsv, hsvs⟩ := Bool.and_eq_true_iff.1 hs
    obtain ⟨hgv, hgvs⟩ := Bool.and_eq_true_iff.1 hg
    obtain ⟨hfitv, hfitvs⟩ := fits_cons hfits
    obtain ⟨us, us', rfl, hus, hus'⟩ := List.map_eq_append_iff.1 h
    exact .cons (isValue hsv hgv hfitv hus) (areItems hsvs hgvs hfitvs hus')

theorem areEntries {es : List (String × Value)} (hs : areEntriesSpellable es = true)
    (hg : areEntriesGrammatical es = true) (hfits : areEntriesFitting constant es = true)
    {ts : List Token} (h : ts.map Token.spelling = spellingsOfEntries es) :
    Each (IsEntry (IsValue constant)) ts es := by
  match es, hs, hg, hfits, h with
  | [], _, _, _, h =>
    obtain rfl := List.map_eq_nil_iff.1 h
    exact .nil
  | (key, v) :: es, hs, hg, hfits, h =>
    obtain ⟨hse, hses⟩ := Bool.and_eq_true_iff.1 hs
    obtain ⟨-, hsv⟩ := Bool.and_eq_true_iff.1 hse
    obtain ⟨hgv, hges⟩ := Bool.and_eq_true_iff.1 hg
    obtain ⟨hfitv, hfites⟩ := fits_cons_entries hfits
    obtain ⟨us, us', rfl, hus, hus'⟩ := List.map_eq_append_iff.1 h
    exact .cons (isEntry (fun _ hvs => isValue hsv hgv hfitv hvs) hus)
      (areEntries hses hges hfites hus')

end

end Value

end QueryBatch
