import Mathlib.Data.List.Forall2
import Mathlib.Data.Nat.Digits.Defs
import Mathlib.Data.Set.List
import QueryBatch.Document.OfSource
import QueryBatch.Proofs.Document.Reading
import QueryBatch.Proofs.Token.Delimiters

/-!
# What string literals stand for

The text between the quotes of a string is a sequence of units, each of which stands for one
character. Main statements:

* `Text.hexNumber?_eq_some_iff`: a number is read from the hexadecimal digits that write it;
* `Quoted.numbered_eq_ok_iff_accepts`: an escape by number may begin with a plus sign;
* `Quoted.faults_eq_nil_iff`, `Quoted.decode_of_divides`: a text has no fault exactly if it is a
  sequence of accepted units, and then stands for their characters;
* `Quoted.divides_denotes_iff`: these units all denote characters, unless one has the plus sign;
* `Quoted.decodes_exactly`: so are the strings of a source read.
-/

namespace QueryBatch

/-! ## Hexadecimal numbers -/

theorem mapM_eq_some_iff {α β : Type} {f : α → Option β} {xs : List α} {ys : List β} :
    xs.mapM f = some ys ↔ List.Forall₂ (fun x y => f x = some y) xs ys := by
  induction xs generalizing ys with
  | nil => simp [eq_comm]
  | cons x xs ih =>
    simp only [List.mapM_cons, Option.bind_eq_bind, Option.bind_eq_some_iff, ih,
      List.forall₂_cons_left_iff]
    constructor
    · rintro ⟨y, hy, more, hmore, hys⟩
      exact ⟨y, more, hy, hmore, (Option.some.inj hys).symm⟩
    · rintro ⟨y, more, hy, hmore, rfl⟩
      exact ⟨y, hy, more, hmore, rfl⟩

namespace Text

/-- The hexadecimal digits with their values, in lower and in upper case. -/
def hexDigits : List (Char × Nat) :=
  ['0', '1', '2', '3', '4', '5', '6', '7', '8', '9'].zipIdx ++
    ['a', 'b', 'c', 'd', 'e', 'f'].zipIdx 10 ++ ['A', 'B', 'C', 'D', 'E', 'F'].zipIdx 10

/-- The characters of a range are digits where they are so one by one. -/
theorem mem_hexDigits_of_le {low high c : Char} {base : Nat} (hlow : low ≤ c) (hhigh : c ≤ high)
    (hall : ∀ k < high.toNat + 1 - low.toNat,
      (Char.ofNat (low.toNat + k), k + base) ∈ hexDigits) :
    (c, c.toNat - low.toNat + base) ∈ hexDigits := by
  have hlow : low.toNat ≤ c.toNat := hlow
  have hhigh : c.toNat ≤ high.toNat := hhigh
  have hc := hall (c.toNat - low.toNat) (by omega)
  rwa [Nat.add_sub_cancel' hlow, Char.ofNat_toNat] at hc

theorem hexDigit?_of_mem_hexDigits : ∀ digit ∈ hexDigits, hexDigit? digit.1 = some digit.2 := by
  decide

theorem hexDigit?_eq_some_iff {c : Char} {value : Nat} :
    hexDigit? c = some value ↔ (c, value) ∈ hexDigits := by
  constructor
  · intro h
    unfold hexDigit? at h
    split at h
    · rename_i hdigit
      simp only [Char.isDigit, Bool.and_eq_true, decide_eq_true_eq] at hdigit
      obtain rfl := Option.some.inj h
      have hlow : '0' ≤ c := hdigit.1
      have hhigh : c ≤ '9' := hdigit.2
      have hmem : (c, c.toNat - '0'.toNat + 0) ∈ hexDigits :=
        mem_hexDigits_of_le hlow hhigh (by decide)
      exact hmem
    · split at h
      · rename_i hlower
        simp only [Bool.and_eq_true, decide_eq_true_eq] at hlower
        obtain rfl := Option.some.inj h
        exact mem_hexDigits_of_le hlower.1 hlower.2 (by decide)
      · split at h
        · rename_i hupper
          simp only [Bool.and_eq_true, decide_eq_true_eq] at hupper
          obtain rfl := Option.some.inj h
          exact mem_hexDigits_of_le hupper.1 hupper.2 (by decide)
        · cases h
  · exact hexDigit?_of_mem_hexDigits (c, value)

/-- Digits write a number, the most significant one first. -/
def IsHexNumber (digits : List Char) (n : Nat) : Prop :=
  ∃ values, List.Forall₂ (fun c value => (c, value) ∈ hexDigits) digits values ∧
    n = Nat.ofDigits 16 values.reverse

theorem foldl_eq_ofDigits (values : List Nat) :
    values.foldl (16 * · + ·) 0 = Nat.ofDigits 16 values.reverse := by
  rw [Nat.ofDigits_eq_foldr, List.foldr_reverse]
  simp only [Nat.cast_id, Nat.add_comm]

theorem hexNumber?_eq_some_iff {digits : List Char} {n : Nat} :
    hexNumber? digits = some n ↔ digits ≠ [] ∧ IsHexNumber digits n := by
  cases digits with
  | nil => simp [hexNumber?]
  | cons c digits =>
    simp only [hexNumber?, List.isEmpty_cons, Bool.false_eq_true, if_false, Option.map_eq_some_iff,
      mapM_eq_some_iff, hexDigit?_eq_some_iff, foldl_eq_ofDigits, IsHexNumber, ne_eq,
      reduceCtorEq, not_false_eq_true, true_and]
    exact exists_congr fun values => and_congr_right fun _ => eq_comm

theorem scalar?_eq_some_iff {n : Nat} {c : Char} : scalar? n = some c ↔ n = c.toNat := by
  constructor
  · intro h
    unfold scalar? at h
    split at h
    · rename_i hn
      rw [← Option.some.inj h, Char.ofNat, dif_pos hn]
      rfl
    · cases h
  · rintro rfl
    exact scalar?_toNat c

end Text

/-! ## Units -/

namespace Quoted

open Text

/-- The letters that may follow a backslash, with the characters for which they stand. -/
def letters : List (Char × Char) :=
  [('"', '"'), ('\\', '\\'), ('/', '/'), ('b', '\x08'), ('f', '\x0c'), ('n', '\n'), ('r', '\r'),
    ('t', '\t')]

/-- A unit of a text between quotes denotes a character. -/
inductive Denotes : List Char → Char → Prop
  | plain {c : Char} (h : c ≠ '\\') : Denotes [c] c
  | letter {letter c : Char} (h : (letter, c) ∈ letters) : Denotes ['\\', letter] c
  | number {digits : List Char} {c : Char} (hlength : digits.length = 4)
      (h : IsHexNumber digits c.toNat) : Denotes ('\\' :: 'u' :: digits) c

/-- A unit that is read without a fault. A plus sign may be the first of the four characters of a
number. -/
inductive Accepts : List Char → Char → Prop
  | denoted {unit : List Char} {c : Char} (h : Denotes unit c) : Accepts unit c
  | signed {digits : List Char} {c : Char} (hlength : digits.length = 3)
      (h : IsHexNumber digits c.toNat) : Accepts ('\\' :: 'u' :: '+' :: digits) c

/-- A unit is an escape by number that begins with a plus sign. -/
def IsSigned (unit : List Char) : Prop := ∃ digits, unit = '\\' :: 'u' :: '+' :: digits

/-- A text is a sequence of units, which stand for characters one by one. -/
structure Divides (R : List Char → Char → Prop) (parts : List (List Char)) (body cs : List Char) :
    Prop where
  flatten : body = parts.flatten
  each : List.Forall₂ R parts cs

theorem ofLetter?_eq_some_iff {letter c : Char} :
    ofLetter? letter = some c ↔ (letter, c) ∈ letters := by
  unfold ofLetter? letters
  split <;> simp_all [eq_comm]

theorem ne_u_of_mem_letters {letter c : Char} (h : (letter, c) ∈ letters) : letter ≠ 'u' := by
  rintro rfl
  simp [letters] at h

theorem not_isHexNumber_plus {digits : List Char} {n : Nat} :
    ¬ IsHexNumber ('+' :: digits) n := by
  rintro ⟨values, hvalues, -⟩
  cases hvalues with
  | cons hplus _ => cases hexDigit?_eq_some_iff.2 hplus

theorem characterNumber?_of_isHexNumber {digits : List Char} {n : Nat} (hne : digits ≠ [])
    (h : IsHexNumber digits n) :
    characterNumber? digits = some n ∧ characterNumber? ('+' :: digits) = some n := by
  have hnumber : hexNumber? digits = some n := hexNumber?_eq_some_iff.2 ⟨hne, h⟩
  refine ⟨?_, hnumber⟩
  unfold characterNumber?
  split
  · exact absurd h not_isHexNumber_plus
  · exact hnumber

theorem numbered_eq_ok_iff {hex : List Char} {c : Char} :
    numbered hex = .ok c ↔ hex.length = 4 ∧ characterNumber? hex = some c.toNat := by
  have hscalar : (characterNumber? hex).bind scalar? = some c ↔
      characterNumber? hex = some c.toNat := by
    simp [Option.bind_eq_some_iff, scalar?_eq_some_iff]
  rw [← hscalar, numbered]
  cases (characterNumber? hex).bind scalar? with
  | none => simp
  | some d => by_cases hlength : hex.length = 4 <;> simp [hlength]

/-- An escape by number is read without a fault exactly if it is one of the accepted units. -/
theorem numbered_eq_ok_iff_accepts {hex : List Char} {c : Char} :
    numbered hex = .ok c ↔ Accepts ('\\' :: 'u' :: hex) c := by
  rw [numbered_eq_ok_iff]
  constructor
  · rintro ⟨hlength, hnumber⟩
    unfold characterNumber? at hnumber
    split at hnumber
    · rename_i digits
      exact .signed (Nat.succ.inj hlength) (hexNumber?_eq_some_iff.1 hnumber).2
    · exact .denoted (.number hlength (hexNumber?_eq_some_iff.1 hnumber).2)
  · intro h
    cases h with
    | denoted h =>
      cases h with
      | letter h => exact absurd rfl (ne_u_of_mem_letters h)
      | number hlength h =>
        have hne : hex ≠ [] := List.ne_nil_of_length_eq_add_one hlength
        exact ⟨hlength, (characterNumber?_of_isHexNumber hne h).1⟩
    | signed hlength h =>
      have hne := List.ne_nil_of_length_eq_add_one hlength
      exact ⟨congrArg Nat.succ hlength, (characterNumber?_of_isHexNumber hne h).2⟩

/-! ## Sequences of units -/

theorem lettered_eq_ok_iff {letter c : Char} :
    lettered letter = .ok c ↔ (letter, c) ∈ letters := by
  rw [← ofLetter?_eq_some_iff, lettered]
  cases ofLetter? letter <;> simp

theorem units_of_accepts {unit : List Char} {c : Char} (h : Accepts unit c) (rest : List Char) :
    units (unit ++ rest) = .ok c :: units rest := by
  have hnumbered : ∀ hex, Accepts ('\\' :: 'u' :: hex) c →
      units ('\\' :: 'u' :: (hex ++ rest)) = .ok c :: units rest := by
    intro hex hhex
    have hok := numbered_eq_ok_iff_accepts.2 hhex
    have hlength := (numbered_eq_ok_iff.1 hok).1
    rw [units.eq_3, List.take_left' hlength, List.drop_left' hlength, hok]
  cases h with
  | denoted h =>
    cases h with
    | plain h =>
      exact units.eq_5 _ _ (fun hc => absurd hc h) (fun _ hc => absurd hc h)
        fun _ _ hc => absurd hc h
    | @letter letter _ h =>
      have hu := ne_u_of_mem_letters h
      rw [List.cons_append, List.singleton_append, units.eq_4 _ _ (by simpa using hu),
        lettered_eq_ok_iff.2 h]
    | number hlength h => exact hnumbered _ (.denoted (.number hlength h))
  | signed hlength h => exact hnumbered _ (.signed hlength h)

/-- A text whose first unit has no fault begins with an accepted unit. -/
theorem units_eq_ok_cons_iff {body : List Char} {c : Char} {more : List (Except Fault Char)} :
    units body = .ok c :: more ↔
      ∃ unit rest, body = unit ++ rest ∧ Accepts unit c ∧ units rest = more := by
  constructor
  · intro h
    fun_cases units body with
    | case1 => simp [units] at h
    | case2 => simp [units] at h
    | case3 cs =>
      rw [units.eq_3] at h
      obtain ⟨hnumber, rfl⟩ := List.cons.inj h
      refine ⟨'\\' :: 'u' :: cs.take 4, cs.drop 4, ?_, numbered_eq_ok_iff_accepts.1 hnumber, rfl⟩
      simp
    | case4 letter cs hu =>
      rw [units.eq_4 _ _ hu] at h
      obtain ⟨hletter, rfl⟩ := List.cons.inj h
      exact ⟨['\\', letter], cs, rfl, .denoted (.letter (lettered_eq_ok_iff.1 hletter)), rfl⟩
    | case5 d cs hlast hnumber hletter =>
      rw [units.eq_5 _ _ hlast hnumber hletter] at h
      obtain ⟨hplain, rfl⟩ := List.cons.inj h
      cases hplain
      have hc : c ≠ '\\' := by
        intro hc
        cases cs with
        | nil => exact hlast hc rfl
        | cons letter cs => exact hletter letter cs hc rfl
      exact ⟨[c], cs, rfl, .denoted (.plain hc), rfl⟩
  · rintro ⟨unit, rest, rfl, hunit, rfl⟩
    exact units_of_accepts hunit rest

theorem units_eq_nil_iff {body : List Char} : units body = [] ↔ body = [] := by
  fun_cases units body <;> simp [*]

/-- A text is read without a fault exactly if it is a sequence of accepted units. -/
theorem units_eq_map_ok_iff {body cs : List Char} :
    units body = cs.map .ok ↔ ∃ parts, Divides Accepts parts body cs := by
  induction cs generalizing body with
  | nil =>
    rw [List.map_nil, units_eq_nil_iff]
    constructor
    · rintro rfl
      exact ⟨[], rfl, .nil⟩
    · rintro ⟨parts, rfl, heach⟩
      cases heach
      rfl
  | cons c cs ih =>
    rw [List.map_cons, units_eq_ok_cons_iff]
    constructor
    · rintro ⟨unit, rest, rfl, hunit, hrest⟩
      obtain ⟨parts, rfl, heach⟩ := ih.1 hrest
      exact ⟨unit :: parts, rfl, .cons hunit heach⟩
    · rintro ⟨parts, rfl, heach⟩
      cases heach with
      | @cons unit _ parts _ hunit heach =>
        exact ⟨unit, parts.flatten, rfl, hunit, ih.2 ⟨parts, rfl, heach⟩⟩

theorem faults_eq_nil_iff {body : List Char} :
    faults body = [] ↔ ∃ parts cs, Divides Accepts parts body cs := by
  have hok : faults body = [] ↔ units body ∈ Set.range (List.map Except.ok) := by
    rw [faults, List.filterMap_eq_nil_iff, Set.range_list_map]
    refine forall₂_congr fun unit _ => ?_
    cases unit <;> simp [faultOf?]
  rw [hok, exists_comm]
  exact exists_congr fun cs => eq_comm.trans units_eq_map_ok_iff

theorem decode_of_divides {parts : List (List Char)} {body cs : List Char}
    (h : Divides Accepts parts body cs) : decode body = cs := by
  rw [decode, units_eq_map_ok_iff.2 ⟨parts, h⟩]
  simp [List.filterMap_map, Function.comp_def, charOf?]

/-! ## The sequence is unique -/

/-- The length of the unit with which a text begins. -/
def width : List Char → Nat
  | '\\' :: 'u' :: _ => 6
  | '\\' :: _ => 2
  | _ => 1

theorem width_of_accepts {unit : List Char} {c : Char} (h : Accepts unit c) (rest : List Char) :
    width (unit ++ rest) = unit.length := by
  cases h with
  | denoted h =>
    cases h with
    | plain h =>
      rw [List.singleton_append]
      unfold width
      split <;> simp_all
    | @letter letter _ h =>
      have hu := ne_u_of_mem_letters h
      rw [List.cons_append, List.singleton_append]
      unfold width
      split <;> simp_all
    | number hlength h => simp [width, hlength]
  | signed hlength h => simp [width, hlength]

theorem ne_nil_of_accepts {unit : List Char} {c : Char} (h : Accepts unit c) : unit ≠ [] := by
  rintro rfl
  cases h with
  | denoted h => cases h

/-- A text is a sequence of accepted units in one way only. -/
theorem divides_unique {parts others : List (List Char)} {body cs ds : List Char}
    (h : Divides Accepts parts body cs) (h' : Divides Accepts others body ds) : parts = others := by
  obtain ⟨rfl, heach⟩ := h
  obtain ⟨hflatten, heach'⟩ := h'
  induction heach generalizing others ds with
  | nil =>
    cases heach' with
    | nil => rfl
    | cons hunit _ =>
      exact absurd (List.append_eq_nil_iff.1 hflatten.symm).1 (ne_nil_of_accepts hunit)
  | @cons unit c parts cs hunit heach ih =>
    cases heach' with
    | nil => exact absurd (List.append_eq_nil_iff.1 hflatten).1 (ne_nil_of_accepts hunit)
    | @cons other d others ds hother heach' =>
      rw [List.flatten_cons, List.flatten_cons] at hflatten
      have hlength : unit.length = other.length := by
        rw [← width_of_accepts hunit parts.flatten, hflatten, width_of_accepts hother]
      obtain ⟨rfl, hrest⟩ := List.append_inj hflatten hlength
      rw [ih hrest heach']

theorem denotes_iff {unit : List Char} {c : Char} :
    Denotes unit c ↔ ¬ IsSigned unit ∧ Accepts unit c := by
  constructor
  · intro h
    refine ⟨?_, .denoted h⟩
    rintro ⟨digits, rfl⟩
    cases h with
    | number _ hnumber => exact not_isHexNumber_plus hnumber
  · rintro ⟨hplus, h⟩
    cases h with
    | denoted h => exact h
    | signed => exact absurd ⟨_, rfl⟩ hplus

theorem forall₂_denotes_iff {parts : List (List Char)} {cs : List Char} :
    List.Forall₂ Denotes parts cs ↔
      (∀ unit ∈ parts, ¬ IsSigned unit) ∧ List.Forall₂ Accepts parts cs := by
  have hdenotes : Denotes = fun unit c => ¬ IsSigned unit ∧ Accepts unit c :=
    funext fun _ => funext fun _ => propext denotes_iff
  rw [hdenotes, List.forall₂_and_left]

/-- An accepted sequence of units consists of units that denote characters, unless one has the plus
sign. -/
theorem divides_denotes_iff {parts : List (List Char)} {body cs : List Char}
    (h : Divides Accepts parts body cs) :
    (∃ others ds, Divides Denotes others body ds) ↔ ∀ unit ∈ parts, ¬ IsSigned unit := by
  constructor
  · rintro ⟨others, ds, hflatten, heach⟩
    obtain ⟨hplain, haccepts⟩ := forall₂_denotes_iff.1 heach
    rw [divides_unique h ⟨hflatten, haccepts⟩]
    exact hplain
  · intro hplain
    exact ⟨parts, cs, h.flatten, forall₂_denotes_iff.2 ⟨hplain, h.each⟩⟩

end Quoted

/-! ## String tokens -/

/-- A literal token is read as its value, and its issues are reported at the token. -/
theorem Production.value_of_literal {t : Token} {literal : Literal}
    (h : Literal.ofToken? t = some literal) (constant : Bool) (rest : List Token) :
    value constant (t :: rest) =
      ⟨literal.value, rest, literal.issues.map (⟨·, some t.span⟩)⟩ := by
  simp only [value, nested, valueWithin, current_bind, List.head?_cons, h]
  simp only [seqRight_apply, bind_apply, reportHere, advance, pure_apply, headSpan, List.tail_cons,
    List.append_nil]

theorem Literal.inner_quotes {text : String} {body : List Char}
    (h : text.toList = ['"'] ++ (body ++ ['"'])) : inner 1 text = body := by
  rw [inner, h]
  simp

theorem Literal.ofToken?_of_string {t : Token} (hkind : t.kind = .string) {body : List Char}
    (htext : t.text.toList = ['"'] ++ (body ++ ['"'])) :
    ofToken? t = some ⟨.string (String.ofList (Quoted.decode body)),
      (Quoted.faults body).map .badEscape⟩ := by
  simp only [ofToken?, hkind, ofString, inner_quotes htext]

namespace Quoted

open Text

/-- A string token is read as the characters for which the units between its quotes stand. No issue
is raised exactly if each unit is accepted. The units then denote these characters exactly if none
of them has the plus sign. -/
structure Decoded (t : Token) (body : List Char) (text : String) (issues : List Issue) : Prop where
  quotes : t.text.toList = ['"'] ++ (body ++ ['"'])
  reads : ∀ constant rest, Production.value constant (t :: rest) =
    ⟨.string text, rest, issues.map (⟨·, some t.span⟩)⟩
  issues_iff : issues = [] ↔ ∃ parts cs, Divides Accepts parts body cs
  text_eq : ∀ parts cs, Divides Accepts parts body cs → text = String.ofList cs
  denotes_iff : ∀ parts cs, Divides Accepts parts body cs →
    ((∃ others ds, Divides Denotes others body ds) ↔ ∀ unit ∈ parts, ¬ IsSigned unit)

/-- The strings of a source are decoded exactly, up to escapes by number with a plus sign. -/
theorem decodes_exactly {source : String} {t : Token} (ht : t ∈ tokenize source)
    (hkind : t.kind = .string) : ∃ body text issues, Decoded t body text issues := by
  obtain ⟨body, htext⟩ := exists_of_kind_string ht hkind
  refine ⟨body, String.ofList (decode body), (faults body).map .badEscape, htext, ?_, ?_, ?_, ?_⟩
  · exact Production.value_of_literal (Literal.ofToken?_of_string hkind htext)
  · rw [List.map_eq_nil_iff, faults_eq_nil_iff]
  · intro parts cs h
    rw [decode_of_divides h]
  · intro parts cs h
    exact divides_denotes_iff h

theorem decodes_exactly_newline :
    (⟨.string, "\"\\u0041\\n\"", 7⟩ : Token) ∈ tokenize "\x7b f(x: \"\\u0041\\n\") \x7d" ∧
      ∃ body text issues, Decoded ⟨.string, "\"\\u0041\\n\"", 7⟩ body text issues := by
  have htoken : (⟨.string, "\"\\u0041\\n\"", 7⟩ : Token) ∈
      tokenize "\x7b f(x: \"\\u0041\\n\") \x7d" := by decide +kernel
  exact ⟨htoken, decodes_exactly htoken rfl⟩

/-- An escape that denotes nothing is read as the letter A. -/
theorem decodes_signed :
    (⟨.string, "\"\\u+041\"", 7⟩ : Token) ∈ tokenize "\x7b f(x: \"\\u+041\") \x7d" ∧
      (Document.ofSource "\x7b f(x: \"\\u+041\") \x7d").reports = [] ∧
      Production.value false [⟨.string, "\"\\u+041\"", 7⟩] = ⟨.string "A", [], []⟩ ∧
      ¬ ∃ parts cs, Divides Denotes parts "\\u+041".toList cs := by
  have hnumber : IsHexNumber ['0', '4', '1'] 'A'.toNat :=
    (hexNumber?_eq_some_iff.1 (by decide)).2
  have hdivides : Divides Accepts [['\\', 'u', '+', '0', '4', '1']] "\\u+041".toList ['A'] :=
    ⟨rfl, .cons (.signed rfl hnumber) .nil⟩
  have htext : "\"\\u+041\"".toList = ['"'] ++ ("\\u+041".toList ++ ['"']) := by decide
  refine ⟨by decide +kernel, by decide +kernel, ?_, ?_⟩
  · rw [Production.value_of_literal (Literal.ofToken?_of_string rfl htext) false,
      decode_of_divides hdivides, faults_eq_nil_iff.2 ⟨_, _, hdivides⟩]
    rfl
  · rw [divides_denotes_iff hdivides]
    exact fun hplain => hplain _ (List.mem_singleton_self _) ⟨_, rfl⟩

end Quoted

end QueryBatch
