import QueryBatch.Json.Strict
import QueryBatch.Proofs.Json.Numerals

/-!
# What is written for a JSON value is one JSON text

The text of a value is read in full, whatever the value is: numbers, strings, arrays and objects end
where they were ended, with enough calls for each bracket and comma. Main statements:

* `JsonSyntax.string?_quotedText`: the text of a string is read as one piece for each character;
* `Json.inductionOn`: what the items and members of a value pass on to it, holds of all values;
* `Json.written`, `Json.ofText?_text`: what is read from the text of a value.
-/

namespace QueryBatch

open Text

/-! ## Strings -/

namespace JsonSyntax

open Json (escape quotedText)

/-- The piece of a string that is written for a character. -/
def piece (c : Char) : Piece :=
  if letterOf? c = none ∧ c.toNat < 0x20 then .code c.toNat else .char c

/-- The text of a string between its quotes, character by character. -/
def pieces (text : String) : List Piece := text.toList.map piece

theorem hexPadded_control : ∀ n < 0x20,
    (hexPadded 4 n).length = 4 ∧ hexNumber? (hexPadded 4 n) = some n := by
  decide +kernel

/-- An escaped character is read back as one piece. -/
theorem string?_escape (c : Char) (cs : List Char) :
    string? (escape c ++ cs) = (string? cs).map (withPiece (piece c)) := by
  unfold escape piece
  cases hletter : letterOf? c with
  | some letter =>
    obtain ⟨hof, hu⟩ := ofLetter?_letterOf? hletter
    simp only [List.cons_append, List.nil_append, reduceCtorEq, false_and, if_false]
    rw [string?.eq_4 _ _ fun _ _ _ _ _ hcons _ => absurd hcons hu, hof]
  | none =>
    by_cases hcontrol : c.toNat < 0x20
    · obtain ⟨hlength, hnumber⟩ := hexPadded_control c.toNat hcontrol
      obtain ⟨a, b, d, e, hdigits⟩ : ∃ a b d e, hexPadded 4 c.toNat = [a, b, d, e] := by
        match hexPadded 4 c.toNat, hlength with
        | [a, b, d, e], _ => exact ⟨a, b, d, e, rfl⟩
      rw [hdigits] at hnumber
      simp only [hcontrol, if_true, and_self, hdigits, List.cons_append, List.nil_append]
      rw [string?.eq_3, hnumber]
    · have hquote : c ≠ '"' := by
        rintro rfl
        cases hletter
      have hslash : c ≠ '\\' := by
        rintro rfl
        cases hletter
      have hplain : (decide (c.toNat < 0x20) || c == '\\') = false := by
        simp [hcontrol, hslash]
      simp only [hcontrol, if_false, and_false, List.cons_append, List.nil_append]
      rw [string?.eq_5 c cs hquote (fun _ _ _ _ _ h _ => hslash h) (fun _ _ h _ => hslash h),
        hplain]
      rfl

theorem string?_flatMap_escape (cs rest : List Char) :
    string? (cs.flatMap escape ++ '"' :: rest) = some (cs.map piece, rest) := by
  induction cs with
  | nil => rw [List.flatMap_nil, List.nil_append, string?, List.map_nil]
  | cons c cs ih =>
    rw [List.flatMap_cons, List.append_assoc, string?_escape, ih]
    rfl

theorem toList_quotedText (text : String) :
    (quotedText text).toList = '"' :: (text.toList.flatMap escape ++ ['"']) := by
  rw [quotedText, String.toList_ofList, List.cons_append]

/-- A quoted text is read up to its closing quote, whatever stands behind it. -/
theorem string?_quotedText (text : String) (rest : List Char) :
    ∃ cs, (quotedText text).toList ++ rest = '"' :: cs ∧ string? cs = some (pieces text, rest) := by
  refine ⟨text.toList.flatMap escape ++ '"' :: rest, ?_, string?_flatMap_escape text.toList rest⟩
  rw [toList_quotedText, List.cons_append, List.append_assoc]
  rfl

end JsonSyntax

namespace Json

open JsonSyntax

/-! ## Values and their parts -/

/-- What holds of a value as soon as it holds of its items or members, holds of all values. -/
theorem inductionOn {p : Json → Prop} (v : Json) (null : p null) (bool : ∀ value, p (bool value))
    (int : ∀ value, p (int value)) (float : ∀ value, p (float value))
    (string : ∀ text, p (string text))
    (array : ∀ items, (∀ v ∈ items, p v) → p (array items))
    (object : ∀ entries, (∀ e ∈ entries, p e.2) → p (object entries)) : p v := by
  refine @Json.rec p (fun items => ∀ v ∈ items, p v) (fun entries => ∀ e ∈ entries, p e.2)
    (fun e => p e.2) null bool int float string array object nofun ?_ nofun ?_ (fun _ _ h => h) v
  · exact fun v vs hv hvs => List.forall_mem_cons.2 ⟨hv, hvs⟩
  · exact fun e es he hes => List.forall_mem_cons.2 ⟨he, hes⟩

/-! ## The syntax of a value -/

mutual

/-- The text of a value as it is read, before its numbers and strings are looked at. -/
def written : Json → JsonSyntax
  | null => .null
  | bool value => .bool value
  | int value => .number (integerNumeral value)
  | float (.finite negative m e _) => .number (floatNumeral negative m e)
  | float _ => .null
  | string text => .string (pieces text)
  | array items => .array (itemsWritten items)
  | object entries => .object (entriesWritten entries)

def itemsWritten : List Json → List JsonSyntax
  | [] => []
  | v :: vs => v.written :: itemsWritten vs

def entriesWritten : List (String × Json) → List (List Piece × JsonSyntax)
  | [] => []
  | (key, v) :: es => (pieces key, v.written) :: entriesWritten es

end

/-! ## Reading the text of a value -/

/-- What may stand at the start of a value is no blank and no bracket that closes. -/
def starts (c : Char) : Bool := !JsonSyntax.isBlank c && c != ']' && c != '\x7d'

theorem starts_of_number {c : Char} (h : c = '-' ∨ c.isDigit = true) : starts c = true := by
  rcases h with rfl | h
  · rfl
  · have hne : ∀ d : Char, d.isDigit = false → (c == d) = false := by
      intro d hd
      refine beq_eq_false_iff_ne.2 ?_
      rintro rfl
      rw [h] at hd
      cases hd
    simp [starts, JsonSyntax.isBlank, bne, hne]

/-- The characters of texts with commas between them. -/
def joined (texts : List String) : List Char := (",".intercalate texts).toList

theorem joined_singleton (text : String) : joined [text] = text.toList := by
  rw [joined, String.intercalate_singleton]

theorem joined_cons_cons (text next : String) (texts : List String) :
    joined (text :: next :: texts) = text.toList ++ ',' :: joined (next :: texts) := by
  rw [joined, String.intercalate_cons_cons, String.toList_append, String.toList_append,
    List.append_assoc]
  rfl

theorem toList_text_array (items : List Json) :
    (array items).text.toList = '[' :: (joined (itemTexts items) ++ [']']) := by
  rw [Json.text, String.toList_append, String.toList_append]
  rfl

theorem toList_text_object (entries : List (String × Json)) :
    (object entries).text.toList = '\x7b' :: (joined (entryTexts entries) ++ ['\x7d']) := by
  rw [Json.text, String.toList_append, String.toList_append]
  rfl

theorem toList_entryText (key : String) (v : Json) :
    (quotedText key ++ ":" ++ v.text).toList =
      (quotedText key).toList ++ ':' :: v.text.toList := by
  rw [String.toList_append, String.toList_append, List.append_assoc]
  rfl

theorem text_infinite (negative : Bool) : (float (.infinite negative)).text = "null" := by
  have hinfinite : (Binary64.infinite negative).isFinite = false := rfl
  rw [Json.text, floatText, hinfinite, if_neg Bool.false_ne_true]

theorem written_infinite (negative : Bool) : (float (.infinite negative)).written = .null := by
  simp [written]

/-- The text of a value starts with a character that neither is blank nor ends a list. -/
theorem exists_first_text (v : Json) : ∃ c cs, v.text.toList = c :: cs ∧ starts c = true := by
  match v with
  | null => exact ⟨'n', _, rfl, rfl⟩
  | bool true => exact ⟨'t', _, rfl, rfl⟩
  | bool false => exact ⟨'f', _, rfl, rfl⟩
  | int n =>
    obtain ⟨c, cs, hcons, hc⟩ := exists_first_number (n < 0) (proper_natural n.natAbs)
    refine ⟨c, cs, ?_, starts_of_number hc⟩
    rw [Json.text, toList_toString_int, hcons]
  | float (.finite negative m e h) =>
    obtain ⟨c, cs, hcons, hc⟩ :=
      exists_first_number negative (Binary64.Layout.proper_numeral jsonNumbers _)
    refine ⟨c, cs, ?_, starts_of_number hc⟩
    rw [Json.text, toList_floatText, hcons]
  | float (.infinite negative) => exact ⟨'n', _, by rw [text_infinite]; rfl, rfl⟩
  | float .nan => exact ⟨'n', _, rfl, rfl⟩
  | string text => exact ⟨'"', _, toList_quotedText text, rfl⟩
  | array items => exact ⟨'[', _, toList_text_array items, rfl⟩
  | object entries => exact ⟨'\x7b', _, toList_text_object entries, rfl⟩

theorem skipBlank_cons {c : Char} (h : JsonSyntax.isBlank c = false) (cs : List Char) :
    skipBlank (c :: cs) = c :: cs := by
  simp [skipBlank, h]

theorem value?_number {c : Char} (h : c = '-' ∨ c.isDigit = true) (fuel : Nat)
    (cs : List Char) :
    value? (fuel + 1) (c :: cs) =
      (number? (c :: cs)).map fun (numeral, rest) => (.number numeral, rest) := by
  have hne : ∀ d : Char, d ≠ '-' → d.isDigit = false → c ≠ d := by
    rintro d hminus hd rfl
    rcases h with h | h
    · exact hminus h
    · rw [h] at hd
      cases hd
  have hskip : skipBlank (c :: cs) = c :: cs := by
    have hstarts := starts_of_number h
    simp only [starts, Bool.and_eq_true, Bool.not_eq_true'] at hstarts
    exact skipBlank_cons hstarts.1.1 cs
  unfold value?
  rw [hskip]
  split
  · rename_i hcons
    exact absurd (List.cons.inj hcons).1 (hne 'n' (by decide) rfl)
  · rename_i hcons
    exact absurd (List.cons.inj hcons).1 (hne 't' (by decide) rfl)
  · rename_i hcons
    exact absurd (List.cons.inj hcons).1 (hne 'f' (by decide) rfl)
  · rename_i hcons
    exact absurd (List.cons.inj hcons).1 (hne '"' (by decide) rfl)
  · rename_i hcons
    exact absurd (List.cons.inj hcons).1 (hne '[' (by decide) rfl)
  · rename_i hcons
    exact absurd (List.cons.inj hcons).1 (hne '\x7b' (by decide) rfl)
  · rfl

section

variable {rest : List Char} {fuel : Nat}

theorem value?_string (text : String) :
    value? (fuel + 1) ((quotedText text).toList ++ rest) = some (.string (pieces text), rest) := by
  obtain ⟨cs, hcons, hstring⟩ := string?_quotedText text rest
  rw [hcons, value?, skipBlank_cons rfl]
  simp only [hstring]
  rfl

theorem value?_array_nil : value? (fuel + 1) ('[' :: ']' :: rest) = some (.array [], rest) := by
  rw [value?, skipBlank_cons rfl]
  simp only [skipBlank_cons (c := ']') rfl]

/-- An array that does not end at once has a first item. -/
theorem value?_array {c : Char} (hc : starts c = true) (cs : List Char) :
    value? (fuel + 1) ('[' :: c :: cs) =
      (items? fuel (c :: cs)).map fun (items, rest) => (.array items, rest) := by
  simp only [starts, Bool.and_eq_true, Bool.not_eq_true', bne_iff_ne] at hc
  rw [value?, skipBlank_cons rfl]
  simp only [skipBlank_cons hc.1.1]
  split
  · rename_i hcons
    exact absurd (List.cons.inj hcons).1 hc.1.2
  · rfl

theorem value?_object_nil :
    value? (fuel + 1) ('\x7b' :: '\x7d' :: rest) = some (.object [], rest) := by
  rw [value?, skipBlank_cons rfl]
  simp only [skipBlank_cons (c := '\x7d') rfl]

/-- An object that does not end at once has a first key. -/
theorem value?_object (cs : List Char) :
    value? (fuel + 1) ('\x7b' :: '"' :: cs) =
      (entries? fuel ('"' :: cs)).map fun (entries, rest) => (.object entries, rest) := by
  rw [value?, skipBlank_cons rfl]
  simp only [skipBlank_cons (c := '"') rfl]
  rfl

end

section

variable {rest after : List Char} {fuel : Nat}

/-- The closing bracket behind an item ends the array. -/
theorem items?_last {cs : List Char} {s : JsonSyntax}
    (h : value? fuel cs = some (s, ']' :: rest)) : items? (fuel + 1) cs = some ([s], rest) := by
  rw [items?, h]
  rfl

/-- A comma behind an item is followed by more items. -/
theorem items?_more {cs : List Char} {s : JsonSyntax} {ss : List JsonSyntax}
    (h : value? fuel cs = some (s, ',' :: after)) (hmore : items? fuel after = some (ss, rest)) :
    items? (fuel + 1) cs = some (s :: ss, rest) := by
  rw [items?, h]
  show (items? fuel after >>= fun r => pure (s :: r.1, r.2)) = _
  rw [hmore]
  rfl

/-- The closing brace behind an entry ends the object. -/
theorem entries?_last {key : String} {cs : List Char} {s : JsonSyntax}
    (h : value? fuel cs = some (s, '\x7d' :: rest)) :
    entries? (fuel + 1) ((quotedText key).toList ++ ':' :: cs) =
      some ([(pieces key, s)], rest) := by
  obtain ⟨ds, hcons, hstring⟩ := string?_quotedText key (':' :: cs)
  rw [hcons, entries?, skipBlank_cons rfl]
  show (JsonSyntax.string? ds >>= _) = _
  rw [hstring]
  show (value? fuel cs >>= _) = _
  rw [h]
  rfl

/-- A comma behind an entry is followed by more entries. -/
theorem entries?_more {key : String} {cs : List Char} {s : JsonSyntax}
    {ss : List (List Piece × JsonSyntax)}
    (h : value? fuel cs = some (s, ',' :: after)) (hmore : entries? fuel after = some (ss, rest)) :
    entries? (fuel + 1) ((quotedText key).toList ++ ':' :: cs) =
      some ((pieces key, s) :: ss, rest) := by
  obtain ⟨ds, hcons, hstring⟩ := string?_quotedText key (':' :: cs)
  rw [hcons, entries?, skipBlank_cons rfl]
  show (JsonSyntax.string? ds >>= _) = _
  rw [hstring]
  show (value? fuel cs >>= _) = _
  rw [h]
  show (entries? fuel after >>= fun r => pure ((pieces key, s) :: r.1, r.2)) = _
  rw [hmore]
  rfl

end

theorem length_text_pos (v : Json) : 0 < v.text.toList.length := by
  obtain ⟨c, cs, hcons, -⟩ := exists_first_text v
  rw [hcons]
  exact Nat.succ_pos _

theorem exists_first_joined (v : Json) (vs : List Json) :
    ∃ c cs, joined (itemTexts (v :: vs)) = c :: cs ∧ starts c = true := by
  obtain ⟨c, cs, hcons, hc⟩ := exists_first_text v
  cases vs with
  | nil => exact ⟨c, cs, by rw [itemTexts, itemTexts, joined_singleton, hcons], hc⟩
  | cons w vs =>
    refine ⟨c, cs ++ ',' :: joined (itemTexts (w :: vs)), ?_, hc⟩
    rw [itemTexts, itemTexts, joined_cons_cons, hcons, List.cons_append]

theorem exists_quote_joined (e : String × Json) (es : List (String × Json)) :
    ∃ cs, joined (entryTexts (e :: es)) = '"' :: cs := by
  obtain ⟨key, v⟩ := e
  cases es with
  | nil =>
    refine ⟨key.toList.flatMap escape ++ ['"'] ++ ':' :: v.text.toList, ?_⟩
    rw [entryTexts, entryTexts, joined_singleton, toList_entryText, toList_quotedText,
      List.cons_append]
  | cons e es =>
    refine ⟨key.toList.flatMap escape ++ ['"'] ++ ':' :: v.text.toList ++
      ',' :: joined (entryTexts (e :: es)), ?_⟩
    rw [entryTexts, entryTexts, joined_cons_cons, toList_entryText, toList_quotedText,
      List.cons_append, List.cons_append]

/-- The text of a value is read in front of whatever may stand behind a value. -/
def IsRead (v : Json) : Prop :=
  ∀ fuel rest, Follows rest → 2 * v.text.toList.length ≤ fuel + 1 →
    value? (fuel + 1) (v.text.toList ++ rest) = some (v.written, rest)

theorem IsRead.value? {v : Json} (h : v.IsRead) {fuel : Nat} {rest : List Char}
    (hrest : Follows rest) (hfuel : 2 * v.text.toList.length ≤ fuel) :
    value? fuel (v.text.toList ++ rest) = some (v.written, rest) := by
  have hpos := length_text_pos v
  obtain ⟨fuel, rfl⟩ : ∃ less, fuel = less + 1 := ⟨fuel - 1, by omega⟩
  exact h fuel rest hrest hfuel

theorem isRead_int (n : Int) : (int n).IsRead := by
  intro fuel rest hrest _
  obtain ⟨c, cs, hcons, hc⟩ := exists_first_number (n < 0) (proper_natural n.natAbs)
  rw [← toList_toString_int] at hcons
  have hread := number?_toString n hrest
  rw [hcons, List.cons_append] at hread
  rw [Json.text, hcons, List.cons_append, value?_number hc, hread, written]
  rfl

theorem isRead_float (x : Binary64) : (float x).IsRead := by
  intro fuel rest hrest _
  match x with
  | .finite negative m e h =>
    obtain ⟨c, cs, hcons, hc⟩ :=
      exists_first_number negative (Binary64.Layout.proper_numeral jsonNumbers _)
    rw [← toList_floatText h] at hcons
    have hread := @number?_floatText negative m e h rest hrest
    rw [hcons, List.cons_append] at hread
    rw [Json.text, hcons, List.cons_append, value?_number hc, hread, written]
    rfl
  | .infinite negative =>
    rw [text_infinite, written_infinite]
    rfl
  | .nan => rfl

/-- The items of an array are read one after the other, if each of them is read. -/
theorem items?_text (rest : List Char) {vs : List Json} (hne : vs ≠ [])
    (h : ∀ v ∈ vs, v.IsRead) (fuel : Nat) (hfuel : 2 * (joined (itemTexts vs)).length < fuel) :
    items? fuel (joined (itemTexts vs) ++ ']' :: rest) = some (itemsWritten vs, rest) := by
  induction vs generalizing fuel with
  | nil => exact absurd rfl hne
  | cons v vs ih =>
    obtain ⟨hv, hvs⟩ := List.forall_mem_cons.1 h
    obtain ⟨fuel, rfl⟩ : ∃ less, fuel = less + 1 := ⟨fuel - 1, by omega⟩
    cases vs with
    | nil =>
      simp only [itemTexts, joined_singleton] at hfuel ⊢
      exact items?_last (hv.value? (follows_cons (.inr (.inl rfl)) rest) (by omega))
    | cons w vs =>
      have htail := ih (List.cons_ne_nil w vs) hvs fuel
      simp only [itemTexts, joined_cons_cons, List.length_append, List.length_cons] at hfuel htail ⊢
      rw [List.append_assoc]
      exact items?_more (hv.value? (follows_cons (.inl rfl) _) (by omega)) (htail (by omega))

/-- The entries of an object are read one after the other, if each value is read. -/
theorem entries?_text (rest : List Char) {es : List (String × Json)} (hne : es ≠ [])
    (h : ∀ e ∈ es, e.2.IsRead) (fuel : Nat)
    (hfuel : 2 * (joined (entryTexts es)).length < fuel) :
    entries? fuel (joined (entryTexts es) ++ '\x7d' :: rest) =
      some (entriesWritten es, rest) := by
  induction es generalizing fuel with
  | nil => exact absurd rfl hne
  | cons e es ih =>
    obtain ⟨key, v⟩ := e
    obtain ⟨hv, hes⟩ : v.IsRead ∧ ∀ e ∈ es, e.2.IsRead := List.forall_mem_cons.1 h
    obtain ⟨fuel, rfl⟩ : ∃ less, fuel = less + 1 := ⟨fuel - 1, by omega⟩
    cases es with
    | nil =>
      simp only [entryTexts, joined_singleton, toList_entryText, List.length_append,
        List.length_cons] at hfuel ⊢
      rw [List.append_assoc]
      exact entries?_last (hv.value? (follows_cons (.inr (.inr rfl)) rest) (by omega))
    | cons e es =>
      have htail := ih (List.cons_ne_nil e es) hes fuel
      simp only [entryTexts, joined_cons_cons, toList_entryText, List.length_append,
        List.length_cons] at hfuel htail ⊢
      rw [List.append_assoc, List.append_assoc]
      exact entries?_more (hv.value? (follows_cons (.inl rfl) _) (by omega)) (htail (by omega))

theorem isRead_array {items : List Json} (h : ∀ v ∈ items, v.IsRead) : (array items).IsRead := by
  intro fuel rest _ hfuel
  cases items with
  | nil => exact value?_array_nil
  | cons v vs =>
    obtain ⟨c, cs, hcons, hc⟩ := exists_first_joined v vs
    simp only [toList_text_array, List.length_cons, List.length_append, List.length_nil] at hfuel
    have hread := items?_text rest (List.cons_ne_nil v vs) h fuel (by omega)
    rw [toList_text_array, List.cons_append, List.append_assoc, List.singleton_append]
    rw [hcons, List.cons_append] at hread ⊢
    rw [value?_array hc, hread, written]
    rfl

theorem isRead_object {entries : List (String × Json)} (h : ∀ e ∈ entries, e.2.IsRead) :
    (object entries).IsRead := by
  intro fuel rest _ hfuel
  cases entries with
  | nil => exact value?_object_nil
  | cons e es =>
    obtain ⟨cs, hcons⟩ := exists_quote_joined e es
    simp only [toList_text_object, List.length_cons, List.length_append, List.length_nil] at hfuel
    have hread := entries?_text rest (List.cons_ne_nil e es) h fuel (by omega)
    rw [toList_text_object, List.cons_append, List.append_assoc, List.singleton_append]
    rw [hcons, List.cons_append] at hread ⊢
    rw [value?_object, hread, written]
    rfl

/-- Every value is read from its text, by induction on the value. -/
theorem isRead (v : Json) : v.IsRead :=
  v.inductionOn (fun _ _ _ _ => rfl) (fun | true, _, _, _, _ => rfl | false, _, _, _, _ => rfl)
    isRead_int isRead_float (fun text _ _ _ _ => value?_string text)
    (fun _ => isRead_array) (fun _ => isRead_object)

/-- The text of a value is a JSON text, and its syntax is that of the value. -/
theorem ofText?_text (v : Json) : JsonSyntax.ofText? v.text = some v.written := by
  have hread := v.isRead (2 * v.text.toList.length + 1) [] follows_nil (by omega)
  rw [List.append_nil] at hread
  rw [JsonSyntax.ofText?, ofChars?, hread]
  rfl

end Json

end QueryBatch
