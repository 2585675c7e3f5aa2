import QueryBatch.Json.Strict
import QueryBatch.Proofs.Dict
import QueryBatch.Proofs.Json.Text

/-!
# Values that come back from their text

A value is what its text is read as if its numbers are ones that JSON carries and the keys of its
objects ascend, as far as it is nested no deeper than is allowed. Integers of 64 bits and strings
need no assumption. Floating point numbers do: their text is right, but its reader rounds twice.
Main statements:

* `Json.json?_written`: what comes back from the text of a value is that value;
* `Json.fits_of_json?`: what is read can be carried, and is nested no deeper than is allowed;
* `Json.eq_null_of_json?`: null is read from null only.
-/

namespace QueryBatch

open Text

theorem exists_of_mem_mapM {α β : Type} {f : α → Option β} {xs : List α} {ys : List β}
    (h : xs.mapM f = some ys) {y : β} (hy : y ∈ ys) : ∃ x ∈ xs, f x = some y := by
  induction xs generalizing ys with
  | nil =>
    obtain rfl : [] = ys := Option.some.inj h
    cases hy
  | cons x xs ih =>
    simp only [List.mapM_cons, Option.bind_eq_bind, Option.bind_eq_some_iff] at h
    obtain ⟨z, hz, zs, hzs, heq⟩ := h
    obtain rfl := Option.some.inj heq
    rcases List.mem_cons.1 hy with rfl | hy
    · exact ⟨x, List.mem_cons_self, hz⟩
    · obtain ⟨x', hx', hread⟩ := ih hzs hy
      exact ⟨x', List.mem_cons_of_mem x hx', hread⟩

/-! ## Strings -/

namespace JsonSyntax

/-- Pieces of characters, escaped or not, give back the characters. -/
theorem characters?_pieces (cs : List Char) : characters? (cs.map piece) = some cs := by
  induction cs with
  | nil => rfl
  | cons c cs ih =>
    rw [List.map_cons, piece]
    split
    · unfold characters?
      simp only [scalar?_toNat, ih]
      rfl
    · rw [characters?, ih]
      rfl

theorem textOf?_pieces (text : String) : textOf? (pieces text) = some text := by
  rw [textOf?, pieces, characters?_pieces, Option.map_some, String.ofList_toList]

end JsonSyntax

namespace Json

open JsonSyntax

/-! ## The parts of a value -/

mutual

/-- A value and all that is in it. -/
def parts : Json → List Json
  | array items => array items :: itemsParts items
  | object entries => object entries :: entriesParts entries
  | v => [v]

def itemsParts : List Json → List Json
  | [] => []
  | v :: vs => v.parts ++ itemsParts vs

def entriesParts : List (String × Json) → List Json
  | [] => []
  | (_, v) :: es => v.parts ++ entriesParts es

end

mutual

/-- How deep arrays and objects are nested. -/
def depth : Json → Nat
  | array items => itemsDepth items + 1
  | object entries => entriesDepth entries + 1
  | _ => 0

def itemsDepth : List Json → Nat
  | [] => 0
  | v :: vs => max v.depth (itemsDepth vs)

def entriesDepth : List (String × Json) → Nat
  | [] => 0
  | (_, v) :: es => max v.depth (entriesDepth es)

end

theorem mem_itemsParts {w : Json} {vs : List Json} :
    w ∈ itemsParts vs ↔ ∃ v ∈ vs, w ∈ v.parts := by
  induction vs with
  | nil => simp [itemsParts]
  | cons v vs ih => simp [itemsParts, ih]

theorem mem_entriesParts {w : Json} {es : List (String × Json)} :
    w ∈ entriesParts es ↔ ∃ e ∈ es, w ∈ e.2.parts := by
  induction es with
  | nil => simp [entriesParts]
  | cons e es ih => simp [entriesParts, ih]

/-- The depth of a list is the greatest one of its items. -/
theorem itemsDepth_le {n : Nat} {vs : List Json} :
    itemsDepth vs ≤ n ↔ ∀ v ∈ vs, v.depth ≤ n := by
  induction vs with
  | nil => simp [itemsDepth]
  | cons v vs ih => simp [itemsDepth, ih]

theorem entriesDepth_le {n : Nat} {es : List (String × Json)} :
    entriesDepth es ≤ n ↔ ∀ e ∈ es, e.2.depth ≤ n := by
  induction es with
  | nil => simp [entriesDepth]
  | cons e es ih => simp [entriesDepth, ih]

theorem depth_array_le {n : Nat} {items : List Json} :
    (array items).depth ≤ n + 1 ↔ ∀ v ∈ items, v.depth ≤ n := by
  rw [depth, Nat.add_le_add_iff_right, itemsDepth_le]

theorem depth_object_le {n : Nat} {entries : List (String × Json)} :
    (object entries).depth ≤ n + 1 ↔ ∀ e ∈ entries, e.2.depth ≤ n := by
  rw [depth, Nat.add_le_add_iff_right, entriesDepth_le]

/-- An array needs a level for itself. -/
theorem exists_level_of_array {levels : Nat} {items : List Json}
    (h : (array items).depth ≤ levels) : ∃ less, levels = less + 1 :=
  Nat.exists_eq_add_one.2 (Nat.lt_of_lt_of_le (by rw [depth]; exact Nat.succ_pos _) h)

theorem exists_level_of_object {levels : Nat} {entries : List (String × Json)}
    (h : (object entries).depth ≤ levels) : ∃ less, levels = less + 1 :=
  Nat.exists_eq_add_one.2 (Nat.lt_of_lt_of_le (by rw [depth]; exact Nat.succ_pos _) h)

/-- All parts of a value satisfy `p`. -/
def Everywhere (p : Json → Prop) (v : Json) : Prop := ∀ w ∈ v.parts, p w

instance (p : Json → Prop) [DecidablePred p] : DecidablePred (Everywhere p) :=
  fun v => inferInstanceAs (Decidable (∀ w ∈ v.parts, p w))

section

variable {p : Json → Prop}

theorem everywhere_array {items : List Json} :
    (array items).Everywhere p ↔ p (array items) ∧ ∀ v ∈ items, v.Everywhere p := by
  simp only [Everywhere, parts, List.forall_mem_cons, mem_itemsParts]
  exact and_congr_right fun _ =>
    ⟨fun h v hv w hw => h w ⟨v, hv, hw⟩, fun h w ⟨v, hv, hw⟩ => h v hv w hw⟩

theorem everywhere_object {entries : List (String × Json)} :
    (object entries).Everywhere p ↔ p (object entries) ∧ ∀ e ∈ entries, e.2.Everywhere p := by
  simp only [Everywhere, parts, List.forall_mem_cons, mem_entriesParts]
  exact and_congr_right fun _ =>
    ⟨fun h e he w hw => h w ⟨e, he, hw⟩, fun h w ⟨e, he, hw⟩ => h e he w hw⟩

/-- A value is a part of itself. -/
theorem everywhere_self {v : Json} (h : v.Everywhere p) : p v :=
  h v (by cases v <;> simp [parts])

end

/-! ## Values that can be carried -/

/-- Integers have 64 bits, other numbers are finite, and the keys of objects ascend. -/
def Regular : Json → Prop
  | int n => Int64.minValue.toInt ≤ n ∧ n < UInt64.size
  | float x => x.isFinite = true
  | object entries => Ascending entries
  | _ => True

instance : DecidablePred Regular
  | null | bool _ | string _ | array _ => .isTrue trivial
  | int n => inferInstanceAs (Decidable (Int64.minValue.toInt ≤ n ∧ n < UInt64.size))
  | float x => inferInstanceAs (Decidable (x.isFinite = true))
  | object entries => inferInstanceAs (Decidable (entries.Pairwise fun a b => a.1 < b.1))

/-- A value that JSON carries in at most `levels` nested levels. -/
structure Fits (levels : Nat) (v : Json) : Prop where
  regular : v.Everywhere Regular
  nests : v.depth ≤ levels

/-- A value without parts needs no level. -/
theorem fits_leaf {levels : Nat} {v : Json} (hparts : v.parts = [v]) (hdepth : v.depth = 0)
    (h : v.Regular) : v.Fits levels where
  regular := by
    rw [Everywhere, hparts, List.forall_mem_singleton]
    exact h
  nests := hdepth ▸ Nat.zero_le levels

/-- An array can be carried on one more level than each of its items. -/
theorem fits_array {levels : Nat} {items : List Json} :
    (array items).Fits (levels + 1) ↔ ∀ v ∈ items, v.Fits levels :=
  ⟨fun h v hv => ⟨(everywhere_array.1 h.regular).2 v hv, depth_array_le.1 h.nests v hv⟩,
    fun h => ⟨everywhere_array.2 ⟨trivial, fun v hv => (h v hv).regular⟩,
      depth_array_le.2 fun v hv => (h v hv).nests⟩⟩

/-- An object can be carried if its keys ascend, too. -/
theorem fits_object {levels : Nat} {entries : List (String × Json)} :
    (object entries).Fits (levels + 1) ↔ Ascending entries ∧ ∀ e ∈ entries, e.2.Fits levels :=
  ⟨fun h => ⟨(everywhere_object.1 h.regular).1, fun e he =>
      ⟨(everywhere_object.1 h.regular).2 e he, depth_object_le.1 h.nests e he⟩⟩,
    fun h => ⟨everywhere_object.2 ⟨h.1, fun e he => (h.2 e he).regular⟩,
      depth_object_le.2 fun e he => (h.2 e he).nests⟩⟩

def float? : Json → Option Binary64
  | float x => some x
  | _ => none

/-- A floating point number is what its text is read as. The reader rounds twice, so that not all of
them are. -/
def ReadsBack : Json → Prop
  | float x => (ofText? 0 (floatText x)).bind float? = some x
  | _ => True

instance : DecidablePred ReadsBack
  | null | bool _ | string _ | array _ | int _ | object _ => .isTrue trivial
  | float x => inferInstanceAs (Decidable ((ofText? 0 (floatText x)).bind float? = some x))

/-- An integer of 64 bits is read as it was written. -/
theorem value?_integerNumeral {n : Int} (h : (int n).Regular) :
    (integerNumeral n).value? = some (int n) := by
  obtain ⟨hmin, hmax⟩ := h
  have hwhole : Nat.ofDigitChars 10 (integerNumeral n).whole 0 = n.natAbs :=
    Nat.ofDigitChars_ten_toDigits
  have hinteger : (integerNumeral n).isInteger = true := rfl
  have hnegative : (integerNumeral n).negative = decide (n < 0) := rfl
  unfold Numeral.value?
  simp only [hwhole, hinteger, hnegative, Bool.true_and]
  by_cases hn : n < 0
  · have habs : (n.natAbs : Int) = -n := by omega
    have hpos : 0 < n.natAbs := by omega
    have hle : Int64.minValue.toInt ≤ -(n.natAbs : Int) := by omega
    simp only [hn, hpos, hle, decide_true, Bool.true_and, if_true]
    rw [habs, Int.neg_neg]
  · have habs : (n.natAbs : Int) = n := by omega
    have hlt : n.natAbs < UInt64.size := by omega
    simp [hn, hlt, habs]

theorem json?_written_float {x : Binary64} (h : (float x).ReadsBack) (levels : Nat) :
    (float x).written.json? levels = some (float x) := by
  have hread : (ofText? 0 (float x).text).bind float? = some x := h
  rw [Json.ofText?, ofText?_text, Option.bind_some] at hread
  obtain ⟨v, hv, hx⟩ := Option.bind_eq_some_iff.1 hread
  have hfloat : v = float x := by
    cases v <;> cases hx
    rfl
  subst hfloat
  match x with
  | .finite negative m e _ =>
    rw [written, json?] at hv ⊢
    exact hv
  | .infinite _ =>
    rw [written_infinite, json?] at hv
    cases hv
  | .nan => cases hv

/-- The items of an array and the members of an object come back if each of them does. -/
theorem jsonItems?_written {levels : Nat} {vs : List Json}
    (h : ∀ v ∈ vs, v.written.json? levels = some v) :
    jsonItems? levels (itemsWritten vs) = some vs := by
  induction vs with
  | nil => rfl
  | cons v vs ih =>
    obtain ⟨hv, hvs⟩ := List.forall_mem_cons.1 h
    rw [itemsWritten, jsonItems?, hv, ih hvs]

theorem jsonEntries?_written {levels : Nat} {es : List (String × Json)}
    (h : ∀ e ∈ es, e.2.written.json? levels = some e.2) :
    jsonEntries? levels (entriesWritten es) = some es := by
  induction es with
  | nil => rfl
  | cons e es ih =>
    obtain ⟨he, hes⟩ := List.forall_mem_cons.1 h
    rw [entriesWritten, jsonEntries?, textOf?_pieces, he, ih hes]

/-- A value that can be carried, and whose numbers are read as they are written. -/
structure Carried (levels : Nat) (v : Json) : Prop extends Fits levels v where
  floats : v.Everywhere ReadsBack

/-- What is in an array is carried on the levels that are left. -/
theorem Carried.item {levels : Nat} {items : List Json} (h : (array items).Carried (levels + 1))
    {v : Json} (hv : v ∈ items) : v.Carried levels where
  toFits := (fits_array.1 h.toFits) v hv
  floats := (everywhere_array.1 h.floats).2 v hv

theorem Carried.member {levels : Nat} {entries : List (String × Json)}
    (h : (object entries).Carried (levels + 1)) {e : String × Json} (he : e ∈ entries) :
    e.2.Carried levels where
  toFits := (fits_object.1 h.toFits).2 e he
  floats := (everywhere_object.1 h.floats).2 e he

/-- A value that can be carried is given back by its syntax. -/
theorem json?_written {levels : Nat} {v : Json} (h : v.Carried levels) :
    v.written.json? levels = some v := by
  refine v.inductionOn (p := fun v => ∀ levels, v.Carried levels →
    v.written.json? levels = some v) ?_ ?_ ?_ ?_ ?_ ?_ ?_ levels h
  · exact fun _ _ => rfl
  · exact fun _ _ _ => rfl
  · intro n levels hn
    rw [written, json?, value?_integerNumeral (everywhere_self hn.regular)]
  · exact fun x levels hx => json?_written_float (everywhere_self hx.floats) levels
  · intro text levels _
    rw [written, json?, textOf?_pieces]
    rfl
  · intro items ih levels hitems
    obtain ⟨levels, rfl⟩ : ∃ less, levels = less + 1 := exists_level_of_array hitems.nests
    rw [written, json?, jsonItems?_written fun v hv => ih v hv levels (hitems.item hv)]
    rfl
  · intro entries ih levels hentries
    obtain ⟨levels, rfl⟩ : ∃ less, levels = less + 1 := exists_level_of_object hentries.nests
    have hascending : Ascending entries := (everywhere_object.1 hentries.regular).1
    rw [written, json?, jsonEntries?_written fun e he => ih e he levels (hentries.member he),
      Option.map_some, ofDict, Dict.entries_ofList_of_ascending hascending]

/-! ## What is read can be carried -/

theorem jsonItems?_eq_mapM (levels : Nat) (items : List JsonSyntax) :
    jsonItems? levels items = items.mapM (JsonSyntax.json? levels) := by
  induction items with
  | nil => rfl
  | cons s items ih =>
    rw [jsonItems?, List.mapM_cons, ← ih]
    cases JsonSyntax.json? levels s <;> cases jsonItems? levels items <;> rfl

theorem exists_of_mem_jsonEntries? {levels : Nat} {entries : List (List Piece × JsonSyntax)}
    {es : List (String × Json)} (h : jsonEntries? levels entries = some es) {e : String × Json}
    (he : e ∈ es) : ∃ s, JsonSyntax.json? levels s = some e.2 := by
  induction entries generalizing es with
  | nil =>
    obtain rfl : [] = es := Option.some.inj h
    cases he
  | cons d entries ih =>
    rw [jsonEntries?] at h
    split at h
    · rename_i hvalue hentries
      obtain rfl := Option.some.inj h
      rcases List.mem_cons.1 he with rfl | he
      · exact ⟨d.2, hvalue⟩
      · exact ih hentries he
    · cases h

/-- A number that was read is an integer of 64 bits or finite. -/
theorem fits_of_value? {n : Numeral} {v : Json} (h : n.value? = some v) (levels : Nat) :
    v.Fits levels := by
  unfold Numeral.value? at h
  simp only at h
  split at h
  · rename_i hint
    obtain rfl := Option.some.inj h
    simp only [Bool.and_eq_true, decide_eq_true_eq] at hint
    refine fits_leaf rfl rfl ⟨hint.2, ?_⟩
    have hsize : 0 < UInt64.size := by decide
    omega
  · split at h
    · rename_i hint
      obtain rfl := Option.some.inj h
      simp only [Bool.and_eq_true, decide_eq_true_eq] at hint
      refine fits_leaf rfl rfl ⟨?_, by omega⟩
      have hmin : Int64.minValue.toInt ≤ 0 := by decide
      omega
    · split at h
      · rename_i hfinite
        obtain rfl := Option.some.inj h
        exact fits_leaf rfl rfl hfinite
      · cases h

theorem fits_of_jsonItems? {levels : Nat} {items : List JsonSyntax} {vs : List Json}
    (hread : ∀ {s v}, JsonSyntax.json? levels s = some v → v.Fits levels)
    (h : jsonItems? levels items = some vs) : (array vs).Fits (levels + 1) := by
  rw [jsonItems?_eq_mapM] at h
  refine fits_array.2 fun v hv => ?_
  obtain ⟨s, -, hs⟩ := exists_of_mem_mapM h hv
  exact hread hs

/-- Keys are sorted while they are read, and a later one replaces an equal one. -/
theorem fits_of_jsonEntries? {levels : Nat} {entries : List (List Piece × JsonSyntax)}
    {es : List (String × Json)}
    (hread : ∀ {s v}, JsonSyntax.json? levels s = some v → v.Fits levels)
    (h : jsonEntries? levels entries = some es) : (ofDict (.ofList es)).Fits (levels + 1) := by
  refine fits_object.2 ⟨(Dict.ofList es).ascending, fun e he => ?_⟩
  obtain ⟨s, hs⟩ := exists_of_mem_jsonEntries? h (Dict.mem_of_mem_ofList he)
  exact hread hs

/-- Every value that was read can be carried on the levels that it was read with. -/
theorem fits_of_json? {levels : Nat} {s : JsonSyntax} {v : Json}
    (h : s.json? levels = some v) : v.Fits levels := by
  -- Each array and each object takes a level, so the induction is on the levels.
  induction levels using Nat.strongRecOn generalizing s v with
  | ind levels ih =>
    cases s with
    | null =>
      obtain rfl := Option.some.inj h
      exact fits_leaf rfl rfl trivial
    | bool value =>
      obtain rfl := Option.some.inj h
      exact fits_leaf rfl rfl trivial
    | number numeral =>
      rw [json?] at h
      exact fits_of_value? h levels
    | string pieces =>
      rw [json?] at h
      obtain ⟨text, -, rfl⟩ := Option.map_eq_some_iff.1 h
      exact fits_leaf rfl rfl trivial
    | array items =>
      cases levels <;> rw [json?] at h
      · cases h
      · obtain ⟨vs, hvs, rfl⟩ := Option.map_eq_some_iff.1 h
        exact fits_of_jsonItems? (ih _ (Nat.lt_succ_self _)) hvs
    | object entries =>
      cases levels <;> rw [json?] at h
      · cases h
      · obtain ⟨es, hes, rfl⟩ := Option.map_eq_some_iff.1 h
        exact fits_of_jsonEntries? (ih _ (Nat.lt_succ_self _)) hes

/-- Only null is read as null. -/
theorem eq_null_of_json? {levels : Nat} {s : JsonSyntax} (h : s.json? levels = some null) :
    s = .null := by
  cases s with
  | null => rfl
  | bool value => cases h
  | number numeral =>
    rw [json?, Numeral.value?] at h
    repeat' split at h
    all_goals cases h
  | string pieces =>
    rw [json?] at h
    obtain ⟨_, -, ⟨⟩⟩ := Option.map_eq_some_iff.1 h
  | array items =>
    cases levels <;> rw [json?] at h
    · cases h
    · obtain ⟨_, -, ⟨⟩⟩ := Option.map_eq_some_iff.1 h
  | object entries =>
    cases levels <;> rw [json?] at h
    · cases h
    · obtain ⟨_, -, ⟨⟩⟩ := Option.map_eq_some_iff.1 h

end Json

end QueryBatch
