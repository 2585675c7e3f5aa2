import Mathlib.Data.List.Induction
import QueryBatch.Dict

/-!
# Looking up keys

Main statements:

* `find?_key_eq_some_iff`: in a list with different keys, an element is found under its key;
* `Dict.entries_ofList_perm`: entries with different keys are all kept;
* `Dict.find?_ofList_map`: the dictionary that lists a function on some keys.
-/

namespace QueryBatch

/-- In a list with different keys, an element is found under its key. -/
theorem find?_key_eq_some_iff {α β : Type} {key : α → β} {p : α → Bool} {k : β}
    (hp : ∀ x, p x = true ↔ key x = k) {xs : List α} (h : (xs.map key).Nodup) {x : α} :
    xs.find? p = some x ↔ x ∈ xs ∧ key x = k := by
  induction xs with
  | nil => simp
  | cons y ys ih =>
    rw [List.map_cons, List.nodup_cons] at h
    by_cases hy : p y = true
    · have hkey := (hp y).1 hy
      rw [List.find?_cons_of_pos hy, Option.some.injEq, List.mem_cons]
      constructor
      · rintro rfl
        exact ⟨.inl rfl, hkey⟩
      · rintro ⟨rfl | hx, hxk⟩
        · rfl
        · exact absurd (hkey.trans hxk.symm ▸ List.mem_map_of_mem hx) h.1
    · rw [List.find?_cons_of_neg hy, ih h.2, List.mem_cons]
      constructor
      · exact fun hx => ⟨.inr hx.1, hx.2⟩
      · rintro ⟨rfl | hx, hxk⟩
        · exact absurd ((hp x).2 hxk) hy
        · exact ⟨hx, hxk⟩

namespace Dict

variable {α : Type}

/-- The last of some entries is inserted last. -/
theorem ofList_concat (entries : List (String × α)) (e : String × α) :
    ofList (entries ++ [e]) = (ofList entries).insert e.1 e.2 := by
  simp [ofList]

/-- A new key is put somewhere between the others. -/
theorem insertEntry_perm {key : String} {value : α} {entries : List (String × α)}
    (h : key ∉ entries.map (·.1)) :
    (insertEntry key value entries).Perm ((key, value) :: entries) := by
  fun_induction insertEntry key value entries with
  | case1 => exact .refl _
  | case2 => exact .refl _
  | case3 => simp at h
  | case4 k v es hlt hne ih =>
    have hes : key ∉ es.map (·.1) := fun hm => h (List.mem_cons_of_mem _ hm)
    exact ((ih hes).cons _).trans (.swap ..)

/-- Entries with different keys are kept, in another order. -/
theorem entries_ofList_perm {entries : List (String × α)} (h : (entries.map (·.1)).Nodup) :
    (ofList entries).entries.Perm entries := by
  induction entries using List.reverseRecOn with
  | nil => exact .refl _
  | append_singleton es e ih =>
    rw [List.map_append, List.nodup_append] at h
    obtain ⟨hes, -, hdisjoint⟩ := h
    have hperm := ih hes
    have hnew : e.1 ∉ (ofList es).entries.map (·.1) := by
      intro hm
      exact hdisjoint e.1 ((hperm.map _).mem_iff.1 hm) e.1 (by simp) rfl
    rw [ofList_concat]
    have hlast : (e :: es).Perm (es ++ [e]) := (List.perm_append_singleton e es).symm
    exact (insertEntry_perm hnew).trans ((hperm.cons e).trans hlast)

/-- Entries in order stay as they are. -/
theorem entries_ofList_of_ascending {entries : List (String × α)} (h : Ascending entries) :
    (ofList entries).entries = entries := by
  have hnodup : (entries.map (·.1)).Nodup := nodup_keys ⟨entries, h⟩
  exact ascending_ext (ofList entries).ascending h
    fun _ => (entries_ofList_perm hnodup).mem_iff

theorem mem_of_mem_ofList {entries : List (String × α)} {e : String × α}
    (h : e ∈ (ofList entries).entries) : e ∈ entries := by
  induction entries using List.reverseRecOn with
  | nil => cases h
  | append_singleton es d ih =>
    rw [ofList_concat] at h
    rcases mem_insertEntry h with rfl | h
    · simp
    · simp [ih h]

theorem find?_ofList_map (f : String → α) (keys : List String) (key : String) :
    (ofList (keys.map fun k => (k, f k))).find? key =
      if key ∈ keys then some (f key) else none := by
  induction keys using List.reverseRecOn with
  | nil => rfl
  | append_singleton ks k ih =>
    rw [List.map_append, List.map_singleton, ofList_concat, find?_insert, ih]
    by_cases hk : key = k
    · simp [hk]
    · simp [hk]

/-- What is found under a key does not depend on the order of the entries. -/
theorem find?_eq_some_of_perm {d : Dict α} {entries : List (String × α)}
    (h : d.entries.Perm entries) {key : String} {value : α} :
    d.find? key = some value ↔ (key, value) ∈ entries := by
  rw [find?_eq_some_iff, h.mem_iff]

end Dict

end QueryBatch
