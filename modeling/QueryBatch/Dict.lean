/-!
# Dictionaries

Finite maps from names to values, listed by ascending names. Names are compared by the numbers of
their characters, which is also the order of their UTF-8 bytes. Main statements:

* `Dict.find?_insert`: an insertion changes the value of its own key and of no other;
* `Dict.find?_eq_some_iff`: what is found under a key is an entry.
-/

namespace QueryBatch

/-- Entries with ascending keys. -/
def Ascending {α : Type} (entries : List (String × α)) : Prop :=
  entries.Pairwise fun a b => a.1 < b.1

/-- A finite map from names to values. -/
structure Dict (α : Type) where
  entries : List (String × α)
  ascending : Ascending entries
  deriving DecidableEq, Repr

namespace Dict

variable {α β : Type}

def empty : Dict α := ⟨[], .nil⟩

instance : EmptyCollection (Dict α) := ⟨empty⟩

instance : Inhabited (Dict α) := ⟨empty⟩

/-- The keys, ascending. -/
def keys (d : Dict α) : List String := d.entries.map (·.1)

def isEmpty (d : Dict α) : Bool := d.entries.isEmpty

def size (d : Dict α) : Nat := d.entries.length

/-- The value of a key. -/
def find? (d : Dict α) (key : String) : Option α := d.entries.lookup key

def contains (d : Dict α) (key : String) : Bool := (d.find? key).isSome

/-- Puts an entry at its place in ascending entries, instead of one with the same key. -/
def insertEntry (key : String) (value : α) : List (String × α) → List (String × α)
  | [] => [(key, value)]
  | (k, v) :: es =>
    if key < k then (key, value) :: (k, v) :: es
    else if k = key then (key, value) :: es
    else (k, v) :: insertEntry key value es

/-! ## The order of keys -/

theorem lt_of_not_lt_of_ne {a b : String} (h : ¬ a < b) (hne : b ≠ a) : b < a :=
  String.not_le.1 fun hle => hne (String.le_antisymm (String.not_lt.1 h) hle)

theorem mem_insertEntry {key : String} {value : α} {entries : List (String × α)} {e : String × α}
    (h : e ∈ insertEntry key value entries) : e = (key, value) ∨ e ∈ entries := by
  fun_induction insertEntry key value entries with
  | case1 => simpa using h
  | case2 => simpa using h
  | case3 => simp only [List.mem_cons] at h ⊢; rcases h with h | h <;> simp [h]
  | case4 k v es _ _ ih =>
    simp only [List.mem_cons] at h ⊢
    rcases h with h | h
    · simp [h]
    · rcases ih h with h | h <;> simp [h]

theorem ascending_insertEntry {key : String} {value : α} {entries : List (String × α)}
    (h : Ascending entries) : Ascending (insertEntry key value entries) := by
  fun_induction insertEntry key value entries with
  | case1 => simp [Ascending]
  | case2 k v es hlt =>
    refine List.pairwise_cons.2 ⟨fun e he => ?_, h⟩
    rcases List.mem_cons.1 he with rfl | he
    · exact hlt
    · exact String.lt_trans hlt ((List.pairwise_cons.1 h).1 e he)
  | case3 v es hlt =>
    obtain ⟨h₁, h₂⟩ := List.pairwise_cons.1 h
    exact List.pairwise_cons.2 ⟨h₁, h₂⟩
  | case4 k v es hlt hne ih =>
    obtain ⟨h₁, h₂⟩ := List.pairwise_cons.1 h
    refine List.pairwise_cons.2 ⟨fun e he => ?_, ih h₂⟩
    rcases mem_insertEntry he with rfl | he
    · exact lt_of_not_lt_of_ne hlt hne
    · exact h₁ e he

/-! ## Building -/

/-- Sets the value of a key. -/
def insert (d : Dict α) (key : String) (value : α) : Dict α :=
  ⟨insertEntry key value d.entries, ascending_insertEntry d.ascending⟩

/-- The dictionary of a list of entries, of which the last one counts for each key. -/
def ofList (entries : List (String × α)) : Dict α :=
  entries.foldl (fun d e => d.insert e.1 e.2) empty

theorem lookup_cons_of_ne {key k : String} (h : key ≠ k) (value : α)
    (entries : List (String × α)) : ((k, value) :: entries).lookup key = entries.lookup key := by
  rw [List.lookup_cons, beq_false_of_ne h]

theorem lookup_insertEntry (key key' : String) (value : α) (entries : List (String × α)) :
    (insertEntry key value entries).lookup key' =
      if key' = key then some value else entries.lookup key' := by
  fun_induction insertEntry key value entries with
  | case1 => by_cases h : key' = key <;> simp [h, lookup_cons_of_ne]
  | case2 => by_cases h : key' = key <;> simp [h, lookup_cons_of_ne]
  | case3 v es hlt => by_cases h : key' = key <;> simp [h, lookup_cons_of_ne]
  | case4 k v es hlt hne ih =>
    by_cases h : key' = k
    · subst h; simp [hne]
    · simp [lookup_cons_of_ne h, ih]

theorem find?_insert (d : Dict α) (key key' : String) (value : α) :
    (d.insert key value).find? key' = if key' = key then some value else d.find? key' :=
  lookup_insertEntry key key' value d.entries

theorem lookup_eq_some_iff {key : String} {value : α} {entries : List (String × α)}
    (h : Ascending entries) : entries.lookup key = some value ↔ (key, value) ∈ entries := by
  induction entries with
  | nil => simp
  | cons e es ih =>
    obtain ⟨k, v⟩ := e
    obtain ⟨h₁, h₂⟩ := List.pairwise_cons.1 h
    by_cases hk : key = k
    · subst hk
      have hnot : (key, value) ∉ es := fun hm => String.lt_irrefl _ (h₁ (key, value) hm)
      simp [hnot, eq_comm]
    · simp [lookup_cons_of_ne hk, ih h₂, hk]

theorem find?_eq_some_iff {d : Dict α} {key : String} {value : α} :
    d.find? key = some value ↔ (key, value) ∈ d.entries :=
  lookup_eq_some_iff d.ascending

theorem contains_iff {d : Dict α} {key : String} : d.contains key = true ↔ key ∈ d.keys := by
  simp only [contains, Option.isSome_iff_exists, find?_eq_some_iff, keys, List.mem_map]
  exact ⟨fun ⟨v, hv⟩ => ⟨_, hv, rfl⟩, fun ⟨e, he, hk⟩ => ⟨e.2, hk ▸ he⟩⟩

theorem nodup_keys (d : Dict α) : d.keys.Nodup := by
  rw [keys, List.Nodup, List.pairwise_map]
  exact d.ascending.imp fun h hn => by rw [hn] at h; exact String.lt_irrefl _ h

theorem ascending_ext {as bs : List (String × α)} (ha : Ascending as) (hb : Ascending bs)
    (h : ∀ e, e ∈ as ↔ e ∈ bs) : as = bs := by
  induction as generalizing bs with
  | nil =>
    cases bs with
    | nil => rfl
    | cons b bs => exact absurd ((h b).2 (by simp)) (by simp)
  | cons a as ih =>
    cases bs with
    | nil => exact absurd ((h a).1 (by simp)) (by simp)
    | cons b bs =>
      obtain ⟨ha₁, ha₂⟩ := List.pairwise_cons.1 ha
      obtain ⟨hb₁, hb₂⟩ := List.pairwise_cons.1 hb
      have hab : a = b := by
        rcases List.mem_cons.1 ((h a).1 (by simp)) with hab | hab
        · exact hab
        · rcases List.mem_cons.1 ((h b).2 (by simp)) with hba | hba
          · exact hba.symm
          · exact absurd (hb₁ a hab) (String.lt_asymm (ha₁ b hba))
      subst hab
      congr 1
      refine ih ha₂ hb₂ fun e => ?_
      have hne : ∀ {es : List (String × α)}, (∀ x ∈ es, a.1 < x.1) → e ∈ es → e ≠ a := by
        rintro es hes he rfl
        exact String.lt_irrefl _ (hes _ he)
      have := h e
      simp only [List.mem_cons] at this
      constructor
      · exact fun he => (this.1 (.inr he)).resolve_left (hne ha₁ he)
      · exact fun he => (this.2 (.inr he)).resolve_left (hne hb₁ he)

end Dict

end QueryBatch
