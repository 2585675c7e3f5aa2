import QueryBatch.Dict

/-!
# Aliases of a batch

An `AliasMap` lists the aliases of a batch with the items for which they stand, in the order of the
items. An alias is looked up in an index, into which each entry puts its place under its alias. An
entry whose alias is not new takes the place of the one before it there. Main statements:

* `AliasMap.mirrors_push_iff`: the index goes on to mirror the entries exactly if the alias is new;
* `AliasMap.Mirrors.position?_eq_some_iff`, `AliasMap.Mirrors.contains_iff`,
  `AliasMap.Mirrors.find?_eq_some_iff`: while it does, looking up an alias finds its entry.
-/

namespace QueryBatch

/-- The aliases of a batch in order, and an index of their places. That the two agree is no field:
`push` inserts without looking, and it is the composer that adds new aliases only. -/
structure AliasMap (κ : Type) where
  entries : List (String × κ)
  /-- The places of the entries under their aliases. -/
  index : Dict Nat
  deriving DecidableEq, Repr

namespace AliasMap

variable {κ : Type}

def empty : AliasMap κ := ⟨[], ∅⟩

/-- Adds an alias behind the others, and its place to the index, whatever is there. -/
def push (m : AliasMap κ) (key : String) (id : κ) : AliasMap κ :=
  ⟨m.entries ++ [(key, id)], m.index.insert key m.entries.length⟩

def aliases (m : AliasMap κ) : List String := m.entries.map (·.1)

def ids (m : AliasMap κ) : List κ := m.entries.map (·.2)

def size (m : AliasMap κ) : Nat := m.entries.length

def isEmpty (m : AliasMap κ) : Bool := m.entries.isEmpty

/-- The place of the entry with an alias. -/
def position? (m : AliasMap κ) (key : String) : Option Nat := m.index.find? key

def contains (m : AliasMap κ) (key : String) : Bool := m.index.contains key

/-- The item for which an alias stands. -/
def find? (m : AliasMap κ) (key : String) : Option κ :=
  (m.position? key).bind fun i => (m.entries[i]?).map (·.2)

variable {m : AliasMap κ} {key : String}

/-! ## Adding an entry -/

@[simp] theorem length_aliases (m : AliasMap κ) : m.aliases.length = m.size := List.length_map _

@[simp] theorem aliases_push (m : AliasMap κ) (key : String) (id : κ) :
    (m.push key id).aliases = m.aliases ++ [key] := by
  simp [push, aliases]

@[simp] theorem size_push (m : AliasMap κ) (key : String) (id : κ) :
    (m.push key id).size = m.size + 1 := by
  simp [push, size]

theorem position?_push (m : AliasMap κ) (key k : String) (id : κ) :
    (m.push key id).position? k = if k = key then some m.size else m.position? k :=
  m.index.find?_insert key k m.size

theorem contains_push_iff (m : AliasMap κ) (key k : String) (id : κ) :
    (m.push key id).contains k = true ↔ k = key ∨ m.contains k = true := by
  show ((m.push key id).position? k).isSome = true ↔ k = key ∨ (m.position? k).isSome = true
  rw [position?_push]
  by_cases hk : k = key <;> simp [hk]

theorem getElem?_aliases_push_iff (m : AliasMap κ) (key : String) (id : κ) {k : String} {i : Nat} :
    (m.push key id).aliases[i]? = some k ↔ m.aliases[i]? = some k ∨ i = m.size ∧ k = key := by
  rw [aliases_push, List.getElem?_append, length_aliases]
  split
  · rename_i hi
    rw [or_iff_left fun h => Nat.ne_of_lt hi h.1]
  · rename_i hi
    have hnone : m.aliases[i]? = none := List.getElem?_eq_none (by simpa using hi)
    have hlast : i - m.size = 0 ↔ i = m.size := by omega
    simp [hnone, List.getElem?_singleton, hlast, eq_comm]

/-! ## The index and the entries -/

/-- The index has the place of each entry under its alias, and nothing else. -/
def Mirrors (m : AliasMap κ) : Prop :=
  ∀ key i, m.index.find? key = some i ↔ m.aliases[i]? = some key

theorem mirrors_empty : (empty : AliasMap κ).Mirrors := fun _ _ => ⟨nofun, nofun⟩

namespace Mirrors

theorem contains_iff (h : m.Mirrors) : m.contains key = true ↔ key ∈ m.aliases := by
  rw [contains, Dict.contains, Option.isSome_iff_exists, List.mem_iff_getElem?]
  exact exists_congr fun i => h key i

theorem position?_eq_some_iff (h : m.Mirrors) {i : Nat} :
    m.position? key = some i ↔ ∃ id, m.entries[i]? = some (key, id) := by
  rw [position?, h key i, aliases, List.getElem?_map, Option.map_eq_some_iff]
  simp

theorem position?_eq_none_iff (h : m.Mirrors) : m.position? key = none ↔ key ∉ m.aliases := by
  rw [← h.contains_iff, contains, Dict.contains, Bool.not_eq_true, Option.isSome_eq_false_iff,
    Option.isNone_iff_eq_none]
  rfl

theorem find?_eq_some_iff (h : m.Mirrors) {id : κ} : m.find? key = some id ↔
    ∃ i, m.position? key = some i ∧ m.entries[i]? = some (key, id) := by
  rw [find?, Option.bind_eq_some_iff]
  refine exists_congr fun i => and_congr_right fun hi => ?_
  obtain ⟨old, hold⟩ := h.position?_eq_some_iff.1 hi
  simp [hold]

theorem nodup (h : m.Mirrors) : m.aliases.Nodup := by
  refine List.pairwise_iff_getElem.2 fun i j hi hj hij heq => Nat.ne_of_lt hij ?_
  have hfirst := (h _ i).2 (List.getElem?_eq_getElem hi)
  have hsecond := (h _ j).2 (List.getElem?_eq_getElem hj)
  rw [heq, hsecond] at hfirst
  exact (Option.some.inj hfirst).symm

end Mirrors

theorem mirrors_push_iff (h : m.Mirrors) (id : κ) :
    (m.push key id).Mirrors ↔ m.contains key = false := by
  rw [← Bool.not_eq_true, h.contains_iff]
  constructor
  · intro hpush hmem
    -- Otherwise the alias has two places, of which the index has one.
    obtain ⟨i, hi⟩ := List.getElem?_of_mem hmem
    have hold := (hpush key i).2 ((m.getElem?_aliases_push_iff key id).2 (.inl hi))
    have hnew := (hpush key m.size).2 ((m.getElem?_aliases_push_iff key id).2 (.inr ⟨rfl, rfl⟩))
    obtain ⟨hlt, -⟩ := List.getElem?_eq_some_iff.1 hi
    rw [length_aliases, Option.some.inj (hold.symm.trans hnew)] at hlt
    exact Nat.lt_irrefl _ hlt
  · intro hnew k i
    show (m.push key id).position? k = some i ↔ _
    rw [position?_push, getElem?_aliases_push_iff]
    by_cases hk : k = key
    · subst hk
      have hfree : m.aliases[i]? ≠ some k := fun hi => hnew (List.mem_of_getElem? hi)
      simp [hfree, eq_comm]
    · rw [if_neg hk, position?, h k i]
      simp [hk]

end AliasMap

end QueryBatch
