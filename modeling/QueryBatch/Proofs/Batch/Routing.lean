import Mathlib.Data.List.Induction
import Mathlib.Data.List.Nodup
import QueryBatch.Batch.Outcome

/-!
# Where errors go

The errors of a response are sorted in one pass, by the positions of the aliases at which they
are. Main statements:

* `Routing.ofErrors_eq`: each position gets its errors in order, and the rest is shared;
* `BatchResult.split_eq`: an item gets the errors at its alias, or else the data under it.
-/

namespace QueryBatch

variable {κ : Type}

namespace Routing

/-- The position of the alias at which an error is. -/
def place? (m : AliasMap κ) (e : ResponseError) : Option Nat := e.rootKey?.bind m.position?

/-- The errors at the aliases of each position, and those at no alias. -/
theorem ofErrors_eq (m : AliasMap κ) (errors : List ResponseError) :
    ofErrors m errors =
      ⟨(List.range m.size).map fun i => errors.filter (place? m · == some i),
        errors.filter (place? m · == none)⟩ := by
  induction errors using List.reverseRecOn with
  | nil =>
    simp only [ofErrors, List.foldl_nil, List.filter_nil]
    rw [List.map_const', List.length_range]
  | append_singleton errors e ih =>
    rw [ofErrors, List.foldl_append, ← ofErrors, ih]
    simp only [List.foldl_cons, List.foldl_nil, add, List.filter_append]
    rw [← place?]
    cases hplace : place? m e with
    | none => simp [hplace]
    | some i =>
      simp only [mk.injEq]
      refine ⟨List.ext_getElem? fun j => ?_, by simp [hplace]⟩
      rw [List.getElem?_modify]
      by_cases hj : j < m.size
      · by_cases hij : i = j
        · simp [hij, hj, hplace]
        · simp [hij, hj, hplace]
      · simp [Nat.not_lt.1 hj]

end Routing

namespace BatchResult

/-- Whether an error is at one of the aliases of a batch. -/
def isOwned (m : AliasMap κ) (e : ResponseError) : Bool := e.rootKey?.any m.aliases.contains

theorem place?_eq_some_iff {m : AliasMap κ} (h : m.Mirrors) {i : Nat} {key : String} {id : κ}
    (hi : m.entries[i]? = some (key, id)) (e : ResponseError) :
    Routing.place? m e = some i ↔ e.rootKey? = some key := by
  rw [Routing.place?, Option.bind_eq_some_iff]
  constructor
  · rintro ⟨k, hk, hpos⟩
    obtain ⟨id', hi'⟩ := h.position?_eq_some_iff.1 hpos
    obtain ⟨rfl, -⟩ := Prod.mk.inj (Option.some.inj (hi.symm.trans hi'))
    exact hk
  · exact fun hk => ⟨key, hk, h.position?_eq_some_iff.2 ⟨id, hi⟩⟩

theorem place?_eq_none_iff {m : AliasMap κ} (h : m.Mirrors) (e : ResponseError) :
    Routing.place? m e = none ↔ isOwned m e = false := by
  rw [Routing.place?, isOwned]
  cases e.rootKey? with
  | none => simp
  | some key =>
    rw [Option.bind_some, h.position?_eq_none_iff, Option.any_some,
      List.contains_eq_mem, decide_eq_false_iff_not]

theorem split_eq {m : AliasMap κ} (h : m.Mirrors) (data : Option Json)
    (errors : List ResponseError) (missing : String) :
    split m data errors missing =
      ⟨m.entries.map fun (key, id) => (id, Outcome.ofParts (.plain missing [.key key])
          (errors.filter (·.rootKey? == some key)) (data.bind (·.member? key))),
        errors.filter (!isOwned m ·)⟩ := by
  rw [split, Routing.ofErrors_eq]
  simp only [mk.injEq]
  refine ⟨List.ext_getElem? fun i => ?_, List.filter_congr fun e _ => ?_⟩
  · cases hi : m.entries[i]? with
    | none => simp [List.getElem?_zipWith, hi]
    | some entry =>
      obtain ⟨key, id⟩ := entry
      have hown : errors.filter (Routing.place? m · == some i) =
          errors.filter (·.rootKey? == some key) := List.filter_congr fun e _ => by
        rw [Bool.eq_iff_iff, beq_iff_eq, beq_iff_eq, place?_eq_some_iff h hi]
      have hlt : i < m.size := (List.getElem?_eq_some_iff.1 hi).1
      simp [List.getElem?_zipWith, hi, hlt, hown]
  · rw [Bool.eq_iff_iff, beq_iff_eq, place?_eq_none_iff h, Bool.not_eq_true']

end BatchResult

end QueryBatch
