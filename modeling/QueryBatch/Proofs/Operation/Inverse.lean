import QueryBatch.Proofs.Dict
import QueryBatch.Proofs.Operation.Renaming

/-!
# Renaming back

The inverse of a renaming gives the old names to the new ones. Main statements:

* `Renaming.conflict?_inverse`: where a renaming has no conflict, its inverse has none afterwards;
* `Renaming.inverse_apply_apply`: the inverse undoes a renaming for each variable that is not
  captured;
* `Operation.rename_inverse_iff`: an operation comes back exactly if none of the variables that it
  mentions is captured;
* `Operation.rename_back`: an operation that declares all of them comes back.
-/

namespace QueryBatch

namespace Renaming

variable {r : Renaming} {op : Operation}

/-- The renaming that gives each source to its target. -/
def inverse (r : Renaming) : Renaming := .ofList (r.entries.map Prod.swap)

theorem find?_inverse_eq_some_iff (h : sharedTarget? [] r.entries = none)
    {source target : String} : r.inverse.find? target = some source ↔
      r.find? source = some target := by
  have htargets : (r.entries.map (·.2)).Nodup := nodup_of_sharedTarget? [] List.nodup_nil h
  have hkeys : ((r.entries.map Prod.swap).map (·.1)).Nodup := by
    rw [List.map_map]
    exact htargets
  rw [inverse, Dict.find?_eq_some_of_perm (Dict.entries_ofList_perm hkeys),
    Dict.find?_eq_some_iff, List.mem_map]
  constructor
  · rintro ⟨e, he, hswap⟩
    rwa [← Prod.swap_swap e, hswap] at he
  · exact fun he => ⟨_, he, rfl⟩

theorem find?_inverse_eq_none (h : sharedTarget? [] r.entries = none) {name : String}
    (hname : ∀ source, r.find? source ≠ some name) : r.inverse.find? name = none :=
  Option.eq_none_iff_forall_ne_some.2 fun source hsource =>
    hname source ((find?_inverse_eq_some_iff h).1 hsource)

/-- A variable gets its old name back, unless another one has captured it. -/
theorem inverse_apply_apply (h : sharedTarget? [] r.entries = none) {name : String}
    (hname : ∀ source, ¬ r.Captures source name) : r.inverse.apply (r.apply name) = name := by
  cases hfind : r.find? name with
  | some target =>
    rw [apply_of_find? hfind]
    exact apply_of_find? ((find?_inverse_eq_some_iff h).2 hfind)
  | none =>
    rw [apply_of_find?_eq_none hfind]
    exact apply_of_find?_eq_none
      (find?_inverse_eq_none h fun source hsource => hname source ⟨hsource, hfind⟩)

/-- A captured variable gets the old name of the one that captured it. -/
theorem inverse_apply_of_captures (h : sharedTarget? [] r.entries = none) {source name : String}
    (hcaptured : r.Captures source name) : r.inverse.apply (r.apply name) = source := by
  rw [apply_of_find?_eq_none hcaptured.2]
  exact apply_of_find? ((find?_inverse_eq_some_iff h).2 hcaptured.1)

theorem conflict?_inverse (h : r.conflict? op = none) :
    r.inverse.conflict? (op.substitute r.apply) = none := by
  obtain ⟨hshared, -⟩ := Option.or_eq_none_iff.1 h
  refine Option.or_eq_none_iff.2 ⟨(sharedTarget?_eq_none_iff _).2 ?_,
    (capture?_eq_none_iff _ _).2 ?_⟩
  · -- A source has one target only.
    intro a b source ha hb
    rw [find?_inverse_eq_some_iff hshared] at ha hb
    exact Option.some.inj (ha.symm.trans hb)
  · -- What is no new name was not renamed, so that it is no old name either.
    intro name hname hkept target htarget
    rw [Operation.variableNames_substitute] at hname
    obtain ⟨old, -, rfl⟩ := List.mem_map.1 hname
    rw [find?_inverse_eq_some_iff hshared] at htarget
    cases hold : r.find? old with
    | some new =>
      rw [apply_of_find? hold, (find?_inverse_eq_some_iff hshared).2 hold] at hkept
      cases hkept
    | none =>
      rw [apply_of_find?_eq_none hold, hold] at htarget
      cases htarget

end Renaming

namespace Operation

variable {r : Renaming} {op result : Operation}

/-- An operation comes back exactly if no variable that it mentions is captured. -/
theorem rename_inverse_iff (h : op.rename r = .ok result) :
    result.rename r.inverse = .ok op ↔
      ∀ name ∈ op.references, ∀ source, ¬ r.Captures source name := by
  obtain ⟨hconflict, rfl⟩ := rename_eq_ok_iff.1 h
  obtain ⟨hshared, -⟩ := Option.or_eq_none_iff.1 hconflict
  rw [rename_eq_ok_iff, and_iff_right (Renaming.conflict?_inverse hconflict),
    substitute_substitute, eq_comm, substitute_eq_self_iff]
  constructor
  · rintro ⟨-, hback⟩ name hname source hcaptured
    have hsource := Renaming.inverse_apply_of_captures hshared hcaptured
    exact hcaptured.ne (hsource.symm.trans (hback name hname))
  · intro hfree
    exact ⟨fun name hname => Renaming.inverse_apply_apply hshared
        (Renaming.not_captures_of_declared hconflict hname),
      fun name hname => Renaming.inverse_apply_apply hshared (hfree name hname)⟩

/-- An operation that declares the variables it mentions is renamed back by the inverse, which has
an old name for each new one and nothing else. -/
theorem rename_back (hclosed : ∀ name ∈ op.references, name ∈ op.variableNames)
    (h : op.rename r = .ok result) :
    (∀ source target, r.inverse.find? target = some source ↔ r.find? source = some target) ∧
      result.rename r.inverse = .ok op := by
  obtain ⟨hconflict, -⟩ := rename_eq_ok_iff.1 h
  obtain ⟨hshared, -⟩ := Option.or_eq_none_iff.1 hconflict
  refine ⟨fun source target => Renaming.find?_inverse_eq_some_iff hshared,
    (rename_inverse_iff h).2 fun name hname => ?_⟩
  exact Renaming.not_captures_of_declared hconflict (hclosed name hname)

/-- Variables in a list, in an object and in a directive, some of them below another field. -/
def nestedAlerts : Operation where
  kind := .mutation
  name := some "Alerts"
  definitions :=
    [⟨"a", .nonNull (.named "ID"), none⟩, ⟨"b", .named "Int", some (.int 3)⟩,
      ⟨"c", .list (.named "Boolean"), none⟩, ⟨"d", .named "ID", none⟩]
  fields :=
    [⟨none, "alert", [⟨"ids", .list [.var "a", .object [("id", .var "d")]]⟩], [],
      some [⟨some "first", "log", [⟨"count", .var "b"⟩], [⟨"include", [⟨"if", .var "c"⟩]⟩],
        none⟩]⟩,
      ⟨none, "clear", [⟨"id", .var "a"⟩], [], none⟩]

/-- Three variables change their names in a cycle, one keeps its own, and one does not occur. -/
def cycle : Renaming :=
  .ofList [("a", "b"), ("b", "c"), ("c", "a"), ("d", "d"), ("unused", "e")]

theorem rename_back_cycle :
    (∀ name ∈ nestedAlerts.references, name ∈ nestedAlerts.variableNames) ∧
    ∃ result, nestedAlerts.rename cycle = .ok result ∧
      result.variableNames = ["b", "c", "a", "d"] ∧
      result.references = ["b", "d", "c", "a", "b"] ∧
      cycle.inverse.find? "e" = some "unused" ∧
      result.rename cycle.inverse = .ok nestedAlerts := by
  have hclosed : ∀ name ∈ nestedAlerts.references, name ∈ nestedAlerts.variableNames := by decide
  have hrename : nestedAlerts.rename cycle = .ok (nestedAlerts.substitute cycle.apply) := rfl
  obtain ⟨hinverse, hback⟩ := rename_back hclosed hrename
  exact ⟨hclosed, _, hrename, by decide, by decide, (hinverse "unused" "e").2 (by decide), hback⟩

end Operation

end QueryBatch
