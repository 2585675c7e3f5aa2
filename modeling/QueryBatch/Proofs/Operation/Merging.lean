import QueryBatch.Operation.Merge
import QueryBatch.Proofs.Operation.Renaming

/-!
# The algebra of merging

Operations can be merged if they are compatible, and they are merged by appending one to the other.
Compatibility of three operations does not depend on how they are grouped, and a renaming that has
no conflict keeps it. Main statements:

* `Operation.merge_eq_ok_iff_compatible`: when two operations are merged, and into what;
* `Operation.merge_left_iff`, `Operation.merge_right_iff`: grouping does not matter;
* `Operation.merge_assoc`: operations are merged alike from the left and from the right, or in
  neither way;
* `Operation.conflict?_append`, `Operation.compatible_substitute`: what a renaming finds in the
  parts, and what it leaves of their compatibility;
* `Operation.rename_merge`: operations are renamed and merged alike in either order, or in neither.
-/

namespace QueryBatch.Operation

variable {a b c result : Operation} {f : String → String} {r : Renaming}

/-! ## Compatible operations -/

/-- Two operations are of one kind and share neither a variable nor a response key. -/
structure Compatible (a b : Operation) : Prop where
  kind : a.kind = b.kind
  variableNames : a.variableNames.Disjoint b.variableNames
  responseKeys : a.responseKeys.Disjoint b.responseKeys

/-- The variables and fields of the second operation, behind those of the first one. -/
def append (a b : Operation) : Operation :=
  ⟨a.kind, a.name, a.definitions ++ b.definitions, a.fields ++ b.fields⟩

theorem variableNames_append (a b : Operation) :
    (a.append b).variableNames = a.variableNames ++ b.variableNames :=
  List.map_append

theorem responseKeys_append (a b : Operation) :
    (a.append b).responseKeys = a.responseKeys ++ b.responseKeys :=
  List.map_append

theorem references_append (a b : Operation) :
    (a.append b).references = a.references ++ b.references := by
  simp only [references_eq_flatMap, append, List.flatMap_append]

theorem append_assoc (a b c : Operation) : (a.append b).append c = a.append (b.append c) := by
  simp only [append, List.append_assoc]

theorem overlap?_eq_none_iff_disjoint : overlap? a b = none ↔
    a.variableNames.Disjoint b.variableNames ∧ a.responseKeys.Disjoint b.responseKeys := by
  rw [overlap?_eq_none_iff, List.disjoint_right, List.disjoint_right]

theorem merge_eq_ok_iff_compatible :
    merge a b = .ok result ↔ a.Compatible b ∧ result = a.append b := by
  rw [merge_eq_ok_iff, overlap?_eq_none_iff_disjoint]
  constructor
  · rintro ⟨hkind, ⟨hvariables, hkeys⟩, hresult⟩
    exact ⟨⟨hkind, hvariables, hkeys⟩, hresult⟩
  · rintro ⟨⟨hkind, hvariables, hkeys⟩, hresult⟩
    exact ⟨hkind, ⟨hvariables, hkeys⟩, hresult⟩

/-- What is found of a merged operation is found of the second one appended to the first. -/
theorem exists_merge_iff {P : Operation → Prop} :
    (∃ ab, merge a b = .ok ab ∧ P ab) ↔ a.Compatible b ∧ P (a.append b) := by
  simp only [merge_eq_ok_iff_compatible, and_assoc, exists_and_left, exists_eq_left]

/-! ## Three operations -/

theorem compatible_append_left (h : a.kind = b.kind) :
    (a.append b).Compatible c ↔ a.Compatible c ∧ b.Compatible c := by
  constructor
  · rintro ⟨hkind, hvariables, hkeys⟩
    rw [variableNames_append, List.disjoint_append_left] at hvariables
    rw [responseKeys_append, List.disjoint_append_left] at hkeys
    exact ⟨⟨hkind, hvariables.1, hkeys.1⟩, ⟨h.symm.trans hkind, hvariables.2, hkeys.2⟩⟩
  · rintro ⟨ha, hb⟩
    refine ⟨ha.kind, ?_, ?_⟩
    · rw [variableNames_append]
      exact List.disjoint_append_left.2 ⟨ha.variableNames, hb.variableNames⟩
    · rw [responseKeys_append]
      exact List.disjoint_append_left.2 ⟨ha.responseKeys, hb.responseKeys⟩

theorem compatible_append_right (h : b.kind = c.kind) :
    a.Compatible (b.append c) ↔ a.Compatible b ∧ a.Compatible c := by
  constructor
  · rintro ⟨hkind, hvariables, hkeys⟩
    rw [variableNames_append, List.disjoint_append_right] at hvariables
    rw [responseKeys_append, List.disjoint_append_right] at hkeys
    exact ⟨⟨hkind, hvariables.1, hkeys.1⟩, ⟨hkind.trans h, hvariables.2, hkeys.2⟩⟩
  · rintro ⟨hb, hc⟩
    refine ⟨hb.kind, ?_, ?_⟩
    · rw [variableNames_append]
      exact List.disjoint_append_right.2 ⟨hb.variableNames, hc.variableNames⟩
    · rw [responseKeys_append]
      exact List.disjoint_append_right.2 ⟨hb.responseKeys, hc.responseKeys⟩

/-- From the left, three operations go together exactly if any two of them do. -/
theorem compatible_left_iff : a.Compatible b ∧ (a.append b).Compatible c ↔
    a.Compatible b ∧ a.Compatible c ∧ b.Compatible c :=
  and_congr_right fun hab => compatible_append_left hab.kind

/-- So it is from the right. -/
theorem compatible_right_iff : b.Compatible c ∧ a.Compatible (b.append c) ↔
    a.Compatible b ∧ a.Compatible c ∧ b.Compatible c := by
  rw [and_congr_right fun hbc => compatible_append_right hbc.kind, and_comm, and_assoc]

theorem merge_left_iff : (∃ ab, merge a b = .ok ab ∧ merge ab c = .ok result) ↔
    (a.Compatible b ∧ a.Compatible c ∧ b.Compatible c) ∧ result = a.append (b.append c) := by
  rw [exists_merge_iff, merge_eq_ok_iff_compatible, ← and_assoc, compatible_left_iff, append_assoc]

theorem merge_right_iff : (∃ bc, merge b c = .ok bc ∧ merge a bc = .ok result) ↔
    (a.Compatible b ∧ a.Compatible c ∧ b.Compatible c) ∧ result = a.append (b.append c) := by
  rw [exists_merge_iff, merge_eq_ok_iff_compatible, ← and_assoc, compatible_right_iff]

/-- Operations are merged into the same one from the left and from the right. Both ways fail
exactly if two of the operations do not go together. The first operation may be missing: then the
second one is taken as it is. -/
theorem merge_assoc (a : Option Operation) (b c : Operation) :
    (∀ result, (∃ ab, mergeOnto a b = .ok ab ∧ mergeOnto (some ab) c = .ok result) ↔
      ∃ bc, mergeOnto (some b) c = .ok bc ∧ mergeOnto a bc = .ok result) ∧
    ((∃ result ab, mergeOnto a b = .ok ab ∧ mergeOnto (some ab) c = .ok result) ↔
      (∀ op ∈ a, op.Compatible b ∧ op.Compatible c) ∧ b.Compatible c) ∧
    mergeOnto none b = .ok b := by
  refine ⟨fun result => ?grouped, ?merged, rfl⟩
  case grouped =>
    cases a with
    | none => simp [mergeOnto]
    | some a => exact merge_left_iff.trans merge_right_iff.symm
  case merged =>
    cases a with
    | none => simp [mergeOnto, merge_eq_ok_iff_compatible]
    | some a =>
      have hmerged : (∃ result ab, merge a b = .ok ab ∧ merge ab c = .ok result) ↔
          a.Compatible b ∧ a.Compatible c ∧ b.Compatible c := by
        simp only [merge_left_iff, exists_and_left, exists_eq, and_true]
      exact hmerged.trans (by simp only [Option.mem_some_iff, forall_eq', and_assoc])

/-! ## Renaming -/

theorem append_substitute (f : String → String) (a b : Operation) :
    (a.append b).substitute f = (a.substitute f).append (b.substitute f) := by
  simp only [append, substitute, Field.substituteList_eq_map, List.map_append]

/-- Two variables clash in what is merged exactly if they clash in one of the parts. -/
theorem clashes_append (r : Renaming) (a b : Operation) :
    r.Clashes (a.append b) ↔ r.Clashes a ∨ r.Clashes b := by
  simp only [Renaming.Clashes, variableNames_append, List.mem_append, or_and_right, exists_or]
  exact or_or_distrib_left

theorem conflict?_append (r : Renaming) (a b : Operation) :
    r.conflict? (a.append b) = none ↔ r.conflict? a = none ∧ r.conflict? b = none := by
  simp only [Renaming.conflict?_eq_none_iff, clashes_append, not_or]

theorem disjoint_map_iff {xs ys : List String} (hf : ∀ x ∈ xs, ∀ y ∈ ys, f x = f y → x = y) :
    (xs.map f).Disjoint (ys.map f) ↔ xs.Disjoint ys := by
  refine ⟨List.Disjoint.of_map, fun h name hname hname' => ?_⟩
  obtain ⟨x, hx, rfl⟩ := List.mem_map.1 hname
  obtain ⟨y, hy, heq⟩ := List.mem_map.1 hname'
  obtain rfl := hf x hx y hy heq.symm
  exact h hx hy

/-- New names that keep the variables of two operations apart keep the operations as compatible as
they were. -/
theorem compatible_substitute
    (hf : ∀ x ∈ a.variableNames, ∀ y ∈ b.variableNames, f x = f y → x = y) :
    (a.substitute f).Compatible (b.substitute f) ↔ a.Compatible b := by
  have hvariables : (a.substitute f).variableNames.Disjoint (b.substitute f).variableNames ↔
      a.variableNames.Disjoint b.variableNames := by
    rw [variableNames_substitute, variableNames_substitute, disjoint_map_iff hf]
  constructor
  · rintro ⟨hkind, hnames, hkeys⟩
    rw [responseKeys_substitute, responseKeys_substitute] at hkeys
    exact ⟨hkind, hvariables.1 hnames, hkeys⟩
  · rintro ⟨hkind, hnames, hkeys⟩
    refine ⟨hkind, hvariables.2 hnames, ?_⟩
    rwa [responseKeys_substitute, responseKeys_substitute]

/-- A renaming without conflict in two operations keeps their variables apart. -/
theorem apply_injOn_append (ha : r.conflict? a = none) (hb : r.conflict? b = none) :
    ∀ x ∈ a.variableNames, ∀ y ∈ b.variableNames, r.apply x = r.apply y → x = y := by
  intro x hx y hy
  have hnames := variableNames_append a b
  exact Renaming.apply_injOn ((conflict?_append r a b).2 ⟨ha, hb⟩)
    x (hnames ▸ List.mem_append_left _ hx) y (hnames ▸ List.mem_append_right _ hy)

theorem exists_rename_iff {P : Operation → Prop} :
    (∃ a', a.rename r = .ok a' ∧ P a') ↔ r.conflict? a = none ∧ P (a.substitute r.apply) := by
  simp only [rename_eq_ok_iff, and_assoc, exists_and_left, exists_eq_left]

theorem rename_of_merge_iff : (∃ ab, merge a b = .ok ab ∧ ab.rename r = .ok result) ↔
    (a.Compatible b ∧ r.conflict? a = none ∧ r.conflict? b = none) ∧
      result = (a.append b).substitute r.apply := by
  rw [exists_merge_iff, rename_eq_ok_iff, conflict?_append, ← and_assoc]

theorem merge_of_rename_iff :
    (∃ a' b', a.rename r = .ok a' ∧ b.rename r = .ok b' ∧ merge a' b' = .ok result) ↔
      (a.Compatible b ∧ r.conflict? a = none ∧ r.conflict? b = none) ∧
        result = (a.append b).substitute r.apply := by
  simp only [exists_and_left, exists_rename_iff, merge_eq_ok_iff_compatible, append_substitute]
  constructor
  · rintro ⟨ha, hb, hab, hresult⟩
    exact ⟨⟨(compatible_substitute (apply_injOn_append ha hb)).1 hab, ha, hb⟩, hresult⟩
  · rintro ⟨⟨hab, ha, hb⟩, hresult⟩
    exact ⟨ha, hb, (compatible_substitute (apply_injOn_append ha hb)).2 hab, hresult⟩

/-- What is renamed after it was merged is what is merged of the renamed parts. Both ways fail
exactly if the operations do not go together, or two variables clash in one of them. -/
theorem rename_merge (r : Renaming) (a b : Operation) :
    (∀ result, (∃ ab, merge a b = .ok ab ∧ ab.rename r = .ok result) ↔
      ∃ a' b', a.rename r = .ok a' ∧ b.rename r = .ok b' ∧ merge a' b' = .ok result) ∧
    ((∃ result ab, merge a b = .ok ab ∧ ab.rename r = .ok result) ↔
      a.Compatible b ∧ ¬ r.Clashes a ∧ ¬ r.Clashes b) := by
  refine ⟨fun result => rename_of_merge_iff.trans merge_of_rename_iff.symm, ?_⟩
  simp only [rename_of_merge_iff, exists_and_left, exists_eq, and_true,
    Renaming.conflict?_eq_none_iff]

end QueryBatch.Operation
