import Mathlib.Data.List.Nodup
import QueryBatch.Proofs.Document.Substitution

/-!
# Renaming is substitution

`Operation.rename` rebuilds a field only where one of its variables is renamed. Main statements:

* `Field.renamedList?_eq`: what is rebuilt is the substitution, and what is kept has nothing to be
  substituted;
* `Operation.rename_eq`: a renaming gives the substitution of its new names, or its conflict;
* `Renaming.conflict?_eq_none`: there is no conflict where all declared variables are renamed to
  names that differ;
* `Renaming.apply_eq_apply_iff`: which variables get one name where all targets differ;
* `Renaming.apply_injOn`: a renaming without conflict keeps declared variables apart;
* `Renaming.conflict?_eq_none_iff`: there is a conflict exactly if two variables would get one name;
* `Operation.renames_exactly`: what a renaming does, and what it leaves alone.
-/

namespace QueryBatch

namespace Renaming

variable {r : Renaming}

theorem contains_eq_false_iff {name : String} :
    r.contains name = false ↔ r.find? name = none := by
  simp [Dict.contains]

theorem apply_of_find? {name target : String} (h : r.find? name = some target) :
    r.apply name = target := by
  rw [apply, h]
  rfl

theorem apply_of_find?_eq_none {name : String} (h : r.find? name = none) :
    r.apply name = name := by
  rw [apply, h]
  rfl

theorem apply_of_not_contains {name : String} (h : r.contains name = false) :
    r.apply name = name :=
  apply_of_find?_eq_none (contains_eq_false_iff.1 h)

/-- Variables of which none is renamed keep their names. -/
theorem apply_eq_id {names : List String} (h : names.any r.contains = false) :
    ∀ name ∈ names, r.apply name = id name := by
  intro name hname
  exact apply_of_not_contains (by simpa using List.any_eq_false.1 h name hname)

end Renaming

namespace Field

variable (r : Renaming)

mutual

theorem renamed?_eq (q : Field) :
    renamed? r q = if q.references.any r.contains then some (q.substitute r.apply) else none := by
  obtain ⟨alias?, name, arguments, directives, selection⟩ := q
  simp only [renamed?, renamedSelection?_eq, ownMentions_eq_any, references, List.any_append]
  cases hs : (referencesInSelection selection).any r.contains with
  | true =>
    cases selection with
    | none => simp [referencesInSelection] at hs
    | some fields => simp [substitute, substituteSelection]
  | false =>
    have hkeep : substituteSelection r.apply selection = selection := by
      rw [substituteSelection_congr (Renaming.apply_eq_id hs), substituteSelection_id]
    simp [substitute, hkeep]

theorem renamedSelection?_eq (selection : Option (List Field)) :
    renamedSelection? r selection =
      if (referencesInSelection selection).any r.contains then
        substituteSelection r.apply selection
      else none := by
  cases selection with
  | none => simp [renamedSelection?, referencesInSelection]
  | some fields => exact renamedList?_eq fields

theorem renamedList?_eq (fields : List Field) :
    renamedList? r fields =
      if (referencesInList fields).any r.contains then some (substituteList r.apply fields)
      else none := by
  cases fields with
  | nil => rfl
  | cons q qs =>
    simp only [renamedList?, renamed?_eq q, renamedList?_eq qs, referencesInList,
      List.any_append, substituteList]
    cases hq : q.references.any r.contains with
    | true =>
      cases hqs : (referencesInList qs).any r.contains with
      | true => simp
      | false =>
        have hkeep : substituteList r.apply qs = qs := by
          rw [substituteList_congr (Renaming.apply_eq_id hqs), substituteList_id]
        simp [hkeep]
    | false =>
      have hkeep : q.substitute r.apply = q := by
        rw [substitute_congr (Renaming.apply_eq_id hq), substitute_id]
      cases hqs : (referencesInList qs).any r.contains <;> simp [hkeep]

end

theorem renamedList?_getD (fields : List Field) :
    (renamedList? r fields).getD fields = substituteList r.apply fields := by
  rw [renamedList?_eq]
  split
  · rfl
  · rename_i h
    rw [substituteList_congr (Renaming.apply_eq_id (by simpa using h)), substituteList_id]
    rfl

end Field

namespace Operation

theorem rename_eq (r : Renaming) (op : Operation) :
    op.rename r =
      match r.conflict? op with
      | some c => .error c
      | none => .ok (op.substitute r.apply) := by
  unfold rename
  cases r.conflict? op with
  | some c => rfl
  | none => simp only [Field.renamedList?_getD, substitute]

theorem rename_eq_ok_iff {r : Renaming} {op result : Operation} :
    op.rename r = .ok result ↔ r.conflict? op = none ∧ result = op.substitute r.apply := by
  rw [rename_eq]
  cases r.conflict? op with
  | some c => simp
  | none => simp [eq_comm]

end Operation

/-! ## Renamings without conflict -/

namespace Renaming

theorem sharedTarget?_eq_none {earlier entries : List (String × String)}
    (h : ((earlier ++ entries).map (·.2)).Nodup) : sharedTarget? earlier entries = none := by
  induction entries generalizing earlier with
  | nil => rfl
  | cons e es ih =>
    obtain ⟨source, target⟩ := e
    have hfresh : earlier.find? (·.2 == target) = none := by
      rw [List.map_append, List.nodup_append] at h
      refine List.find?_eq_none.2 fun e he => ?_
      simpa using h.2.2 e.2 (List.mem_map_of_mem he) target (by simp)
    simp only [sharedTarget?, hfresh]
    exact ih (by simpa using h)

/-- Where all declared variables are renamed, and to different names, nothing is captured. -/
theorem conflict?_eq_none {r : Renaming} {op : Operation} (ht : (r.entries.map (·.2)).Nodup)
    (hd : ∀ name ∈ op.variableNames, r.contains name = true) : r.conflict? op = none := by
  have hcapture : r.capture? op = none := by
    refine List.findSome?_eq_none_iff.2 fun v hv => ?_
    rw [if_pos (hd v.name (List.mem_map_of_mem hv))]
  rw [conflict?, sharedTarget?_eq_none (by rwa [List.nil_append]), hcapture]
  rfl

/-! ## What a renaming without conflict keeps -/

theorem nodup_of_sharedTarget? (earlier : List (String × String))
    {entries : List (String × String)} (hearlier : (earlier.map (·.2)).Nodup)
    (h : sharedTarget? earlier entries = none) : ((earlier ++ entries).map (·.2)).Nodup := by
  induction entries generalizing earlier with
  | nil => rwa [List.append_nil]
  | cons e es ih =>
    obtain ⟨source, target⟩ := e
    rw [sharedTarget?] at h
    split at h
    · cases h
    · rename_i hfresh
      have hnew : ((earlier ++ [(source, target)]).map (·.2)).Nodup := by
        rw [List.map_append, List.nodup_append]
        refine ⟨hearlier, List.pairwise_singleton _ _, fun old hold new hnew => ?_⟩
        obtain ⟨e, he, rfl⟩ := List.mem_map.1 hold
        obtain rfl := List.mem_singleton.1 hnew
        simpa using List.find?_eq_none.1 hfresh e he
      simpa using ih _ hnew h

theorem mem_entries_of_contains {r : Renaming} {name : String} (h : r.contains name = true) :
    (name, r.apply name) ∈ r.entries := by
  obtain ⟨target, htarget⟩ := Option.isSome_iff_exists.1 h
  rw [apply, htarget]
  exact Dict.find?_eq_some_iff.1 htarget

theorem sharedTarget?_eq_none_iff (r : Renaming) :
    sharedTarget? [] r.entries = none ↔
      ∀ first second target, r.find? first = some target → r.find? second = some target →
        first = second := by
  simp only [Dict.find?_eq_some_iff]
  constructor
  · intro h first second target hfirst hsecond
    have htargets : (r.entries.map (·.2)).Nodup := nodup_of_sharedTarget? [] List.nodup_nil h
    exact congrArg Prod.fst (List.inj_on_of_nodup_map htargets hfirst hsecond rfl)
  · intro h
    have hentries : r.entries.Nodup := List.Nodup.of_map _ r.nodup_keys
    refine sharedTarget?_eq_none (hentries.map_on fun e he f hf htarget => ?_)
    have hkey : e.1 = f.1 := h e.1 f.1 e.2 he (htarget ▸ hf)
    exact Prod.ext hkey htarget

theorem capture?_eq_none_iff (r : Renaming) (op : Operation) :
    r.capture? op = none ↔
      ∀ name ∈ op.variableNames, r.find? name = none → ∀ source, r.find? source ≠ some name := by
  constructor
  · intro h name hname hkept source hsource
    obtain ⟨v, hv, rfl⟩ := List.mem_map.1 hname
    have hnone := List.findSome?_eq_none_iff.1 h v hv
    rw [contains_eq_false_iff.2 hkept, if_neg Bool.false_ne_true, Option.map_eq_none_iff] at hnone
    have hne := List.find?_eq_none.1 hnone _ (Dict.find?_eq_some_iff.1 hsource)
    exact hne (beq_self_eq_true v.name)
  · intro h
    refine List.findSome?_eq_none_iff.2 fun v hv => ?_
    cases hcontains : r.contains v.name with
    | true => rfl
    | false =>
      have hnone := contains_eq_false_iff.1 hcontains
      have hfind : r.entries.find? (·.2 == v.name) = none := by
        refine List.find?_eq_none.2 fun e he htarget => ?_
        have hname : e.2 = v.name := eq_of_beq htarget
        exact h v.name (List.mem_map_of_mem hv) hnone e.1 (Dict.find?_eq_some_iff.2 (hname ▸ he))
      rw [hfind]
      rfl

/-- A variable is renamed to another one that keeps its name. -/
def Captures (r : Renaming) (source name : String) : Prop :=
  r.find? source = some name ∧ r.find? name = none

theorem Captures.ne {r : Renaming} {source name : String} (h : r.Captures source name) :
    source ≠ name := by
  rintro rfl
  exact Option.some_ne_none _ (h.1.symm.trans h.2)

/-- Where the targets differ, two variables get one name only if one is renamed to the other, which
keeps its name. -/
theorem apply_eq_apply_iff {r : Renaming} (h : sharedTarget? [] r.entries = none)
    {a b : String} : r.apply a = r.apply b ↔ a = b ∨ r.Captures a b ∨ r.Captures b a := by
  constructor
  · intro heq
    cases ha : r.find? a with
    | some s =>
      rw [apply_of_find? ha] at heq
      cases hb : r.find? b with
      | some t =>
        rw [apply_of_find? hb] at heq
        exact .inl ((sharedTarget?_eq_none_iff r).1 h a b t (heq ▸ ha) hb)
      | none =>
        rw [apply_of_find?_eq_none hb] at heq
        exact .inr (.inl ⟨heq ▸ ha, hb⟩)
    | none =>
      rw [apply_of_find?_eq_none ha] at heq
      cases hb : r.find? b with
      | some t =>
        rw [apply_of_find? hb] at heq
        exact .inr (.inr ⟨heq ▸ hb, ha⟩)
      | none =>
        rw [apply_of_find?_eq_none hb] at heq
        exact .inl heq
  · rintro (rfl | ⟨ha, hb⟩ | ⟨hb, ha⟩)
    · rfl
    · rw [apply_of_find? ha, apply_of_find?_eq_none hb]
    · rw [apply_of_find?_eq_none ha, apply_of_find? hb]

/-- A declared variable that keeps its name is not captured. -/
theorem not_captures_of_declared {r : Renaming} {op : Operation} (h : r.conflict? op = none)
    {name : String} (hname : name ∈ op.variableNames) (source : String) :
    ¬ r.Captures source name := by
  obtain ⟨-, hcapture⟩ := Option.or_eq_none_iff.1 h
  rintro ⟨hsource, hkept⟩
  exact (capture?_eq_none_iff r op).1 hcapture name hname hkept source hsource

/-- A renaming without conflict keeps declared variables apart. -/
theorem apply_injOn {r : Renaming} {op : Operation} (h : r.conflict? op = none) :
    ∀ a ∈ op.variableNames, ∀ b ∈ op.variableNames, r.apply a = r.apply b → a = b := by
  intro a ha b hb heq
  obtain ⟨hshared, -⟩ := Option.or_eq_none_iff.1 h
  rcases (apply_eq_apply_iff hshared).1 heq with heq | hcaptured | hcaptured
  · exact heq
  · exact absurd hcaptured (not_captures_of_declared h hb a)
  · exact absurd hcaptured (not_captures_of_declared h ha b)

theorem nodup_map_apply {r : Renaming} {op : Operation} (hnodup : op.variableNames.Nodup)
    (h : r.conflict? op = none) : (op.variableNames.map r.apply).Nodup :=
  hnodup.map_on fun a ha b hb heq => apply_injOn h a ha b hb heq

/-! ## Renamings with a conflict -/

/-- Two variables get one name: both are renamed to it, or one of them is declared with that name
and keeps it. -/
def Clashes (r : Renaming) (op : Operation) : Prop :=
  (∃ first second target, first ≠ second ∧ r.find? first = some target ∧
    r.find? second = some target) ∨
  ∃ name ∈ op.variableNames, r.find? name = none ∧ ∃ source, r.find? source = some name

theorem conflict?_eq_none_iff (r : Renaming) (op : Operation) :
    r.conflict? op = none ↔ ¬ r.Clashes op := by
  rw [conflict?, Option.or_eq_none_iff, sharedTarget?_eq_none_iff, capture?_eq_none_iff, Clashes]
  constructor
  · rintro ⟨hshared, hcapture⟩ (⟨a, b, target, hne, ha, hb⟩ | ⟨name, hname, hnone, source, hsource⟩)
    · exact hne (hshared a b target ha hb)
    · exact hcapture name hname hnone source hsource
  · intro h
    refine ⟨fun a b target ha hb => ?_, fun name hname hnone source hsource => ?_⟩
    · exact Classical.byContradiction fun hne => h (.inl ⟨a, b, target, hne, ha, hb⟩)
    · exact h (.inr ⟨name, hname, hnone, source, hsource⟩)

end Renaming

namespace Field

/-- A part is judged untouched exactly if none of the names in it is renamed. -/
theorem any_contains_eq_false_iff (r : Renaming) (names : List String) :
    names.any r.contains = false ↔ ∀ name ∈ names, r.find? name = none := by
  simp [Dict.contains]

/-- A field is kept exactly if none of its variables is renamed. -/
theorem renamed?_eq_none_iff (r : Renaming) (q : Field) :
    renamed? r q = none ↔ ∀ name ∈ q.references, r.find? name = none := by
  rw [renamed?_eq, ← any_contains_eq_false_iff]
  cases q.references.any r.contains <;> simp

theorem renamedList?_eq_none_iff (r : Renaming) (fields : List Field) :
    renamedList? r fields = none ↔ ∀ name ∈ referencesInList fields, r.find? name = none := by
  rw [renamedList?_eq, ← any_contains_eq_false_iff]
  cases (referencesInList fields).any r.contains <;> simp

end Field

namespace Operation

/-- What a renaming does to an operation, and what it leaves alone. -/
structure RenamesExactly (r : Renaming) (op : Operation) : Prop where
  /-- It is refused exactly if two variables would get one name. -/
  refused : (∃ c, op.rename r = .error c) ↔ r.Clashes op
  /-- Otherwise all variables get their new names at once, at every depth. -/
  renamed : ∀ result, op.rename r = .ok result ↔
    ¬ r.Clashes op ∧ result = op.substitute r.apply
  declared : (op.substitute r.apply).variableNames = op.variableNames.map r.apply
  mentioned : (op.substitute r.apply).references = op.references.map r.apply
  /-- Nothing but the names of variables is changed. -/
  outlined : (op.substitute r.apply).outline = op.outline
  /-- A field is kept as it is exactly if none of the variables in it, at any depth, is renamed. -/
  field : ∀ q : Field, Field.renamed? r q = none ↔ ∀ name ∈ q.references, r.find? name = none
  /-- So it is with the fields of a selection. -/
  selection : ∀ fields : List Field, Field.renamedList? r fields = none ↔
    ∀ name ∈ Field.referencesInList fields, r.find? name = none

theorem renames_exactly (r : Renaming) (op : Operation) : op.RenamesExactly r := by
  have hclash := Renaming.conflict?_eq_none_iff r op
  have hresult := rename_eq r op
  refine ⟨?refused, fun result => ?renamed, variableNames_substitute r.apply op,
    references_substitute r.apply op, outline_substitute r.apply op,
    Field.renamed?_eq_none_iff r, Field.renamedList?_eq_none_iff r⟩
  case refused =>
    cases hconflict : r.conflict? op with
    | some c =>
      have hclashes : r.Clashes op := by simpa [hconflict] using hclash
      rw [hconflict] at hresult
      exact ⟨fun _ => hclashes, fun _ => ⟨c, hresult⟩⟩
    | none =>
      rw [hconflict] at hresult
      exact ⟨fun ⟨c, hc⟩ => by simp [hresult] at hc, fun h => absurd h (hclash.1 hconflict)⟩
  case renamed =>
    cases hconflict : r.conflict? op with
    | some c =>
      have hclashes : r.Clashes op := by simpa [hconflict] using hclash
      rw [hresult, hconflict]
      exact ⟨nofun, fun h => absurd hclashes h.1⟩
    | none =>
      rw [hresult, hconflict]
      exact ⟨fun h => ⟨hclash.1 hconflict, (Except.ok.inj h).symm⟩, fun h => congrArg _ h.2.symm⟩

end Operation

end QueryBatch
