import QueryBatch.Operation.Alias
import QueryBatch.Proofs.Dict
import QueryBatch.Proofs.Operation.Merging

/-!
# Prefixes

A text can be put in front of all variables and response keys of an operation, to move them out of
the way of those of another one. Main statements:

* `Operation.conflict?_frontRenaming`, `Operation.prefixed_eq`: nothing is in the way of a prefix,
  so that it is put in front of every variable, wherever it occurs;
* `Operation.inFront_inFront`: two prefixes, one after the other, are one prefix;
* `Operation.prefixed_exactly`: what a prefix changes, and what it leaves alone;
* `Operation.compatible_inFront`: under prefixes of which neither continues the other, operations
  of one kind go together;
* `Operation.compatible_inFront_iff`, `Operation.append_inFront`: under one prefix, operations go
  together as they did before, and into the same operation with that prefix;
* `Operation.merge_prefixed`: what becomes of operations that are merged with their prefixes.
-/

namespace QueryBatch

/-! ## Aliases -/

namespace Field

/-- A field with another alias. -/
def withAlias (key : String) (q : Field) : Field := { q with alias? := some key }

theorem references_withAlias (key : String) (q : Field) :
    (q.withAlias key).references = q.references := by
  obtain ⟨alias?, name, arguments, directives, selection⟩ := q
  rw [withAlias, references, references]
  rfl

theorem substitute_withAlias (f : String → String) (key : String) (q : Field) :
    (q.withAlias key).substitute f = (q.substitute f).withAlias key := by
  obtain ⟨alias?, name, arguments, directives, selection⟩ := q
  rw [withAlias, substitute, substitute]
  rfl

end Field

namespace Operation

variable {a b op result : Operation} {p q : String}

theorem fields_aliasAll (q : String) (op : Operation) :
    (op.aliasAll q).fields = op.fields.map fun f => f.withAlias (q ++ f.responseKey) := rfl

theorem references_aliasAll (q : String) (op : Operation) :
    (op.aliasAll q).references = op.references := by
  rw [references_eq_flatMap, references_eq_flatMap, fields_aliasAll, List.flatMap_map]
  exact List.flatMap_congr fun f _ => f.references_withAlias _

/-- Aliases are no place for variables. -/
theorem substitute_aliasAll (f : String → String) (q : String) (op : Operation) :
    (op.aliasAll q).substitute f = (op.substitute f).aliasAll q := by
  have hfields : Field.substituteList f (op.aliasAll q).fields =
      ((op.substitute f).aliasAll q).fields := by
    rw [Field.substituteList_eq_map, fields_aliasAll, fields_aliasAll, fields_substitute,
      List.map_map, List.map_map]
    refine List.map_congr_left fun g _ => ?_
    simp only [Function.comp_apply, Field.substitute_withAlias, Field.responseKey_substitute]
  rw [substitute, hfields]
  rfl

theorem aliasAll_aliasAll (p q : String) (op : Operation) :
    (op.aliasAll q).aliasAll p = op.aliasAll (p ++ q) := by
  simp only [aliasAll, List.map_map, Function.comp_def, Field.responseKey, Option.getD_some,
    String.append_assoc]

theorem append_aliasAll (q : String) (a b : Operation) :
    (a.append b).aliasAll q = (a.aliasAll q).append (b.aliasAll q) := by
  simp only [aliasAll, append, List.map_append]

/-! ## The renaming of a prefix -/

theorem find?_frontRenaming (q : String) (op : Operation) (name : String) :
    (op.frontRenaming q).find? name =
      if name ∈ op.variableNames ++ op.references then some (q ++ name) else none :=
  Dict.find?_ofList_map (q ++ ·) (op.variableNames ++ op.references) name

theorem eq_of_find?_frontRenaming {name target : String}
    (h : (op.frontRenaming q).find? name = some target) : target = q ++ name := by
  rw [find?_frontRenaming] at h
  split at h
  · exact (Option.some.inj h).symm
  · cases h

/-- Variables that differ do so behind a prefix, and no declared variable keeps its name. -/
theorem conflict?_frontRenaming (q : String) (op : Operation) :
    (op.frontRenaming q).conflict? op = none := by
  refine Option.or_eq_none_iff.2 ⟨(Renaming.sharedTarget?_eq_none_iff _).2 ?_,
    (Renaming.capture?_eq_none_iff _ _).2 ?_⟩
  · intro m n target hm hn
    obtain rfl := eq_of_find?_frontRenaming hm
    exact (String.append_right_inj q).1 (eq_of_find?_frontRenaming hn)
  · intro name hname hnone
    rw [find?_frontRenaming, if_pos (List.mem_append_left _ hname)] at hnone
    cases hnone

theorem apply_frontRenaming {name : String} (h : name ∈ op.variableNames ++ op.references) :
    (op.frontRenaming q).apply name = q ++ name :=
  Renaming.apply_of_find? ((find?_frontRenaming q op name).trans (if_pos h))

/-- An operation with a text in front of each variable, wherever it occurs, and of each response
key. -/
def inFront (q : String) (op : Operation) : Operation := (op.substitute (q ++ ·)).aliasAll q

theorem prefixed_eq (q : String) (op : Operation) : op.prefixed q = .ok (op.inFront q) := by
  have hsubstitute : op.substitute (op.frontRenaming q).apply = op.substitute (q ++ ·) :=
    substitute_congr (fun _ hname => apply_frontRenaming (List.mem_append_left _ hname))
      fun _ hname => apply_frontRenaming (List.mem_append_right _ hname)
  have hrename : op.rename (op.frontRenaming q) = .ok (op.substitute (q ++ ·)) :=
    rename_eq_ok_iff.2 ⟨conflict?_frontRenaming q op, hsubstitute.symm⟩
  rw [prefixed, hrename]
  rfl

/-! ## What a prefix changes -/

theorem variableNames_inFront (q : String) (op : Operation) :
    (op.inFront q).variableNames = op.variableNames.map (q ++ ·) :=
  variableNames_substitute (q ++ ·) op

theorem references_inFront (q : String) (op : Operation) :
    (op.inFront q).references = op.references.map (q ++ ·) := by
  rw [inFront, references_aliasAll, references_substitute]

theorem responseKeys_inFront (q : String) (op : Operation) :
    (op.inFront q).responseKeys = op.responseKeys.map (q ++ ·) := by
  rw [inFront, responseKeys_aliasAll, responseKeys_substitute]

/-- Each field gets an alias, also one that had none. -/
theorem aliases_inFront (q : String) (op : Operation) :
    (op.inFront q).fields.map (·.alias?) = op.responseKeys.map fun key => some (q ++ key) := by
  rw [← responseKeys_substitute (q ++ ·) op, inFront, fields_aliasAll, responseKeys, List.map_map,
    List.map_map]
  rfl

/-- An operation without the aliases at its top level. -/
def unaliased (op : Operation) : Operation :=
  { op with fields := op.fields.map fun f => { f with alias? := none } }

theorem unaliased_aliasAll (q : String) (op : Operation) :
    (op.aliasAll q).unaliased = op.unaliased := by
  simp only [unaliased, aliasAll, List.map_map, Function.comp_def]

/-- A prefix changes nothing but the names of variables and the aliases at the top level. -/
theorem unaliased_outline_inFront (q : String) (op : Operation) :
    (op.inFront q).outline.unaliased = op.outline.unaliased := by
  have houtline : (op.inFront q).outline = op.outline.aliasAll q := by
    rw [← outline_substitute (q ++ ·) op]
    exact substitute_aliasAll (fun _ => "") q (op.substitute (q ++ ·))
  rw [houtline, unaliased_aliasAll]

/-- Two prefixes, one after the other, are one prefix. -/
theorem inFront_inFront (p q : String) (op : Operation) :
    (op.inFront q).inFront p = op.inFront (p ++ q) := by
  have hnames : (p ++ ·) ∘ (q ++ ·) = (p ++ q ++ ·) :=
    funext fun _ => String.append_assoc.symm
  rw [inFront, inFront, substitute_aliasAll, substitute_substitute, aliasAll_aliasAll, hnames]
  rfl

/-- A prefix can always be put in front of the variables and the response keys of an operation. It
is put in front of each of them and changes nothing else; and another prefix in front of it gives
the same as both at once. -/
theorem prefixed_exactly (p q : String) (op : Operation) :
    ∃ result, op.prefixed q = .ok result ∧
      result.variableNames = op.variableNames.map (q ++ ·) ∧
      result.references = op.references.map (q ++ ·) ∧
      result.fields.map (·.alias?) = op.responseKeys.map (fun key => some (q ++ key)) ∧
      result.outline.unaliased = op.outline.unaliased ∧
      result.prefixed p = op.prefixed (p ++ q) := by
  refine ⟨op.inFront q, prefixed_eq q op, variableNames_inFront q op, references_inFront q op,
    aliases_inFront q op, unaliased_outline_inFront q op, ?_⟩
  rw [prefixed_eq, prefixed_eq, inFront_inFront]

/-! ## Prefixes and merging -/

/-- Of two texts that a third one starts with, one continues the other. -/
theorem disjoint_map_of_apart (hp : ¬ p.toList <+: q.toList) (hq : ¬ q.toList <+: p.toList)
    (xs ys : List String) : (xs.map (p ++ ·)).Disjoint (ys.map (q ++ ·)) := by
  intro name hx hy
  obtain ⟨x, -, rfl⟩ := List.mem_map.1 hx
  obtain ⟨y, -, heq⟩ := List.mem_map.1 hy
  have htext : q.toList ++ y.toList = p.toList ++ x.toList := by
    rw [← String.toList_append, ← String.toList_append, heq]
  have hprefix : q.toList <+: p.toList ++ x.toList := ⟨y.toList, htext⟩
  rcases List.prefix_or_prefix_of_prefix hprefix (List.prefix_append p.toList x.toList) with h | h
  · exact hq h
  · exact hp h

/-- Whatever two operations of one kind have in common, they go together under prefixes of which
neither continues the other. -/
theorem compatible_inFront (hkind : a.kind = b.kind) (hp : ¬ p.toList <+: q.toList)
    (hq : ¬ q.toList <+: p.toList) : (a.inFront p).Compatible (b.inFront q) := by
  refine ⟨hkind, ?_, ?_⟩
  · rw [variableNames_inFront, variableNames_inFront]
    exact disjoint_map_of_apart hp hq _ _
  · rw [responseKeys_inFront, responseKeys_inFront]
    exact disjoint_map_of_apart hp hq _ _

/-- Under one prefix, operations go together as they did before. -/
theorem compatible_inFront_iff : (a.inFront p).Compatible (b.inFront p) ↔ a.Compatible b := by
  have hdisjoint : ∀ xs ys : List String,
      (xs.map (p ++ ·)).Disjoint (ys.map (p ++ ·)) ↔ xs.Disjoint ys :=
    fun xs ys => disjoint_map_iff fun _ _ _ _ => (String.append_right_inj p).1
  constructor
  · rintro ⟨hkind, hvariables, hkeys⟩
    rw [variableNames_inFront, variableNames_inFront, hdisjoint] at hvariables
    rw [responseKeys_inFront, responseKeys_inFront, hdisjoint] at hkeys
    exact ⟨hkind, hvariables, hkeys⟩
  · rintro ⟨hkind, hvariables, hkeys⟩
    refine ⟨hkind, ?_, ?_⟩
    · rwa [variableNames_inFront, variableNames_inFront, hdisjoint]
    · rwa [responseKeys_inFront, responseKeys_inFront, hdisjoint]

theorem append_inFront (p : String) (a b : Operation) :
    (a.append b).inFront p = (a.inFront p).append (b.inFront p) := by
  rw [inFront, append_substitute, append_aliasAll]
  rfl

theorem exists_prefixed_iff {P : Operation → Prop} :
    (∃ op', op.prefixed p = .ok op' ∧ P op') ↔ P (op.inFront p) := by
  simp only [prefixed_eq, Except.ok.injEq, exists_eq_left']

theorem merge_of_prefixed_iff :
    (∃ a' b', a.prefixed p = .ok a' ∧ b.prefixed p = .ok b' ∧ merge a' b' = .ok result) ↔
      a.Compatible b ∧ result = (a.append b).inFront p := by
  simp only [exists_and_left, exists_prefixed_iff, merge_eq_ok_iff_compatible,
    compatible_inFront_iff, append_inFront]

theorem prefixed_of_merge_iff : (∃ ab, merge a b = .ok ab ∧ ab.prefixed p = .ok result) ↔
    a.Compatible b ∧ result = (a.append b).inFront p := by
  rw [exists_merge_iff, prefixed_eq, Except.ok.injEq, eq_comm]

/-- Operations of one kind can be merged under prefixes of which neither continues the other. Under
one prefix they can be merged exactly if they could be without it, and into what their merged
operation is under that prefix. -/
theorem merge_prefixed (p q : String) (a b : Operation) :
    (a.kind = b.kind → ¬ p.toList <+: q.toList → ¬ q.toList <+: p.toList →
      ∃ a' b', a.prefixed p = .ok a' ∧ b.prefixed q = .ok b' ∧ merge a' b' = .ok (a'.append b')) ∧
    ((∃ result a' b', a.prefixed p = .ok a' ∧ b.prefixed p = .ok b' ∧ merge a' b' = .ok result) ↔
      ∃ ab, merge a b = .ok ab) ∧
    ∀ result, (∃ a' b', a.prefixed p = .ok a' ∧ b.prefixed p = .ok b' ∧ merge a' b' = .ok result) ↔
      ∃ ab, merge a b = .ok ab ∧ ab.prefixed p = .ok result := by
  refine ⟨fun hkind hp hq => ?apart, ?succeeds, fun result => ?commutes⟩
  case apart =>
    have hmerge := merge_eq_ok_iff_compatible.2 ⟨compatible_inFront hkind hp hq, rfl⟩
    exact ⟨a.inFront p, b.inFront q, prefixed_eq p a, prefixed_eq q b, hmerge⟩
  case succeeds =>
    constructor
    · rintro ⟨result, hresult⟩
      obtain ⟨hab, -⟩ := merge_of_prefixed_iff.1 hresult
      exact ⟨a.append b, merge_eq_ok_iff_compatible.2 ⟨hab, rfl⟩⟩
    · rintro ⟨ab, hmerge⟩
      obtain ⟨hab, -⟩ := merge_eq_ok_iff_compatible.1 hmerge
      exact ⟨(a.append b).inFront p, merge_of_prefixed_iff.2 ⟨hab, rfl⟩⟩
  case commutes => exact merge_of_prefixed_iff.trans prefixed_of_merge_iff.symm

/-- An operation that declares a variable twice, mentions an undeclared one, and has a response key
twice. -/
def tally : Operation where
  kind := .query
  name := some "Tally"
  definitions := [⟨"n", .named "Int", none⟩, ⟨"n", .named "ID", none⟩]
  fields :=
    [⟨none, "count", [⟨"of", .list [.var "n", .var "m"]⟩], [], none⟩,
      ⟨some "count", "total", [], [], none⟩]

/-- It cannot be merged with itself but for a prefix in front of each copy. -/
theorem merge_prefixed_tally :
    merge tally tally = .error (.collision (.declared "n")) ∧
    ∃ a b ab, tally.prefixed "i1_" = .ok a ∧ tally.prefixed "i10_" = .ok b ∧
      merge a b = .ok ab ∧ ab.variableNames = ["i1_n", "i1_n", "i10_n", "i10_n"] ∧
      ab.references = ["i1_n", "i1_m", "i10_n", "i10_m"] ∧
      ab.responseKeys = ["i1_count", "i1_count", "i10_count", "i10_count"] := by
  obtain ⟨a, b, ha, hb, hmerge⟩ :=
    (merge_prefixed "i1_" "i10_" tally tally).1 rfl (by decide) (by decide)
  obtain rfl := Except.ok.inj ((prefixed_eq "i1_" tally).symm.trans ha)
  obtain rfl := Except.ok.inj ((prefixed_eq "i10_" tally).symm.trans hb)
  exact ⟨rfl, _, _, _, ha, hb, hmerge, by decide, by decide, by decide⟩

end Operation

end QueryBatch
