import Mathlib.Data.List.Nodup
import QueryBatch.Batch.Composite
import QueryBatch.Proofs.Dict
import QueryBatch.Proofs.Operation.Renaming

/-!
# The copies of a template

What a composite consists of: for each position a copy of the template, with an alias and with
variables of its own, and the values of the items under their new names. Main statements:

* `Operation.setAlias_substitute`: renaming and aliasing a template gives its copy;
* `Operation.copies_succ`: one more copy stands behind the others;
* `Operation.variableOf_injOn`: names that are given once come from one position and variable;
* `nodup_keys_routedValues`: the values of all items have names of their own.
-/

namespace QueryBatch

variable {κ : Type}

/-- The copy of a field for the item at a position. -/
def Field.copy (naming : Naming) (q : Field) (index : Nat) : Field :=
  { q.substitute (naming.variableOf index) with alias? := some (naming.aliasOf index) }

theorem Field.responseKey_copy (naming : Naming) (q : Field) (index : Nat) :
    (q.copy naming index).responseKey = naming.aliasOf index := rfl

/-- An alias is no place for variables. -/
theorem Field.references_copy (naming : Naming) (q : Field) (index : Nat) :
    (q.copy naming index).references = q.references.map (naming.variableOf index) := by
  rw [← Field.references_substitute]
  obtain ⟨alias?, name, arguments, directives, selection⟩ := q
  rfl

namespace Operation

/-- The names that the first `count` items give to the variables of a template, item by item. -/
def copiedNames (naming : Naming) (template : Operation) (count : Nat) : List String :=
  (List.range count).flatMap fun i => template.variableNames.map (naming.variableOf i)

/-- The definitions of the first `count` copies. -/
def copiedDefinitions (naming : Naming) (template : Operation) (count : Nat) :
    List VariableDefinition :=
  (List.range count).flatMap fun i => template.definitions.map (·.substitute (naming.variableOf i))

/-- The first `count` copies of a template with the field `q`, in one operation. -/
def copies (naming : Naming) (template : Operation) (q : Field) (count : Nat) : Operation :=
  ⟨template.kind, template.name, template.copiedDefinitions naming count,
    (List.range count).map (q.copy naming)⟩

variable {naming : Naming} {template : Operation} {q : Field}

theorem copiedNames_succ (naming : Naming) (template : Operation) (count : Nat) :
    template.copiedNames naming (count + 1) = template.copiedNames naming count ++
      template.variableNames.map (naming.variableOf count) := by
  simp [copiedNames, List.range_succ]

theorem mem_copiedNames {count : Nat} {name : String} :
    name ∈ template.copiedNames naming count ↔
      ∃ i < count, ∃ old ∈ template.variableNames, naming.variableOf i old = name := by
  simp only [copiedNames, List.mem_flatMap, List.mem_range, List.mem_map]

theorem variableNames_copies (naming : Naming) (template : Operation) (q : Field) (count : Nat) :
    (template.copies naming q count).variableNames = template.copiedNames naming count := by
  simp only [copies, variableNames, copiedDefinitions, copiedNames, List.map_flatMap, List.map_map]
  rfl

theorem responseKeys_copies (naming : Naming) (template : Operation) (q : Field) (count : Nat) :
    (template.copies naming q count).responseKeys = (List.range count).map naming.aliasOf := by
  simp only [copies, responseKeys, List.map_map]
  rfl

theorem copies_succ (naming : Naming) (template : Operation) (q : Field) (count : Nat) :
    template.copies naming q (count + 1) =
      ⟨template.kind, template.name,
        template.copiedDefinitions naming count ++
          template.definitions.map (·.substitute (naming.variableOf count)),
        (List.range count).map (q.copy naming) ++ [q.copy naming count]⟩ := by
  simp [copies, copiedDefinitions, List.range_succ]

theorem setAlias_substitute (hq : template.fields = [q]) (index : Nat) :
    (template.substitute (naming.variableOf index)).setAlias (naming.aliasOf index) =
      .ok ⟨template.kind, template.name,
        template.definitions.map (·.substitute (naming.variableOf index)),
        [q.copy naming index]⟩ := by
  simp only [setAlias, singleField?, substitute, hq, Field.substituteList]
  rfl

/-- Where all names differ that are given to variables, a name tells its position and variable. -/
theorem variableOf_injOn {count : Nat} (h : (template.copiedNames naming count).Nodup) {i j : Nat}
    (hi : i < count) (hj : j < count) {m n : String} (hm : m ∈ template.variableNames)
    (hn : n ∈ template.variableNames) (heq : naming.variableOf i m = naming.variableOf j n) :
    i = j ∧ m = n := by
  let sites := (List.range count).flatMap fun i => template.variableNames.map (i, ·)
  have hsites : sites.map (fun s => naming.variableOf s.1 s.2) =
      template.copiedNames naming count := by
    simp only [sites, copiedNames, List.map_flatMap, List.map_map, Function.comp_def]
  have hmem : ∀ {k name}, k < count → name ∈ template.variableNames → (k, name) ∈ sites :=
    fun hk hname => List.mem_flatMap.2 ⟨_, List.mem_range.2 hk, List.mem_map_of_mem hname⟩
  have hpair := List.inj_on_of_nodup_map (hsites ▸ h) (hmem hi hm) (hmem hj hn) heq
  exact ⟨congrArg Prod.fst hpair, congrArg Prod.snd hpair⟩

end Operation

/-! ## What the items supply -/

/-- The places at which the items supply values: the position of an item and the name of a
variable. -/
def suppliedSites (items : List (BatchItem κ)) : List (Nat × String) :=
  items.zipIdx.flatMap fun (item, i) => item.values.keys.map (i, ·)

/-- The values of the items under the new names of their variables, item by item. -/
def routedValues (naming : Naming) (items : List (BatchItem κ)) : List (String × Json) :=
  items.zipIdx.flatMap fun (item, i) =>
    item.values.entries.map fun (name, value) => (naming.variableOf i name, value)

/-- The aliases of the items, in their order. -/
def aliasesOf (naming : Naming) (items : List (BatchItem κ)) : AliasMap κ :=
  items.zipIdx.foldl (fun m (item, i) => m.push (naming.aliasOf i) item.id) .empty

section Items

variable (naming : Naming) (items : List (BatchItem κ)) (item : BatchItem κ)

theorem suppliedSites_concat :
    suppliedSites (items ++ [item]) =
      suppliedSites items ++ item.values.keys.map (items.length, ·) := by
  simp [suppliedSites, List.zipIdx_append]

theorem routedValues_concat :
    routedValues naming (items ++ [item]) = routedValues naming items ++
      item.values.entries.map fun e => (naming.variableOf items.length e.1, e.2) := by
  simp [routedValues, List.zipIdx_append]

theorem aliasesOf_concat :
    aliasesOf naming (items ++ [item]) =
      (aliasesOf naming items).push (naming.aliasOf items.length) item.id := by
  simp [aliasesOf, List.zipIdx_append]

theorem entries_aliasesOf : (aliasesOf naming items).entries =
    items.zipIdx.map fun (item, i) => (naming.aliasOf i, item.id) := by
  induction items using List.reverseRecOn with
  | nil => rfl
  | append_singleton items item ih =>
    rw [aliasesOf_concat, AliasMap.push, ih, List.zipIdx_append, List.map_append]
    simp

@[simp] theorem size_aliasesOf : (aliasesOf naming items).size = items.length := by
  rw [AliasMap.size, entries_aliasesOf, List.length_map, List.length_zipIdx]

theorem aliases_aliasesOf :
    (aliasesOf naming items).aliases = (List.range items.length).map naming.aliasOf := by
  induction items using List.reverseRecOn with
  | nil => rfl
  | append_singleton items item ih =>
    simp [aliasesOf_concat, ih, List.range_succ]

/-- The index has every alias, also where one of them is not new. -/
theorem contains_aliasesOf_iff {key : String} : (aliasesOf naming items).contains key = true ↔
    key ∈ (List.range items.length).map naming.aliasOf := by
  induction items using List.reverseRecOn with
  | nil => exact ⟨nofun, nofun⟩
  | append_singleton items item ih =>
    rw [aliasesOf_concat, AliasMap.contains_push_iff, ih, List.length_append, List.length_singleton,
      List.range_succ, List.map_append, List.mem_append, List.map_singleton, List.mem_singleton,
      or_comm]

theorem ids_aliasesOf : (aliasesOf naming items).ids = items.map (·.id) := by
  induction items using List.reverseRecOn with
  | nil => rfl
  | append_singleton items item ih =>
    simp only [AliasMap.ids] at ih ⊢
    simp [aliasesOf_concat, AliasMap.push, ih]

theorem keys_routedValues :
    (routedValues naming items).map (·.1) =
      (suppliedSites items).map fun s => naming.variableOf s.1 s.2 := by
  simp only [routedValues, suppliedSites, List.map_flatMap, List.map_map, Dict.keys]
  rfl

theorem mem_routedValues {key : String} {value : Json} :
    (key, value) ∈ routedValues naming items ↔
      ∃ i item name, items[i]? = some item ∧ item.values.find? name = some value ∧
        naming.variableOf i name = key := by
  simp only [routedValues, List.mem_flatMap, Prod.exists, List.mem_zipIdx_iff_getElem?,
    List.mem_map, Prod.mk.injEq, Dict.find?_eq_some_iff]
  constructor
  · rintro ⟨item, i, hitem, name, v, hmem, hkey, rfl⟩
    exact ⟨i, item, name, hitem, hmem, hkey⟩
  · rintro ⟨i, item, name, hitem, hmem, hkey⟩
    exact ⟨item, i, hitem, name, value, hmem, hkey, rfl⟩

end Items

theorem mem_suppliedSites {items : List (BatchItem κ)} {i : Nat} {name : String} :
    (i, name) ∈ suppliedSites items ↔ ∃ item, items[i]? = some item ∧ name ∈ item.values.keys := by
  simp [suppliedSites, List.mem_zipIdx_iff_getElem?]

theorem nodup_suppliedSites (items : List (BatchItem κ)) : (suppliedSites items).Nodup := by
  induction items using List.reverseRecOn with
  | nil => exact List.nodup_nil
  | append_singleton items item ih =>
    rw [suppliedSites_concat, List.nodup_append]
    refine ⟨ih, ?_, ?_⟩
    · exact item.values.nodup_keys.map fun m n h => (Prod.mk.inj h).2
    · rintro ⟨i, name⟩ hold ⟨j, other⟩ hnew heq
      obtain ⟨old, hold, -⟩ := mem_suppliedSites.1 hold
      have hi : i < items.length := (List.getElem?_eq_some_iff.1 hold).1
      obtain ⟨_, _, hj⟩ := List.mem_map.1 hnew
      obtain rfl : items.length = j := congrArg Prod.fst hj
      obtain rfl : i = items.length := congrArg Prod.fst heq
      exact Nat.lt_irrefl _ hi

/-- Values for declared variables keep names of their own. -/
theorem nodup_keys_routedValues {naming : Naming} {template : Operation}
    {items : List (BatchItem κ)}
    (hnames : (template.copiedNames naming items.length).Nodup)
    (hkeys : ∀ item ∈ items, ∀ name ∈ item.values.keys, name ∈ template.variableNames) :
    ((routedValues naming items).map (·.1)).Nodup := by
  rw [keys_routedValues]
  refine (nodup_suppliedSites items).map_on ?_
  rintro ⟨i, m⟩ hm ⟨j, n⟩ hn heq
  obtain ⟨a, ha, hm⟩ := mem_suppliedSites.1 hm
  obtain ⟨b, hb, hn⟩ := mem_suppliedSites.1 hn
  obtain ⟨rfl, rfl⟩ := Operation.variableOf_injOn hnames (List.getElem?_eq_some_iff.1 ha).1
    (List.getElem?_eq_some_iff.1 hb).1 (hkeys a (List.mem_of_getElem? ha) m hm)
    (hkeys b (List.mem_of_getElem? hb) n hn) heq
  rfl

end QueryBatch
