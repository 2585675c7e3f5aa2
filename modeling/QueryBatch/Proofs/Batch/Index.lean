import QueryBatch.Proofs.Batch.Composition

/-!
# The index of a composite

Composing adds an alias only after finding that it is new. So the index of the aliases goes on to
mirror the entries, and finds them. Main statements:

* `Progress.aliases_of_addItem`: composing adds an alias only after finding that it is new;
* `Progress.mirrors_of_foldlM`: so the index mirrors the entries after any number of items;
* `Composer.mirrors_of_compose`: the index of a composite mirrors its entries, one for each item;
* `Composer.indexed_of_compose`: looking up an alias of a composite finds its entry.
-/

namespace QueryBatch

variable {κ : Type}

/-- An alias map with a number of entries, whose index tells where they are. -/
structure AliasMap.Indexed (m : AliasMap κ) (count : Nat) : Prop where
  mirrors : m.Mirrors
  position?_eq_some_iff : ∀ key i, m.position? key = some i ↔ ∃ id, m.entries[i]? = some (key, id)
  contains_iff : ∀ key, m.contains key = true ↔ key ∈ m.aliases
  find?_eq_some_iff : ∀ key id, m.find? key = some id ↔
    ∃ i, m.position? key = some i ∧ m.entries[i]? = some (key, id)
  nodup : m.aliases.Nodup
  size : m.size = count

namespace Progress

variable [DecidableEq κ] {naming : Naming} {template : Operation} {p p' : Progress κ}
  {item : BatchItem κ} {items : List (BatchItem κ)}

theorem refuseIf_eq_ok_iff {condition : Bool} {e : BatchError} :
    refuseIf condition e = .ok () ↔ condition = false := by
  cases condition <;> simp

/-- An item is added with an alias that is found to be new. -/
theorem aliases_of_addItem (h : addItem naming template p item = .ok p') :
    p.aliases.contains (naming.aliasOf p.aliases.size) = false ∧
      p'.aliases = p.aliases.push (naming.aliasOf p.aliases.size) item.id := by
  simp only [addItem, bind_eq_ok_iff] at h
  obtain ⟨_, hnew, _, -, named, -, values, -, copy, -, aliased, -, operation, -, hadded⟩ := h
  exact ⟨refuseIf_eq_ok_iff.1 hnew, congrArg aliases (Except.ok.inj hadded).symm⟩

theorem mirrors_of_addItem (hmirrors : p.aliases.Mirrors)
    (h : addItem naming template p item = .ok p') : p'.aliases.Mirrors := by
  obtain ⟨hnew, haliases⟩ := aliases_of_addItem h
  rw [haliases]
  exact (AliasMap.mirrors_push_iff hmirrors item.id).2 hnew

theorem mirrors_of_foldlM (hmirrors : p.aliases.Mirrors)
    (h : items.foldlM (addItem naming template) p = .ok p') :
    p'.aliases.Mirrors ∧ p'.aliases.size = p.aliases.size + items.length := by
  induction items generalizing p with
  | nil =>
    obtain rfl := Except.ok.inj h
    exact ⟨hmirrors, rfl⟩
  | cons item items ih =>
    rw [List.foldlM_cons, bind_eq_ok_iff] at h
    obtain ⟨next, hnext, hmore⟩ := h
    obtain ⟨hmirrors', hsize⟩ := ih (mirrors_of_addItem hmirrors hnext) hmore
    refine ⟨hmirrors', ?_⟩
    rw [hsize, (aliases_of_addItem hnext).2, AliasMap.size_push, List.length_cons]
    omega

end Progress

namespace Composer

variable [DecidableEq κ] {c : Composer} {template : Operation} {items : List (BatchItem κ)}

theorem mirrors_of_compose {r : Composite κ} (h : c.compose template items = .ok r) :
    r.aliases.Mirrors ∧ r.aliases.size = items.length := by
  simp only [compose, bind_eq_ok_iff] at h
  obtain ⟨_, -, _, -, _, -, p, hfold, h⟩ := h
  obtain ⟨hmirrors, hsize⟩ := Progress.mirrors_of_foldlM AliasMap.mirrors_empty hfold
  have haliases : r.aliases = p.aliases := by
    split at h
    · exact congrArg Composite.aliases (Except.ok.inj h).symm
    · cases h
  rw [haliases]
  exact ⟨hmirrors, hsize.trans (Nat.zero_add _)⟩

/-- Looking up an alias of a composite finds its entry, whatever the aliases are. -/
theorem indexed_of_compose {r : Composite κ} (h : c.compose template items = .ok r) :
    r.aliases.Indexed items.length := by
  obtain ⟨hmirrors, hsize⟩ := mirrors_of_compose h
  exact {
    mirrors := hmirrors
    position?_eq_some_iff := fun _ _ => hmirrors.position?_eq_some_iff
    contains_iff := fun _ => hmirrors.contains_iff
    find?_eq_some_iff := fun _ _ => hmirrors.find?_eq_some_iff
    nodup := hmirrors.nodup
    size := hsize }

theorem indexed_of_compose_twoAlerts :
    ∃ r, (⟨.standard, swapping⟩ : Composer).compose raiseAlert twoAlerts = .ok r ∧
      r.aliases.Indexed 2 := by
  have h := compose_of_accepts rfl accepts_twoAlerts
  exact ⟨_, h, indexed_of_compose h⟩

end Composer

end QueryBatch
