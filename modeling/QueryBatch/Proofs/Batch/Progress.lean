import QueryBatch.Proofs.Batch.Refusal

/-!
# Composing item by item

What is known after some items is determined by them: their new names, their values under these
names, their aliases, and their copies of the template. Main statements:

* `exists_merged`: an accepted item's copy can be renamed, aliased and merged onto the others;
* `addsFaultless_addItem`: an item that is not refused adds its copy, and keeps this description;
* `addItem_of_refusal`: any other item is refused with the first error that applies to it;
* `foldlM_addItem_eq_ok`: nothing is known after items of which one was refused.
-/

namespace QueryBatch

variable {κ : Type}

/-- What is known after some items, where the template has the field `q`. -/
def Progress.after (naming : Naming) (template : Operation) (q : Field)
    (done : List (BatchItem κ)) : Progress κ where
  names := template.copiedNames naming done.length
  values := Dict.ofList (routedValues naming done)
  aliases := aliasesOf naming done
  operation := if done.isEmpty then none else some (template.copies naming q done.length)

theorem after_nil (naming : Naming) (template : Operation) (q : Field) :
    Progress.after naming template q ([] : List (BatchItem κ)) = .start := rfl

variable {naming : Naming} {template : Operation} {q : Field} {done : List (BatchItem κ)}
  {item : BatchItem κ}

/-! ## One copy -/

theorem apply_renamingOf {newName : String → String} {names : List String} {name : String}
    (h : name ∈ names) : (renamingOf newName names).apply name = newName name := by
  rw [Renaming.apply, renamingOf, Dict.find?_ofList_map, if_pos h]
  rfl

/-- A template that declares what it mentions can be given any new names that differ. -/
theorem rename_renamingOf {newName : String → String}
    (hclosed : ∀ name ∈ template.references, name ∈ template.variableNames)
    (hnew : (template.variableNames.map newName).Nodup) :
    template.rename (renamingOf newName template.variableNames) =
      .ok (template.substitute newName) := by
  have hkeys : ((template.variableNames.map fun name => (name, newName name)).map (·.1)).Nodup := by
    simpa [List.map_map, Function.comp_def] using hnew.of_map newName
  have htargets :
      ((renamingOf newName template.variableNames).entries.map (·.2)).Nodup := by
    rw [renamingOf, ((Dict.entries_ofList_perm hkeys).map _).nodup_iff, List.map_map]
    exact hnew
  have hcontains : ∀ name ∈ template.variableNames,
      (renamingOf newName template.variableNames).contains name = true := by
    intro name hname
    rw [Dict.contains, renamingOf, Dict.find?_ofList_map, if_pos hname]
    rfl
  have hrenamed : ∀ name ∈ template.variableNames,
      (renamingOf newName template.variableNames).apply name = newName name :=
    fun name hname => apply_renamingOf hname
  rw [Operation.rename_eq, Renaming.conflict?_eq_none htargets hcontains]
  exact congrArg _ (Operation.substitute_congr hrenamed fun name hname =>
    hrenamed name (hclosed name hname))

/-- A copy whose alias and names are new shares no name with the copies before it. -/
theorem mergeOnto_copy (halias : ¬ AliasTaken naming done)
    (hnames : FaultFree (VariableTaken naming template done) template.variableNames) :
    Operation.mergeOnto (Progress.after naming template q done).operation
        ⟨template.kind, template.name,
          template.definitions.map (·.substitute (naming.variableOf done.length)),
          [q.copy naming done.length]⟩ =
      .ok (template.copies naming q (done.length + 1)) := by
  have hoverlap : Operation.overlap? (template.copies naming q done.length)
      ⟨template.kind, template.name,
        template.definitions.map (·.substitute (naming.variableOf done.length)),
        [q.copy naming done.length]⟩ = none := by
    rw [Operation.overlap?_eq_none_iff, Operation.variableNames_copies,
      Operation.responseKeys_copies]
    constructor
    · intro name hname
      obtain ⟨v, hv, rfl⟩ : ∃ v ∈ template.definitions,
          naming.variableOf done.length v.name = name := by
        simpa [Operation.variableNames, VariableDefinition.substitute] using hname
      obtain ⟨before, after, hsplit⟩ :=
        List.append_of_mem (List.mem_map_of_mem (f := (·.name)) hv)
      exact fun hmem => hnames before v.name after hsplit (List.mem_append_left _ hmem)
    · intro key hkey
      obtain rfl : key = naming.aliasOf done.length := by
        simpa [Operation.responseKeys, Field.responseKey_copy] using hkey
      exact halias
  cases done with
  | nil =>
    simp [Progress.after, Operation.mergeOnto, Operation.copies_succ, Operation.copiedDefinitions]
  | cons first rest =>
    rw [Progress.after, if_neg (by simp), Operation.copies_succ]
    exact Operation.merge_eq_ok_iff.2 ⟨rfl, hoverlap, rfl⟩

/-- Neither renaming nor aliasing nor merging fails for a copy whose alias and names are new. -/
theorem exists_merged (hq : template.fields = [q])
    (hclosed : ∀ name ∈ template.references, name ∈ template.variableNames)
    (hdone : Distinct naming template done) (halias : ¬ AliasTaken naming done)
    (hnames : FaultFree (VariableTaken naming template done) template.variableNames) :
    ∃ copy aliased,
      template.rename (renamingOf (naming.variableOf done.length) template.variableNames) =
        .ok copy ∧
      copy.setAlias (naming.aliasOf done.length) = .ok aliased ∧
      Operation.mergeOnto (Progress.after naming template q done).operation aliased =
        .ok (template.copies naming q (done.length + 1)) := by
  have hnew := (faultFree_nameTaken_iff hdone.names).1 hnames
  exact ⟨_, _, rename_renamingOf hclosed (List.nodup_append.1 hnew).2.1,
    Operation.setAlias_substitute hq done.length, mergeOnto_copy halias hnames⟩

/-! ## One item -/

theorem contains_aliasesOf :
    (aliasesOf naming done).contains (naming.aliasOf done.length) = true ↔
      AliasTaken naming done := by
  rw [contains_aliasesOf_iff, AliasTaken]

/-- The values of an item are routed to the new names of its variables, behind those before. -/
theorem foldlM_routeValue (h : Accepted naming template done item) :
    item.values.entries.foldlM
        (Progress.routeValue (renamingOf (naming.variableOf done.length) template.variableNames))
        (Dict.ofList (routedValues naming done)) =
      .ok (Dict.ofList (routedValues naming (done ++ [item]))) := by
  have hfree : FaultFree (fun _ e => e.1 ∉ template.variableNames) item.values.entries :=
    faultFree_iff_forall.2 fun e he => not_not_intro
      (h.keysDeclared e.1 (List.mem_map_of_mem he))
  have hfold := foldlM_of_faultFree (addsFaultless_routeValue (naming.variableOf done.length)
    template.variableNames (routedValues naming done)) hfree
  rwa [List.map_nil, List.append_nil, ← routedValues_concat] at hfold

theorem foldlM_routeValue_of_leastUnknown {name : String} (h : LeastUnknown template item name) :
    item.values.entries.foldlM
        (Progress.routeValue (renamingOf (naming.variableOf done.length) template.variableNames))
        (Dict.ofList (routedValues naming done)) =
      .error (.unknownVariable name) := by
  rcases faultFree_or_firstFault (fun _ e => e.1 ∉ template.variableNames)
    item.values.entries with hfree | ⟨before, e, hfault⟩
  · exact absurd (keysDeclared_of_faultFree hfree name h.supplied) h.undeclared
  · have hfold := foldlM_of_firstFault (addsFaultless_routeValue (naming.variableOf done.length)
      template.variableNames (routedValues naming done)) hfault
      (routeValue_of_undeclared hfault.fault)
    rw [List.map_nil, List.append_nil] at hfold
    rw [hfold, (leastUnknown_of_firstFault hfault).unique h]

variable [DecidableEq κ]

/-- Adding an item, up to the point where its copy is made. -/
theorem addItem_eq (naming : Naming) (template : Operation) (q : Field)
    (done : List (BatchItem κ)) (item : BatchItem κ) :
    Progress.addItem naming template (.after naming template q done) item =
      (do
        Progress.refuseIf ((aliasesOf naming done).contains (naming.aliasOf done.length))
          (.collision (.responseKey (naming.aliasOf done.length)))
        Progress.refuseIf (item.id ∈ done.map (·.id))
          (.duplicateItem (naming.aliasOf done.length))
        let (newNames, names) ← (Progress.nameVariables (naming.variableOf done.length)
          (template.copiedNames naming done.length) template.variableNames).mapError .collision
        let values ← item.values.entries.foldlM (Progress.routeValue newNames)
          (Dict.ofList (routedValues naming done))
        let copy ← (template.rename newNames).mapError .collision
        let copy ← (copy.setAlias (naming.aliasOf done.length)).mapError .shape
        let operation ← Operation.mergeOnto (Progress.after naming template q done).operation copy
        return ⟨names, values, (aliasesOf naming done).push (naming.aliasOf done.length) item.id,
          some operation⟩) := by
  simp only [Progress.addItem, Progress.after, size_aliasesOf, ids_aliasesOf]

@[simp] theorem refuseIf_false (e : BatchError) : Progress.refuseIf false e = .ok () := rfl

@[simp] theorem refuseIf_true (e : BatchError) : Progress.refuseIf true e = .error e := rfl

theorem addItem_of_refusal {e : BatchError} (h : Refusal naming template done item e) :
    Progress.addItem naming template (.after naming template q done) item = .error e := by
  rw [addItem_eq]
  cases h with
  | responseKey halias =>
    simp only [contains_aliasesOf.2 halias, refuseIf_true, error_bind]
  | duplicateItem halias hid =>
    simp only [Bool.eq_false_iff.2 (mt contains_aliasesOf.1 halias), decide_eq_true hid,
      refuseIf_true, refuseIf_false, ok_bind, error_bind]
  | declared halias hid hname =>
    simp only [Bool.eq_false_iff.2 (mt contains_aliasesOf.1 halias), decide_eq_false hid,
      nameVariables_of_firstFault hname, refuseIf_false, ok_bind, error_bind, Except.mapError]
  | unknownVariable halias hid hnames hkey =>
    simp only [Bool.eq_false_iff.2 (mt contains_aliasesOf.1 halias), decide_eq_false hid,
      nameVariables_of_faultFree hnames, foldlM_routeValue_of_leastUnknown hkey, refuseIf_false,
      ok_bind, error_bind, Except.mapError]

theorem addItem_of_accepted (hq : template.fields = [q])
    (hclosed : ∀ name ∈ template.references, name ∈ template.variableNames)
    (hdone : Distinct naming template done) (h : Accepted naming template done item) :
    Progress.addItem naming template (.after naming template q done) item =
      .ok (.after naming template q (done ++ [item])) := by
  obtain ⟨copy, aliased, hrename, halias, hmerge⟩ :=
    exists_merged hq hclosed hdone h.aliasNew h.namesNew
  rw [addItem_eq]
  simp only [Bool.eq_false_iff.2 (mt contains_aliasesOf.1 h.aliasNew), decide_eq_false h.idNew,
    nameVariables_of_faultFree h.namesNew, foldlM_routeValue h, hrename, halias, hmerge,
    refuseIf_false, ok_bind, Except.mapError]
  simp only [Progress.after, List.length_append, List.length_singleton,
    Operation.copiedNames_succ, aliasesOf_concat]
  rw [if_neg (by simp)]
  rfl

/-! ## All items -/

theorem addsFaultless_addItem (hq : template.fields = [q])
    (hclosed : ∀ name ∈ template.references, name ∈ template.variableNames) :
    AddsFaultless (Refused naming template) (Progress.addItem naming template)
      (Progress.after (κ := κ) naming template q) :=
  fun _ _ hdone hitem => addItem_of_accepted hq hclosed (faultFree_refused_iff.1 hdone)
    (not_refused_iff.1 hitem)

/-- Something is known after items only if none of them was refused. -/
theorem foldlM_addItem_eq_ok (hq : template.fields = [q])
    (hclosed : ∀ name ∈ template.references, name ∈ template.variableNames) {p : Progress κ}
    (h : done.foldlM (Progress.addItem naming template) .start = .ok p) :
    Distinct naming template done ∧ p = .after naming template q done := by
  rw [← after_nil naming template q] at h
  rcases faultFree_or_firstFault (Refused naming template) done with
    hfree | ⟨before, item, hfault⟩
  · rw [foldlM_of_faultFree (addsFaultless_addItem hq hclosed) hfree] at h
    exact ⟨faultFree_refused_iff.1 hfree, (Except.ok.inj h).symm⟩
  · obtain ⟨e, he⟩ := hfault.fault
    rw [foldlM_of_firstFault (addsFaultless_addItem hq hclosed) hfault (addItem_of_refusal he)] at h
    cases h

end QueryBatch
