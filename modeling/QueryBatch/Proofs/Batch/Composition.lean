import QueryBatch.Proofs.Batch.Progress

/-!
# Composite operations

When a batch is composed, what comes of it, and with which error it is refused otherwise. Main
statements:

* `Composer.fuses_of_compose`: a composite is the list of the renamed copies of its template, with
  all their values and aliases, and no two of its names are equal;
* `Composer.compose_iff`: a batch is composed exactly if nothing is wrong with it, and refused with
  the first thing that is; what is done with the copies never fails.
-/

namespace QueryBatch

variable {κ : Type}

namespace Composer

/-! ## Which batches are composed -/

/-- Nothing is wrong with a batch. -/
structure Accepts (c : Composer) (template : Operation) (items : List (BatchItem κ)) : Prop where
  nonempty : items ≠ []
  withinLimit : items.length ≤ c.config.maxBatchSize.toNat
  singleField : template.fields.length = 1
  closed : ∀ name ∈ template.references, name ∈ template.variableNames
  distinct : Distinct c.naming template items

/-- The first thing that is wrong with a batch. -/
inductive FirstViolation (c : Composer) (template : Operation) (items : List (BatchItem κ)) :
    BatchError → Prop
  | emptyBatch (hempty : items = []) : FirstViolation c template items .emptyBatch
  | tooLarge (hne : items ≠ []) (hlen : c.config.maxBatchSize.toNat < items.length) :
    FirstViolation c template items (.tooLarge items.length c.config.maxBatchSize.toNat)
  | templateFieldCount (hne : items ≠ []) (hlen : items.length ≤ c.config.maxBatchSize.toNat)
    (hfields : template.fields.length ≠ 1) :
    FirstViolation c template items (.shape (.templateFieldCount template.fields.length))
  | templateUndeclared {before : List String} {name : String} (hne : items ≠ [])
    (hlen : items.length ≤ c.config.maxBatchSize.toNat) (hfields : template.fields.length = 1)
    (hname : FirstFault (fun _ name => name ∉ template.variableNames) before name
      template.references) :
    FirstViolation c template items (.shape (.templateUndeclared name))
  | refusal {done : List (BatchItem κ)} {item : BatchItem κ} {e : BatchError} (hne : items ≠ [])
    (hlen : items.length ≤ c.config.maxBatchSize.toNat) (hfields : template.fields.length = 1)
    (hclosed : ∀ name ∈ template.references, name ∈ template.variableNames)
    (hitem : FirstFault (Refused c.naming template) done item items)
    (herror : Refusal c.naming template done item e) : FirstViolation c template items e

/-- Wherever composing has come to making a copy of a template, the copy can be renamed, aliased
and merged onto those before it. -/
def CopiesNeverFail (κ : Type) [DecidableEq κ] (naming : Naming) (template : Operation) : Prop :=
  ∀ (done : List (BatchItem κ)) (p : Progress κ) (newNames : Renaming) (names : List String),
    checkTemplate template = .ok () →
    done.foldlM (Progress.addItem naming template) .start = .ok p →
    p.aliases.contains (naming.aliasOf p.aliases.size) = false →
    Progress.nameVariables (naming.variableOf p.aliases.size) p.names template.variableNames =
      .ok (newNames, names) →
    ∃ copy aliased merged, template.rename newNames = .ok copy ∧
      copy.setAlias (naming.aliasOf p.aliases.size) = .ok aliased ∧
      Operation.mergeOnto p.operation aliased = .ok merged

variable {c : Composer} {template : Operation} {q : Field} {items : List (BatchItem κ)}

theorem accepts_or_violation (c : Composer) (template : Operation) (items : List (BatchItem κ)) :
    c.Accepts template items ∨ ∃ e, c.FirstViolation template items e := by
  by_cases hempty : items = []
  · exact .inr ⟨_, .emptyBatch hempty⟩
  rcases Nat.lt_or_ge c.config.maxBatchSize.toNat items.length with hlen | hlen
  · exact .inr ⟨_, .tooLarge hempty hlen⟩
  by_cases hfields : template.fields.length = 1
  · rcases faultFree_or_firstFault (fun _ name => name ∉ template.variableNames)
      template.references with hclosed | ⟨before, name, hname⟩
    · have hclosed : ∀ name ∈ template.references, name ∈ template.variableNames :=
        fun name hname => Decidable.not_not.1 (faultFree_iff_forall.1 hclosed name hname)
      rcases faultFree_or_firstFault (Refused c.naming template) items with
        hitems | ⟨done, item, hitem⟩
      · exact .inl ⟨hempty, hlen, hfields, hclosed, faultFree_refused_iff.1 hitems⟩
      · obtain ⟨e, herror⟩ := hitem.fault
        exact .inr ⟨e, .refusal hempty hlen hfields hclosed hitem herror⟩
    · exact .inr ⟨_, .templateUndeclared hempty hlen hfields hname⟩
  · exact .inr ⟨_, .templateFieldCount hempty hlen hfields⟩

theorem exists_field (h : template.fields.length = 1) : ∃ q, template.fields = [q] :=
  List.length_eq_one_iff.1 h

/-! ## Checking the template -/

theorem checkTemplate_of_closed (hfields : template.fields.length = 1)
    (hclosed : ∀ name ∈ template.references, name ∈ template.variableNames) :
    checkTemplate template = .ok () := by
  have hnone : template.references.find? (!template.declares ·) = none :=
    List.find?_eq_none.2 fun name hname => by
      simpa [Operation.declares_iff] using hclosed name hname
  rw [checkTemplate, if_neg (not_not_intro hfields), hnone]

theorem checkTemplate_of_undeclared {before : List String} {name : String}
    (hfields : template.fields.length = 1)
    (hname : FirstFault (fun _ name => name ∉ template.variableNames) before name
      template.references) :
    checkTemplate template = .error (.templateUndeclared name) := by
  have hsome : template.references.find? (!template.declares ·) = some name :=
    find?_of_firstFault (fun other => by simp [Bool.eq_false_iff, Operation.declares_iff]) hname
  rw [checkTemplate, if_neg (not_not_intro hfields), hsome]

theorem closed_of_checkTemplate (h : checkTemplate template = .ok ()) :
    template.fields.length = 1 ∧ ∀ name ∈ template.references, name ∈ template.variableNames := by
  by_cases hfields : template.fields.length = 1
  · rcases faultFree_or_firstFault (fun _ name => name ∉ template.variableNames)
      template.references with hclosed | ⟨before, name, hname⟩
    · exact ⟨hfields,
        fun name hname => Decidable.not_not.1 (faultFree_iff_forall.1 hclosed name hname)⟩
    · rw [checkTemplate_of_undeclared hfields hname] at h
      cases h
  · rw [checkTemplate, if_pos hfields] at h
    cases h

/-! ## What composing gives -/

/-- The composite of a batch, where the template has the field `q`. -/
def fusion (c : Composer) (template : Operation) (q : Field) (items : List (BatchItem κ)) :
    Composite κ where
  operation := c.nameOperation (template.copies c.naming q items.length)
  values := Dict.ofList (routedValues c.naming items)
  aliases := aliasesOf c.naming items

variable [DecidableEq κ]

theorem compose_of_accepts (hq : template.fields = [q]) (h : c.Accepts template items) :
    c.compose template items = .ok (c.fusion template q items) := by
  have hfold := foldlM_of_faultFree (addsFaultless_addItem hq h.closed)
    (faultFree_refused_iff.2 h.distinct)
  have hempty : items.isEmpty = false := by simpa using h.nonempty
  rw [after_nil] at hfold
  simp only [compose, hempty, decide_eq_false (Nat.not_lt.2 h.withinLimit),
    checkTemplate_of_closed h.singleField h.closed, hfold, refuseIf_false, ok_bind,
    Except.mapError, Progress.after, Bool.false_eq_true, if_false]
  rfl

theorem compose_of_violation {e : BatchError} (h : c.FirstViolation template items e) :
    c.compose template items = .error e := by
  have hne : ∀ {xs : List (BatchItem κ)}, xs ≠ [] → xs.isEmpty = false := by simp
  cases h with
  | emptyBatch hempty => rw [hempty]; rfl
  | tooLarge hempty hlen =>
    simp only [compose, hne hempty, decide_eq_true hlen, refuseIf_false, refuseIf_true, ok_bind,
      error_bind]
  | templateFieldCount hempty hlen hfields =>
    simp only [compose, hne hempty, decide_eq_false (Nat.not_lt.2 hlen), checkTemplate,
      if_pos hfields, refuseIf_false, ok_bind, error_bind, Except.mapError]
  | templateUndeclared hempty hlen hfields hname =>
    simp only [compose, hne hempty, decide_eq_false (Nat.not_lt.2 hlen),
      checkTemplate_of_undeclared hfields hname, refuseIf_false, ok_bind, error_bind,
      Except.mapError]
  | refusal hempty hlen hfields hclosed hitem herror =>
    obtain ⟨q, hq⟩ := exists_field hfields
    have hfold := foldlM_of_firstFault (addsFaultless_addItem hq hclosed) hitem
      (addItem_of_refusal herror)
    rw [after_nil] at hfold
    simp only [compose, hne hempty, decide_eq_false (Nat.not_lt.2 hlen),
      checkTemplate_of_closed hfields hclosed, hfold, refuseIf_false, ok_bind, error_bind,
      Except.mapError]

theorem compose_eq_ok_iff {r : Composite κ} :
    c.compose template items = .ok r ↔
      c.Accepts template items ∧ ∃ q, template.fields = [q] ∧ r = c.fusion template q items := by
  constructor
  · intro h
    rcases accepts_or_violation c template items with hacc | ⟨e, he⟩
    · obtain ⟨q, hq⟩ := exists_field hacc.singleField
      rw [compose_of_accepts hq hacc] at h
      exact ⟨hacc, q, hq, (Except.ok.inj h).symm⟩
    · rw [compose_of_violation he] at h
      cases h
  · rintro ⟨hacc, q, hq, rfl⟩
    exact compose_of_accepts hq hacc

theorem compose_eq_error_iff {e : BatchError} :
    c.compose template items = .error e ↔ c.FirstViolation template items e := by
  refine ⟨fun h => ?_, compose_of_violation⟩
  rcases accepts_or_violation c template items with hacc | ⟨e', he'⟩
  · obtain ⟨q, hq⟩ := exists_field hacc.singleField
    rw [compose_of_accepts hq hacc] at h
    cases h
  · rw [compose_of_violation he'] at h
    exact Except.error.inj h ▸ he'

theorem copiesNeverFail (naming : Naming) (template : Operation) :
    CopiesNeverFail κ naming template := by
  intro done p newNames names hcheck hfold halias hnames
  obtain ⟨hfields, hclosed⟩ := closed_of_checkTemplate hcheck
  obtain ⟨q, hq⟩ := exists_field hfields
  obtain ⟨hdone, rfl⟩ := foldlM_addItem_eq_ok hq hclosed hfold
  simp only [Progress.after, size_aliasesOf] at halias hnames ⊢
  have halias : ¬ AliasTaken naming done := by
    rw [← contains_aliasesOf, halias]
    exact Bool.false_ne_true
  rcases faultFree_or_firstFault (VariableTaken naming template done) template.variableNames with
    hnew | ⟨before, name, htaken⟩
  · rw [nameVariables_of_faultFree hnew] at hnames
    obtain ⟨rfl, -⟩ := Prod.mk.inj (Except.ok.inj hnames)
    obtain ⟨copy, aliased, hrename, hset, hmerge⟩ := exists_merged hq hclosed hdone halias hnew
    exact ⟨copy, aliased, _, hrename, hset, hmerge⟩
  · rw [nameVariables_of_firstFault htaken] at hnames
    cases hnames

/-! ## What a composite is -/

/-- A composite is the list of the copies of its template: the copy at a position has the alias
and the variables of that position, and its values are those of the item there. -/
structure Fuses (c : Composer) (template : Operation) (items : List (BatchItem κ))
    (r : Composite κ) : Prop where
  kind : r.operation.kind = template.kind
  name : r.operation.name = c.config.operationName.or template.name
  fields : ∃ q, template.fields = [q] ∧
    r.operation.fields = (List.range items.length).map (q.copy c.naming)
  definitions : r.operation.definitions = (List.range items.length).flatMap fun i =>
    template.definitions.map (·.substitute (c.naming.variableOf i))
  values : r.values.entries.Perm (routedValues c.naming items)
  aliases : r.aliases.entries = items.zipIdx.map fun (item, i) => (c.naming.aliasOf i, item.id)
  nodup_variableNames : r.operation.variableNames.Nodup
  nodup_responseKeys : r.operation.responseKeys.Nodup
  nodup_ids : r.aliases.ids.Nodup
  own_references : ∀ i f, r.operation.fields[i]? = some f → ∀ name ∈ f.references,
    name ∈ r.operation.variableNames ∧
      ∃ old ∈ template.variableNames, c.naming.variableOf i old = name

omit [DecidableEq κ] in
theorem fuses_fusion (hq : template.fields = [q]) (h : c.Accepts template items) :
    c.Fuses template items (c.fusion template q items) where
  kind := rfl
  name := rfl
  fields := ⟨q, hq, rfl⟩
  definitions := rfl
  values := Dict.entries_ofList_perm (nodup_keys_routedValues h.distinct.names h.distinct.keys)
  aliases := entries_aliasesOf c.naming items
  nodup_variableNames := by
    show (template.copies c.naming q items.length).variableNames.Nodup
    rw [Operation.variableNames_copies]
    exact h.distinct.names
  nodup_responseKeys := by
    show (template.copies c.naming q items.length).responseKeys.Nodup
    rw [Operation.responseKeys_copies]
    exact h.distinct.aliases
  nodup_ids := by
    show (aliasesOf c.naming items).ids.Nodup
    rw [ids_aliasesOf]
    exact h.distinct.ids
  own_references := by
    intro i f hf name hname
    change ((List.range items.length).map (q.copy c.naming))[i]? = some f at hf
    rw [List.getElem?_map, Option.map_eq_some_iff] at hf
    obtain ⟨j, hj, rfl⟩ := hf
    obtain ⟨hi, rfl⟩ := List.getElem?_eq_some_iff.1 hj
    rw [List.length_range] at hi
    rw [List.getElem_range] at hname
    rw [Field.references_copy] at hname
    obtain ⟨old, hold, rfl⟩ := List.mem_map.1 hname
    have hdeclared : old ∈ template.variableNames := by
      refine h.closed old ?_
      simpa [Operation.references, hq, Field.referencesInList] using hold
    refine ⟨?_, old, hdeclared, rfl⟩
    show _ ∈ (template.copies c.naming q items.length).variableNames
    rw [Operation.variableNames_copies, Operation.mem_copiedNames]
    exact ⟨i, hi, old, hdeclared, rfl⟩

/-- A batch is composed into the copies of its template, whatever names they are given, and no two
names of the composite are equal. -/
theorem fuses_of_compose {r : Composite κ} (h : c.compose template items = .ok r) :
    c.Fuses template items r := by
  obtain ⟨hacc, q, hq, rfl⟩ := compose_eq_ok_iff.1 h
  exact fuses_fusion hq hacc

/-- A template with variables in a list, in an object and in a directive of a nested field. -/
def raiseAlert : Operation where
  kind := .mutation
  name := some "Raise"
  definitions :=
    [⟨"x", .nonNull (.named "Alert"), none⟩, ⟨"y", .named "Int", some (.int 1)⟩]
  fields := [⟨none, "raise", [⟨"on", .list [.var "x", .object [("times", .var "y")]]⟩], [],
    some [⟨none, "id", [], [⟨"include", [⟨"if", .var "y"⟩]⟩], none⟩]⟩]

/-- The first copy swaps the two names of the template; the second has names of its own. -/
def swapping : Naming where
  aliasOf i := "a" ++ toString i
  variableOf i name := if i = 0 then (if name = "x" then "y" else "x") else "z" ++ name

def twoAlerts : List (BatchItem Nat) :=
  [⟨7, (∅ : Dict Json).insert "x" (.string "disk")⟩,
    ⟨3, ((∅ : Dict Json).insert "x" (.string "fan")).insert "y" (.int 2)⟩]

theorem accepts_twoAlerts : (⟨.standard, swapping⟩ : Composer).Accepts raiseAlert twoAlerts :=
  ⟨by decide, by decide, by decide, by decide, ⟨by decide, by decide, by decide, by decide⟩⟩

theorem fuses_of_compose_twoAlerts :
    ∃ r, (⟨.standard, swapping⟩ : Composer).compose raiseAlert twoAlerts = .ok r ∧
      (⟨.standard, swapping⟩ : Composer).Fuses raiseAlert twoAlerts r := by
  have h := compose_of_accepts rfl accepts_twoAlerts
  exact ⟨_, h, fuses_of_compose h⟩

/-- A batch is composed exactly if nothing is wrong with it; otherwise the first thing that is
wrong is the error; and a copy of the template is never the reason of one. -/
theorem compose_iff (c : Composer) (template : Operation) (items : List (BatchItem κ)) :
    ((∃ r, c.compose template items = .ok r) ↔ c.Accepts template items) ∧
      (∀ e, c.compose template items = .error e ↔ c.FirstViolation template items e) ∧
      CopiesNeverFail κ c.naming template := by
  refine ⟨⟨?_, fun h => ?_⟩, fun e => compose_eq_error_iff, copiesNeverFail c.naming template⟩
  · rintro ⟨r, h⟩
    exact (compose_eq_ok_iff.1 h).1
  · obtain ⟨q, hq⟩ := exists_field h.singleField
    exact ⟨_, compose_of_accepts hq h⟩

end Composer

end QueryBatch
