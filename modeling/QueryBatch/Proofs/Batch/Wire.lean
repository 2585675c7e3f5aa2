import QueryBatch.Proofs.Batch.Composition
import QueryBatch.Proofs.Document.Readable
import QueryBatch.Proofs.Operation.Validity

/-!
# What is sent for a batch is the composite

The text of a composite is read as the composite. For that, the names that its copies are given must
be words of the language, as they are in the built-in namings. Main statements:

* `Naming.givesWords_indexed`, `Naming.givesWords_prefixed`: the built-in namings give words;
* `Composer.valid_of_compose`: a composite of a template that was read is valid;
* `Composer.reads_request`: so the request for it means what the composite is, and supplies values
  for no variable that it does not declare.
-/

namespace QueryBatch

/-! ## Namings that give words -/

/-- The aliases of a naming are words, and so are its variables if those of the template are. -/
structure Naming.GivesWords (naming : Naming) : Prop where
  aliasOf : ∀ i, isWord (naming.aliasOf i) = true
  variableOf : ∀ i, KeepsWords (naming.variableOf i)

namespace Naming

theorem isWord_numberedAlias (i : Nat) : isWord (numberedAlias i) = true :=
  isWord_append (by decide) (isNameChar_toString i)

theorem givesWords_indexed : indexed.GivesWords where
  aliasOf := isWord_numberedAlias
  variableOf i name hname := by
    refine isWord_append (isWord_append hname ?_) (isNameChar_toString i)
    split <;> exact List.all_eq_true.1 (by decide)

theorem givesWords_prefixed : prefixed.GivesWords where
  aliasOf := isWord_numberedAlias
  variableOf i name hname := by
    have hinput : isWord ("input" ++ toString i) = true :=
      isWord_append (by decide) (isNameChar_toString i)
    exact isWord_append (isWord_append hinput (List.all_eq_true.1 (by decide)))
      (isNameChar_of_isWord hname)

end Naming

/-! ## Templates that were read -/

theorem Operation.mem_of_ofSource? {source : String} {name : Option String} {op : Operation}
    (h : Operation.ofSource? source name = .ok op) :
    (Document.diagnostics source).hasErrors = false ∧
      op ∈ (Document.ofSource source).value.operations := by
  simp only [ofSource?] at h
  split at h
  · cases h
  · rename_i herrors
    refine ⟨Bool.eq_false_iff.2 herrors, ?_⟩
    cases name with
    | some name =>
      simp only at h
      split at h
      · rename_i hfind
        obtain rfl := Except.ok.inj h
        exact List.mem_of_find?_eq_some hfind
      · cases h
    | none =>
      simp only at h
      split at h
      · rename_i hsingle
        obtain rfl := Except.ok.inj h
        unfold Document.singleOperation? at hsingle
        split at hsingle
        · rename_i hops
          obtain rfl := Option.some.inj hsingle
          rw [hops]
          exact List.mem_singleton_self _
        · cases hsingle
      · cases h

/-- An operation that is read from a source can be written. -/
theorem Operation.writable_of_ofSource? {source : String} {name : Option String} {op : Operation}
    (h : Operation.ofSource? source name = .ok op) :
    op.isSpellable = true ∧ op.isGrammatical = true := by
  obtain ⟨herrors, hmem⟩ := mem_of_ofSource? h
  obtain ⟨hspellable, hgrammatical⟩ := Document.writable_of_hasErrors herrors
  exact ⟨List.all_eq_true.1 hspellable op hmem, List.all_eq_true.1 hgrammatical op hmem⟩

namespace Composer

variable {κ : Type} {c : Composer} {template : Operation} {items : List (BatchItem κ)}
  {r : Composite κ}

/-! ## Composites -/

/-- A composite defines what its template does, under new names. -/
theorem Fuses.exists_definition (h : c.Fuses template items r) {v : VariableDefinition}
    (hv : v ∈ r.operation.definitions) :
    ∃ i, ∃ w ∈ template.definitions, w.substitute (c.naming.variableOf i) = v := by
  rw [h.definitions] at hv
  obtain ⟨i, -, hv⟩ := List.mem_flatMap.1 hv
  exact ⟨i, List.mem_map.1 hv⟩

/-- A composite selects what its template does, under new names and then another alias. -/
theorem Fuses.exists_field (h : c.Fuses template items r) {q : Field}
    (hq : q ∈ r.operation.fields) :
    ∃ i, ∃ p ∈ template.fields,
      (p.substitute (c.naming.variableOf i)).withAlias (c.naming.aliasOf i) = q := by
  obtain ⟨p, hp, hfields⟩ := h.fields
  rw [hfields] at hq
  obtain ⟨i, -, rfl⟩ := List.mem_map.1 hq
  exact ⟨i, p, by rw [hp]; exact List.mem_singleton_self p, rfl⟩

theorem Fuses.closed (h : c.Fuses template items r) :
    ∀ name ∈ r.operation.references, name ∈ r.operation.variableNames := by
  intro name hname
  rw [Operation.references_eq_flatMap] at hname
  obtain ⟨f, hf, hname⟩ := List.mem_flatMap.1 hname
  obtain ⟨i, hi⟩ := List.mem_iff_getElem?.1 hf
  exact (h.own_references i f hi name hname).1

variable [DecidableEq κ]

/-- A composite is valid if its template can be written and all its names are words. -/
theorem valid_of_compose (hs : template.isSpellable = true) (hg : template.isGrammatical = true)
    (hname : c.config.operationName.all isWord = true) (hnaming : c.naming.GivesWords)
    (h : c.compose template items = .ok r) : r.operation.Valid := by
  obtain ⟨hacc, q, hq, hr⟩ := compose_eq_ok_iff.1 h
  have hfuses : c.Fuses template items r := hr ▸ fuses_fusion hq hacc
  obtain ⟨hsname, hsdefs, hsfields⟩ := Operation.isSpellable_iff.1 hs
  obtain ⟨hgdefs, -, -, hgfields⟩ := Operation.isGrammatical_iff.1 hg
  refine ⟨Operation.isSpellable_iff.2 ⟨?_, fun v hv => ?_, fun q hq => ?_⟩,
    Operation.isGrammatical_iff.2 ⟨fun v hv => ?_, hfuses.nodup_variableNames, ?_, fun q hq => ?_⟩,
    hfuses.closed, hfuses.nodup_responseKeys⟩
  · rw [hfuses.name]
    cases hoperation : c.config.operationName with
    | none => exact hsname
    | some name => rwa [hoperation] at hname
  · obtain ⟨i, w, hw, rfl⟩ := hfuses.exists_definition hv
    exact VariableDefinition.isSpellable_substitute (hnaming.variableOf i) (hsdefs w hw)
  · obtain ⟨i, p, hp, rfl⟩ := hfuses.exists_field hq
    exact Field.isSpellable_withAlias (hnaming.aliasOf i)
      (Field.isSpellable_substitute (hnaming.variableOf i) (hsfields p hp))
  · obtain ⟨i, w, hw, rfl⟩ := hfuses.exists_definition hv
    rw [VariableDefinition.isGrammatical_substitute]
    exact hgdefs w hw
  · obtain ⟨_, -, hfields⟩ := hfuses.fields
    rw [hfields, ne_eq, List.map_eq_nil_iff, List.range_eq_nil, List.length_eq_zero_iff]
    exact hacc.nonempty
  · obtain ⟨i, p, hp, rfl⟩ := hfuses.exists_field hq
    rw [Field.isGrammatical_withAlias, Field.isGrammatical_substitute]
    exact hgfields p hp

/-- Values are supplied for no variable that the composite does not declare. -/
theorem keys_of_compose (h : c.compose template items = .ok r) :
    ∀ key ∈ r.values.keys, key ∈ r.operation.variableNames := by
  obtain ⟨hacc, q, hq, rfl⟩ := compose_eq_ok_iff.1 h
  intro key hkey
  show key ∈ (template.copies c.naming q items.length).variableNames
  rw [Operation.variableNames_copies, Operation.mem_copiedNames]
  obtain ⟨e, he, rfl⟩ := List.mem_map.1 hkey
  have hrouted := (fuses_fusion hq hacc).values.mem_iff.1 he
  obtain ⟨i, item, name, hitem, hvalue, hvariable⟩ := (mem_routedValues _ _).1 hrouted
  obtain ⟨hlt, -⟩ := List.getElem?_eq_some_iff.1 hitem
  have hdeclared := hacc.distinct.keys item (List.mem_of_getElem? hitem) name
    (Dict.contains_iff.1 (Option.isSome_iff_exists.2 ⟨_, hvalue⟩))
  exact ⟨i, hlt, name, hdeclared, hvariable⟩

/-! ## Requests -/

/-- The request for a batch is read as the composite, and nothing is reported about it; it supplies
values for no variable that the composite does not declare. The scanner of bytes gives the tokens of
a query of at most `2 ^ 32 - 4` bytes. -/
theorem reads_request {source : String} {name : Option String}
    (ht : Operation.ofSource? source name = .ok template)
    (hname : c.config.operationName.all isWord = true)
    (hnaming : c.naming = .indexed ∨ c.naming = .prefixed ∨ c.naming.GivesWords)
    (h : c.compose template items = .ok r) :
    Operation.ofSource? r.request.query r.request.operationName = .ok r.operation ∧
      (∀ key ∈ r.request.values.keys, key ∈ r.operation.variableNames) ∧
      Document.diagnostics r.request.query = .empty := by
  have hwords : c.naming.GivesWords := by
    rcases hnaming with hindexed | hprefixed | hwords
    · rw [hindexed]
      exact Naming.givesWords_indexed
    · rw [hprefixed]
      exact Naming.givesWords_prefixed
    · exact hwords
  obtain ⟨hs, hg⟩ := Operation.writable_of_ofSource? ht
  have hread := (valid_of_compose hs hg hname hwords h).ofSource_eq .compact
  refine ⟨Operation.ofSource?_of_reading hread (.inr rfl), keys_of_compose h, ?_⟩
  rw [Document.diagnostics, Composite.request_query, hread]
  rfl

theorem givesWords_swapping : swapping.GivesWords where
  aliasOf i := isWord_append (by decide) (isNameChar_toString i)
  variableOf i name hname := by
    show isWord (if i = 0 then (if name = "x" then "y" else "x") else "z" ++ name) = true
    split
    · split <;> decide
    · exact isWord_append (by decide) (isNameChar_of_isWord hname)

theorem reads_request_twoAlerts :
    Operation.ofSource? raiseAlert.compactText none = .ok raiseAlert ∧
      ∃ r, (⟨.standard, swapping⟩ : Composer).compose raiseAlert twoAlerts = .ok r ∧
        Operation.ofSource? r.request.query r.request.operationName = .ok r.operation ∧
        r.operation.variableNames = ["y", "x", "zx", "zy"] ∧
        (∀ key ∈ r.request.values.keys, key ∈ r.operation.variableNames) ∧
        Document.diagnostics r.request.query = .empty := by
  have hvalid : raiseAlert.Valid := ⟨by decide, by decide, by decide, by decide⟩
  have ht : Operation.ofSource? raiseAlert.compactText none = .ok raiseAlert :=
    Operation.ofSource?_of_reading (hvalid.ofSource_eq .compact) (.inl rfl)
  have h := compose_of_accepts rfl accepts_twoAlerts
  obtain ⟨hread, hkeys, hclean⟩ := reads_request ht rfl (.inr (.inr givesWords_swapping)) h
  exact ⟨ht, _, h, hread, by decide, hkeys, hclean⟩

end Composer

end QueryBatch
