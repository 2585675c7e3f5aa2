import Mathlib.Data.List.Nodup
import QueryBatch.Operation.Template
import QueryBatch.Proofs.Document.Writable
import QueryBatch.Proofs.Operation.Prefixing
import QueryBatch.Proofs.Token.Words

/-!
# Valid operations

An operation is valid if it can be written, declares the variables that it mentions, and has no
response key twice. Main statements:

* `Operation.Valid.ofSource_eq`: a valid operation is read back from its text, and nothing is
  reported;
* `Operation.ofSource?_of_reading`: where a source holds one operation, it is found there;
* `Operation.Valid.withAliases`, `Operation.Valid.substitute`, `Operation.Valid.merge`: what keeps
  an operation valid.
-/

namespace QueryBatch

/-- An operation that can be written and makes sense on its own. -/
structure Operation.Valid (op : Operation) : Prop where
  spellable : op.isSpellable = true
  grammatical : op.isGrammatical = true
  closed : ∀ name ∈ op.references, name ∈ op.variableNames
  nodup_responseKeys : op.responseKeys.Nodup

namespace Operation

variable {a b c op result : Operation} {f : String → String}

/-! ## Valid operations are read back -/

/-- Where all variables are declared, nothing is warned about. -/
theorem undeclared_eq_nil (h : ∀ name ∈ op.references, name ∈ op.variableNames) :
    op.undeclared = [] :=
  List.eq_nil_iff_forall_not_mem.2 fun name hname =>
    (mem_undeclared.1 hname).2 (h name (mem_undeclared.1 hname).1)

theorem text_singleton (style : Style) (op : Operation) :
    Document.text style ⟨[op]⟩ = op.text style := rfl

/-- A valid operation is read back from its text, and nothing is reported. -/
theorem Valid.ofSource_eq (h : op.Valid) (style : Style) :
    Document.ofSource (op.text style) = ⟨⟨[op]⟩, [], []⟩ := by
  have hs : Document.isSpellable ⟨[op]⟩ = true := by
    rw [Document.isSpellable, List.all_cons, h.spellable]
    rfl
  have hg : Document.isGrammatical ⟨[op]⟩ = true := by
    rw [Document.isGrammatical, List.all_cons, h.grammatical]
    rfl
  rw [← text_singleton]
  refine Document.ofTokens_of_declared
    (Document.isDocument hs hg (Document.spellings_text hs style)) fun op' hop' => ?_
  obtain rfl := List.mem_singleton.1 hop'
  exact undeclared_eq_nil h.closed

/-- An operation that is all that a source holds is found without a name, and under its own. -/
theorem ofSource?_of_reading {source : String} (h : Document.ofSource source = ⟨⟨[op]⟩, [], []⟩)
    {name : Option String} (hname : name = none ∨ name = op.name) :
    ofSource? source name = .ok op := by
  have hnone : (Document.diagnostics source).hasErrors = false := by
    rw [Document.diagnostics, h]
    rfl
  simp only [ofSource?, hnone, h, Bool.false_eq_true, if_false]
  cases name with
  | none => rfl
  | some name =>
    have hop : op.name = some name := (hname.resolve_left (Option.some_ne_none name)).symm
    have hfind : Document.operation? ⟨[op]⟩ name = some op := by
      rw [Document.operation?, List.find?_cons_of_pos (by rw [hop, beq_self_eq_true])]
    simp only [hfind]

/-! ## The parts of a valid operation -/

theorem isSpellable_iff : op.isSpellable = true ↔ op.name.all isWord = true ∧
    (∀ v ∈ op.definitions, v.isSpellable = true) ∧ ∀ q ∈ op.fields, q.isSpellable = true := by
  simp only [isSpellable, Field.areSpellable_eq_all, Bool.and_eq_true, List.all_eq_true, and_assoc]

theorem isGrammatical_iff : op.isGrammatical = true ↔
    (∀ v ∈ op.definitions, v.isGrammatical = true) ∧ op.variableNames.Nodup ∧
      op.fields ≠ [] ∧ ∀ q ∈ op.fields, q.isGrammatical = true := by
  simp only [isGrammatical, Field.isSelectionGrammatical, Field.areGrammatical_eq_all,
    Bool.and_eq_true, List.all_eq_true, decide_eq_true_eq, Bool.not_eq_true',
    List.isEmpty_eq_false_iff, ne_eq, and_assoc]

end Operation

/-! ## Aliases -/

namespace Field

variable {key : String} {q : Field}

theorem isSpellable_withAlias (hkey : isWord key = true) (h : q.isSpellable = true) :
    (q.withAlias key).isSpellable = true := by
  obtain ⟨⟨-, hname⟩, hrest⟩ := isSpellable_iff.1 h
  exact isSpellable_iff.2 ⟨⟨hkey, hname⟩, hrest⟩

theorem isGrammatical_withAlias (key : String) (q : Field) :
    (q.withAlias key).isGrammatical = q.isGrammatical := by
  obtain ⟨alias?, name, arguments, directives, selection⟩ := q
  rw [withAlias, isGrammatical, isGrammatical]

theorem isWord_responseKey (h : q.isSpellable = true) : isWord q.responseKey = true := by
  obtain ⟨⟨halias, hname⟩, -⟩ := isSpellable_iff.1 h
  obtain ⟨alias?, name, arguments, directives, selection⟩ := q
  cases alias? with
  | none => exact hname
  | some key => exact halias

end Field

namespace Operation

variable {a b c op result : Operation} {f : String → String}

/-- Other aliases keep an operation valid if they are words and differ. -/
theorem Valid.withAliases (h : op.Valid) (key : Field → String)
    (hkey : ∀ q ∈ op.fields, isWord (key q) = true) (hnodup : (op.fields.map key).Nodup) :
    Valid { op with fields := op.fields.map fun q => q.withAlias (key q) } := by
  obtain ⟨hname, hsdefs, hsfields⟩ := isSpellable_iff.1 h.spellable
  obtain ⟨hgdefs, hvariables, hne, hgfields⟩ := isGrammatical_iff.1 h.grammatical
  refine ⟨isSpellable_iff.2 ⟨hname, hsdefs, ?_⟩, isGrammatical_iff.2 ⟨hgdefs, hvariables, ?_, ?_⟩,
    ?_, ?_⟩
  · exact List.forall_mem_map.2 fun q hq => Field.isSpellable_withAlias (hkey q hq) (hsfields q hq)
  · exact fun hnil => hne (List.map_eq_nil_iff.1 hnil)
  · refine List.forall_mem_map.2 fun q hq => ?_
    rw [Field.isGrammatical_withAlias]
    exact hgfields q hq
  · rw [references_eq_flatMap, List.flatMap_map]
    simp only [Field.references_withAlias]
    rw [← references_eq_flatMap]
    exact h.closed
  · rw [responseKeys, List.map_map]
    exact hnodup

/-- A field under another key is the same phrase as before. -/
theorem Valid.setAlias (h : op.Valid) {key : String} (hkey : isWord key = true)
    (hset : op.setAlias key = .ok result) : result.Valid := by
  unfold Operation.setAlias at hset
  split at hset
  · rename_i q hq
    have hfields := field_eq_of_single.1 hq
    obtain rfl := Except.ok.inj hset
    have hvalid := h.withAliases (fun _ => key) (fun _ _ => hkey)
      (by rw [hfields]; exact List.nodup_singleton key)
    rwa [hfields] at hvalid
  · cases hset

/-! ## New names for variables -/

/-- New names of variables keep an operation valid if they are words and differ. -/
theorem Valid.substitute (h : op.Valid) (hf : KeepsWords f)
    (hnodup : (op.variableNames.map f).Nodup) : (op.substitute f).Valid := by
  obtain ⟨hname, hsdefs, hsfields⟩ := isSpellable_iff.1 h.spellable
  obtain ⟨hgdefs, -, hne, hgfields⟩ := isGrammatical_iff.1 h.grammatical
  refine ⟨isSpellable_iff.2 ⟨hname, ?_, ?_⟩, isGrammatical_iff.2 ⟨?_, ?_, ?_, ?_⟩, ?_, ?_⟩
  · exact List.forall_mem_map.2 fun v hv =>
      VariableDefinition.isSpellable_substitute hf (hsdefs v hv)
  · rw [fields_substitute]
    exact List.forall_mem_map.2 fun q hq => Field.isSpellable_substitute hf (hsfields q hq)
  · exact List.forall_mem_map.2 fun v hv =>
      (VariableDefinition.isGrammatical_substitute f v).trans (hgdefs v hv)
  · rwa [variableNames_substitute]
  · rw [fields_substitute]
    exact fun hnil => hne (List.map_eq_nil_iff.1 hnil)
  · rw [fields_substitute]
    exact List.forall_mem_map.2 fun q hq =>
      (Field.isGrammatical_substitute f q).trans (hgfields q hq)
  · rw [variableNames_substitute, references, Operation.substitute,
      Field.referencesInList_substituteList]
    exact List.forall_mem_map.2 fun name hname => List.mem_map_of_mem (h.closed name hname)
  · rw [responseKeys_substitute]
    exact h.nodup_responseKeys

theorem Valid.nodup_variableNames (h : op.Valid) : op.variableNames.Nodup :=
  (isGrammatical_iff.1 h.grammatical).2.1

/-- Different names stay different, or the renaming is refused. -/
theorem Valid.rename (h : op.Valid) {r : Renaming} (hr : KeepsWords r.apply)
    (hrename : op.rename r = .ok result) : result.Valid := by
  obtain ⟨hconflict, rfl⟩ := rename_eq_ok_iff.1 hrename
  exact h.substitute hr (Renaming.nodup_map_apply h.nodup_variableNames hconflict)

/-! ## Prefixes -/

/-- Behind a word, the characters of a word make a longer word. -/
theorem isWord_prefixed {front name : String} (hfront : front = "" ∨ isWord front = true)
    (h : isWord name = true) : isWord (front ++ name) = true := by
  rcases hfront with rfl | hfront
  · rwa [String.empty_append]
  · exact isWord_append hfront (isNameChar_of_isWord h)

/-- A text in front of all names leaves an operation valid if it is empty or a word itself. -/
theorem Valid.prefixed (h : op.Valid) {front : String} (hfront : front = "" ∨ isWord front = true)
    (hprefixed : op.prefixed front = .ok result) : result.Valid := by
  rw [prefixed_eq] at hprefixed
  obtain rfl := Except.ok.inj hprefixed
  have hvalid : (op.substitute (front ++ ·)).Valid :=
    h.substitute (fun _ hname => isWord_prefixed hfront hname)
      (h.nodup_variableNames.map fun _ _ => (String.append_right_inj front).1)
  refine hvalid.withAliases (fun q => front ++ q.responseKey) (fun q hq => ?_) ?_
  · exact isWord_prefixed hfront
      (Field.isWord_responseKey ((isSpellable_iff.1 hvalid.spellable).2.2 q hq))
  · have hkeys := hvalid.nodup_responseKeys.map fun _ _ => (String.append_right_inj front).1
    rwa [responseKeys, List.map_map] at hkeys

/-! ## Merging -/

/-- What two operations declare is declared in the merged one, and nothing twice. -/
theorem Valid.merge (ha : a.Valid) (hb : b.Valid) (h : merge a b = .ok c) : c.Valid := by
  obtain ⟨hab, rfl⟩ := merge_eq_ok_iff_compatible.1 h
  obtain ⟨hname, hsdefs, hsfields⟩ := isSpellable_iff.1 ha.spellable
  obtain ⟨-, hsdefs', hsfields'⟩ := isSpellable_iff.1 hb.spellable
  obtain ⟨hgdefs, hnodup, hne, hgfields⟩ := isGrammatical_iff.1 ha.grammatical
  obtain ⟨hgdefs', hnodup', -, hgfields'⟩ := isGrammatical_iff.1 hb.grammatical
  refine ⟨isSpellable_iff.2 ⟨hname, ?_, ?_⟩, isGrammatical_iff.2 ⟨?_, ?_, ?_, ?_⟩, ?_, ?_⟩
  · exact List.forall_mem_append.2 ⟨hsdefs, hsdefs'⟩
  · exact List.forall_mem_append.2 ⟨hsfields, hsfields'⟩
  · exact List.forall_mem_append.2 ⟨hgdefs, hgdefs'⟩
  · rw [variableNames_append]
    exact hnodup.append hnodup' hab.variableNames
  · exact List.append_ne_nil_of_left_ne_nil hne _
  · exact List.forall_mem_append.2 ⟨hgfields, hgfields'⟩
  · rw [references_append, variableNames_append]
    exact List.forall_mem_append.2 ⟨fun name h => List.mem_append_left _ (ha.closed name h),
      fun name h => List.mem_append_right _ (hb.closed name h)⟩
  · rw [responseKeys_append]
    exact ha.nodup_responseKeys.append hb.nodup_responseKeys hab.responseKeys

theorem Valid.mergeOnto {state : Option Operation} (hstate : ∀ op ∈ state, op.Valid)
    (hb : b.Valid) (h : mergeOnto state b = .ok c) : c.Valid := by
  cases state with
  | none =>
    obtain rfl := Except.ok.inj h
    exact hb
  | some a => exact (hstate a rfl).merge hb h

/-- Operations are merged one after the other, onto what there is. -/
theorem Valid.foldlM_mergeOnto {ops : List Operation} (hops : ∀ op ∈ ops, op.Valid)
    {state merged : Option Operation} (hstate : ∀ op ∈ state, op.Valid)
    (h : ops.foldlM (fun merged op => some <$> Operation.mergeOnto merged op) state = .ok merged) :
    ∀ op ∈ merged, op.Valid := by
  induction ops generalizing state with
  | nil =>
    obtain rfl := Except.ok.inj h
    exact hstate
  | cons op ops ih =>
    obtain ⟨hop, hops⟩ := List.forall_mem_cons.1 hops
    rw [List.foldlM_cons] at h
    cases hmerge : Operation.mergeOnto state op with
    | error e =>
      rw [hmerge] at h
      cases h
    | ok next =>
      rw [hmerge] at h
      have hnext : ∀ op ∈ some next, op.Valid := by
        rintro _ ⟨⟩
        exact Valid.mergeOnto hstate hop hmerge
      exact ih hops hnext h

/-- Merging valid operations one after the other gives a valid one. -/
theorem Valid.mergeAll {ops : List Operation} (hops : ∀ op ∈ ops, op.Valid)
    {merged : Option Operation} (h : Operation.mergeAll ops = .ok merged) :
    ∀ op ∈ merged, op.Valid :=
  Valid.foldlM_mergeOnto hops (by rintro _ ⟨⟩) h

end Operation

end QueryBatch
