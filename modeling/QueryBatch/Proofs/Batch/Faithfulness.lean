import QueryBatch.Batch.Executor
import QueryBatch.Proofs.Batch.Index
import QueryBatch.Proofs.Batch.Resolution
import QueryBatch.Proofs.Batch.Routing

/-!
# Every item gets its own answer

A server answers what a field asks, whatever its alias and the names of its variables are. Main
statements:

* `Composer.binding_fusion`: what is known of a variable of a copy is what is known of the
  template's variable, given the values of the item alone;
* `Composer.question_fusion`: so the copy for an item asks what the template asks for that item;
* `Composer.split_of_answers`: hence each item gets the answer to its own question, and the order
  of the items does not matter.
-/

namespace QueryBatch

variable {κ : Type}

/-! ## Servers and responses -/

/-- The answer to a question; the paths of the errors start below the field that asked. -/
structure Answer where
  value : Json
  errors : List ResponseError

abbrev Server := Question → Answer

/-- An error below a field, as a response has it. -/
def ResponseError.under (key : String) (e : ResponseError) : ResponseError :=
  { e with path := .key key :: e.path }

/-- An error without the first step of its path. -/
def ResponseError.below (e : ResponseError) : ResponseError := { e with path := e.path.tail }

theorem ResponseError.below_under (key : String) (e : ResponseError) :
    (e.under key).below = e := rfl

theorem ResponseError.rootKey?_under (key : String) (e : ResponseError) :
    (e.under key).rootKey? = some key := rfl

/-- A response holds the answer to each field of a composite, under the key of that field; nothing
is said about the order of errors at different keys. -/
structure Answers (server : Server) (r : Composite κ) (response : Response) : Prop where
  data : ∀ f ∈ r.operation.fields, response.data.bind (·.member? f.responseKey) =
    some (server (r.operation.question r.values f)).value
  errors : ∀ f ∈ r.operation.fields, response.errors.filter (·.rootKey? == some f.responseKey) =
    (server (r.operation.question r.values f)).errors.map (·.under f.responseKey)
  rooted : ∀ e ∈ response.errors, ∃ f ∈ r.operation.fields, e.rootKey? = some f.responseKey

/-- The response that answers the fields of a composite in their order. -/
def Server.respond (server : Server) (r : Composite κ) : Response where
  data := some (.object (r.operation.fields.map fun f =>
    (f.responseKey, (server (r.operation.question r.values f)).value)))
  errors := r.operation.fields.flatMap fun f =>
    (server (r.operation.question r.values f)).errors.map (·.under f.responseKey)

theorem lookup_responseKey {α : Type} {fields : List Field} {g : Field → α}
    (h : (fields.map (·.responseKey)).Nodup) {f : Field} (hf : f ∈ fields) :
    (fields.map fun f => (f.responseKey, g f)).lookup f.responseKey = some (g f) := by
  induction fields with
  | nil => exact absurd hf List.not_mem_nil
  | cons q qs ih =>
    rw [List.map_cons, List.nodup_cons] at h
    rcases List.mem_cons.1 hf with rfl | hf
    · rw [List.map_cons, List.lookup_cons_self]
    · have hne : f.responseKey ≠ q.responseKey := fun heq => h.1 (heq ▸ List.mem_map_of_mem hf)
      rw [List.map_cons, Dict.lookup_cons_of_ne hne, ih h.2 hf]

theorem filter_under {fields : List Field} {g : Field → List ResponseError}
    (h : (fields.map (·.responseKey)).Nodup) {f : Field} (hf : f ∈ fields) :
    (fields.flatMap fun f => (g f).map (·.under f.responseKey)).filter
        (·.rootKey? == some f.responseKey) =
      (g f).map (·.under f.responseKey) := by
  have hown : ∀ q : Field, ((g q).map (·.under q.responseKey)).filter
      (·.rootKey? == some f.responseKey) =
        if q.responseKey = f.responseKey then (g q).map (·.under q.responseKey) else [] := by
    intro q
    rw [List.filter_map]
    by_cases hq : q.responseKey = f.responseKey <;>
      simp [Function.comp_def, ResponseError.rootKey?_under, hq]
  induction fields with
  | nil => exact absurd hf List.not_mem_nil
  | cons q qs ih =>
    rw [List.map_cons, List.nodup_cons] at h
    rw [List.flatMap_cons, List.filter_append, hown]
    rcases List.mem_cons.1 hf with rfl | hf
    · rw [if_pos rfl, List.append_right_eq_self, List.filter_eq_nil_iff]
      intro e he
      obtain ⟨q, hq, he⟩ := List.mem_flatMap.1 he
      obtain ⟨own, -, rfl⟩ := List.mem_map.1 he
      have hne : q.responseKey ≠ f.responseKey := fun heq => h.1 (heq ▸ List.mem_map_of_mem hq)
      simpa [ResponseError.rootKey?_under] using hne
    · have hne : q.responseKey ≠ f.responseKey := fun heq => h.1 (heq ▸ List.mem_map_of_mem hf)
      rw [if_neg hne, List.nil_append, ih h.2 hf]

theorem answers_respond (server : Server) {r : Composite κ} (h : r.operation.responseKeys.Nodup) :
    Answers server r (server.respond r) where
  data f hf := lookup_responseKey h hf
  errors f hf := filter_under h hf
  rooted e he := by
    obtain ⟨f, hf, he⟩ := List.mem_flatMap.1 he
    obtain ⟨own, -, rfl⟩ := List.mem_map.1 he
    exact ⟨f, hf, ResponseError.rootKey?_under _ own⟩

namespace Outcome

/-- The outcome that an answer under a key stands for. -/
def ofAnswer (missing key : String) (answer : Answer) : Outcome :=
  if answer.errors ≠ [] then .failure (answer.errors.map (·.under key))
  else if answer.value.isNull then .failure [.plain missing [.key key]]
  else .success answer.value

/-- An outcome without the key at which it came. -/
def below : Outcome → Outcome
  | success data => success data
  | failure errors => failure (errors.map (·.below))

theorem ofParts_answer (missing key : String) (answer : Answer) :
    ofParts (.plain missing [.key key]) (answer.errors.map (·.under key)) (some answer.value) =
      ofAnswer missing key answer := by
  obtain ⟨value, errors⟩ := answer
  cases errors with
  | nil => cases hnull : value.isNull <;> simp [ofParts, ofAnswer, Option.filter, hnull]
  | cons e es => rfl

theorem below_ofAnswer (missing key key' : String) (answer : Answer) :
    (ofAnswer missing key answer).below = (ofAnswer missing key' answer).below := by
  unfold ofAnswer
  split
  · simp [below, Function.comp_def, ResponseError.below_under]
  · split <;> rfl

end Outcome

namespace Operation

theorem definition?_eq_some_iff {op : Operation} (h : op.variableNames.Nodup) {name : String}
    {v : VariableDefinition} :
    op.definition? name = some v ↔ v ∈ op.definitions ∧ v.name = name :=
  find?_key_eq_some_iff (fun _ => beq_iff_eq) h

end Operation

namespace Composer

variable {c : Composer} {template : Operation} {q : Field} {items : List (BatchItem κ)}

/-! ## What a copy asks -/

theorem find?_routedValues (h : Distinct c.naming template items) {i : Nat} {item : BatchItem κ}
    (hi : items[i]? = some item) {name : String} (hname : name ∈ template.variableNames) :
    (Dict.ofList (routedValues c.naming items)).find? (c.naming.variableOf i name) =
      item.values.find? name := by
  have hperm := Dict.entries_ofList_perm (nodup_keys_routedValues h.names h.keys)
  refine Option.ext fun value => ?_
  rw [Dict.find?_eq_some_of_perm hperm, mem_routedValues]
  constructor
  -- Only this variable of this item has the name, so no other value can stand under it.
  · rintro ⟨j, other, old, hj, hvalue, hnew⟩
    have hold : old ∈ template.variableNames :=
      h.keys other (List.mem_of_getElem? hj) old
        (List.mem_map_of_mem (Dict.find?_eq_some_iff.1 hvalue))
    obtain ⟨rfl, rfl⟩ := Operation.variableOf_injOn h.names (List.getElem?_eq_some_iff.1 hj).1
      (List.getElem?_eq_some_iff.1 hi).1 hold hname hnew
    obtain rfl := Option.some.inj (hi.symm.trans hj)
    exact hvalue
  · exact fun hvalue => ⟨i, item, name, hi, hvalue, rfl⟩

theorem default_copies (h : (template.copiedNames c.naming items.length).Nodup) {i : Nat}
    (hi : i < items.length) {name : String} (hname : name ∈ template.variableNames) :
    ((template.copies c.naming q items.length).definition? (c.naming.variableOf i name)).bind
        (·.default) =
      (template.definition? name).bind (·.default) := by
  obtain ⟨v, hv, rfl⟩ := List.mem_map.1 hname
  have hnodup : template.variableNames.Nodup :=
    ((List.nodup_flatMap.1 h).1 i (List.mem_range.2 hi)).of_map _
  have hcopies : (template.copies c.naming q items.length).variableNames.Nodup := by
    rwa [Operation.variableNames_copies]
  have hmem : v.substitute (c.naming.variableOf i) ∈
      (template.copies c.naming q items.length).definitions :=
    List.mem_flatMap.2 ⟨i, List.mem_range.2 hi, List.mem_map_of_mem hv⟩
  have hdef : (template.copies c.naming q items.length).definition?
      (c.naming.variableOf i v.name) = some (v.substitute (c.naming.variableOf i)) :=
    (Operation.definition?_eq_some_iff hcopies).2 ⟨hmem, rfl⟩
  rw [(Operation.definition?_eq_some_iff hnodup).2 ⟨hv, rfl⟩, hdef]
  rfl

theorem binding_fusion (h : Distinct c.naming template items) {i : Nat} {item : BatchItem κ}
    (hi : items[i]? = some item) {name : String} (hname : name ∈ template.variableNames) :
    (c.fusion template q items).operation.binding (c.fusion template q items).values
        (c.naming.variableOf i name) =
      template.binding item.values name := by
  have hdefault := default_copies (q := q) h.names (List.getElem?_eq_some_iff.1 hi).1 hname
  unfold Operation.binding
  rw [← hdefault, ← find?_routedValues h hi hname]
  rfl

theorem question_fusion (hq : template.fields = [q]) (h : c.Accepts template items) {i : Nat}
    {item : BatchItem κ} (hi : items[i]? = some item) :
    (c.fusion template q items).operation.question (c.fusion template q items).values
        (q.copy c.naming i) =
      template.question item.values q := by
  refine Field.question_substitute template.kind (some (c.naming.aliasOf i)) fun name hname => ?_
  refine binding_fusion h.distinct hi (h.closed name ?_)
  simpa [Operation.references, hq, Field.referencesInList] using hname

theorem mem_fields_fusion {f : Field} :
    f ∈ (c.fusion template q items).operation.fields ↔
      ∃ i < items.length, q.copy c.naming i = f := by
  show f ∈ (List.range items.length).map (q.copy c.naming) ↔ _
  simp only [List.mem_map, List.mem_range]

/-! ## What an item gets -/

/-- The outcomes of a batch, where each item is answered as if it had been alone. -/
def answeredOutcomes (c : Composer) (server : Server) (template : Operation) (q : Field)
    (items : List (BatchItem κ)) : List (κ × Outcome) :=
  items.zipIdx.map fun (item, i) =>
    (item.id, .ofAnswer c.config.missingDataMessage (c.naming.aliasOf i)
      (server (template.question item.values q)))

theorem split_fusion [DecidableEq κ] {server : Server} {response : Response}
    (hq : template.fields = [q])
    (h : c.Accepts template items) (ha : Answers server (c.fusion template q items) response) :
    c.split (c.fusion template q items) response =
      ⟨c.answeredOutcomes server template q items, []⟩ := by
  have hmirrors : (aliasesOf c.naming items).Mirrors :=
    (mirrors_of_compose (compose_of_accepts hq h)).1
  show BatchResult.split (aliasesOf c.naming items) _ _ _ = _
  rw [BatchResult.split_eq hmirrors]
  simp only [BatchResult.mk.injEq]
  constructor
  · rw [entries_aliasesOf, List.map_map]
    refine List.map_congr_left fun p hitem => ?_
    obtain ⟨item, i⟩ := p
    have hi := List.mk_mem_zipIdx_iff_getElem?.1 hitem
    have hf : q.copy c.naming i ∈ (c.fusion template q items).operation.fields :=
      mem_fields_fusion.2 ⟨i, (List.getElem?_eq_some_iff.1 hi).1, rfl⟩
    have hdata := ha.data _ hf
    have herrors := ha.errors _ hf
    rw [Field.responseKey_copy, question_fusion hq h hi] at hdata herrors
    simp only [Function.comp_apply, hdata, herrors, Outcome.ofParts_answer]
  · refine List.filter_eq_nil_iff.2 fun e he => ?_
    obtain ⟨f, hf, hroot⟩ := ha.rooted e he
    obtain ⟨i, hi, rfl⟩ := mem_fields_fusion.1 hf
    rw [Field.responseKey_copy] at hroot
    have hmem : c.naming.aliasOf i ∈ (aliasesOf c.naming items).aliases := by
      rw [aliases_aliasesOf]
      exact List.mem_map_of_mem (List.mem_range.2 hi)
    simp [BatchResult.isOwned, hroot, hmem]

/-! ## What an item gets by its identity -/

theorem ids_answeredOutcomes (server : Server) :
    (c.answeredOutcomes server template q items).map (·.1) = items.map (·.id) := by
  rw [answeredOutcomes, List.map_map]
  show items.zipIdx.map ((·.id) ∘ Prod.fst) = _
  rw [← List.map_map, List.zipIdx_map_fst]

variable [DecidableEq κ]

theorem outcome?_answered (server : Server) (h : (items.map (·.id)).Nodup) {i : Nat}
    {item : BatchItem κ} (hi : items[i]? = some item) :
    (⟨c.answeredOutcomes server template q items, []⟩ : BatchResult κ).outcome? item.id =
      some (.ofAnswer c.config.missingDataMessage (c.naming.aliasOf i)
        (server (template.question item.values q))) := by
  have hids : (c.answeredOutcomes server template q items).map (·.1) = items.map (·.id) :=
    ids_answeredOutcomes server
  rw [← hids] at h
  refine Option.map_eq_some_iff.2 ⟨(item.id, _), ?_, rfl⟩
  refine (find?_key_eq_some_iff (fun _ => decide_eq_true_iff) h).2 ⟨?_, rfl⟩
  exact List.mem_map.2 ⟨(item, i), List.mk_mem_zipIdx_iff_getElem?.2 hi, rfl⟩

theorem outcome?_of_stranger (server : Server) {id : κ} (h : id ∉ items.map (·.id)) :
    (⟨c.answeredOutcomes server template q items, []⟩ : BatchResult κ).outcome? id = none := by
  have hids : (c.answeredOutcomes server template q items).map (·.1) = items.map (·.id) :=
    ids_answeredOutcomes server
  rw [← hids] at h
  rw [BatchResult.outcome?, Option.map_eq_none_iff, List.find?_eq_none]
  intro o ho
  simpa using fun heq : o.1 = id => h (heq ▸ List.mem_map_of_mem ho)

/-- Two batches of the same items give each of them the same outcome, at an alias of its own. -/
theorem outcome?_perm (server : Server) {items' : List (BatchItem κ)} (hperm : items.Perm items')
    (h : (items.map (·.id)).Nodup) (id : κ) :
    ((⟨c.answeredOutcomes server template q items', []⟩ : BatchResult κ).outcome? id).map
        Outcome.below =
      ((⟨c.answeredOutcomes server template q items, []⟩ : BatchResult κ).outcome? id).map
        Outcome.below := by
  have h' : (items'.map (·.id)).Nodup := (hperm.map _).nodup_iff.1 h
  by_cases hid : id ∈ items.map (·.id)
  · obtain ⟨item, hitem, rfl⟩ := List.mem_map.1 hid
    obtain ⟨i, hi⟩ := List.getElem?_of_mem hitem
    obtain ⟨j, hj⟩ := List.getElem?_of_mem (hperm.mem_iff.1 hitem)
    rw [outcome?_answered server h hi, outcome?_answered server h' hj, Option.map_some,
      Option.map_some, Outcome.below_ofAnswer]
  · have hid' : id ∉ items'.map (·.id) := fun hmem => hid ((hperm.map _).mem_iff.2 hmem)
    rw [outcome?_of_stranger server hid, outcome?_of_stranger server hid']

omit [DecidableEq κ] in
theorem Accepts.perm {items' : List (BatchItem κ)} (h : c.Accepts template items)
    (hperm : items.Perm items') : c.Accepts template items' where
  nonempty hnil := h.nonempty (List.perm_nil.1 (hnil ▸ hperm))
  withinLimit := hperm.length_eq ▸ h.withinLimit
  singleField := h.singleField
  closed := h.closed
  distinct := {
    aliases := hperm.length_eq ▸ h.distinct.aliases
    ids := (hperm.map _).nodup_iff.1 h.distinct.ids
    names := hperm.length_eq ▸ h.distinct.names
    keys := fun item hitem => h.distinct.keys item (hperm.mem_iff.2 hitem) }

/-- When a server answers a composite, each item gets the answer to what the template asks with the
values of that item alone, and no error is left over. Any other order of the items is composed,
too, and each item gets the same from it. -/
theorem split_of_answers {server : Server} {r : Composite κ} {response : Response}
    (hc : c.compose template items = .ok r) (ha : Answers server r response) :
    ∃ q, template.fields = [q] ∧
      c.split r response = ⟨c.answeredOutcomes server template q items, []⟩ ∧
      (∀ i item, items[i]? = some item → (c.split r response).outcome? item.id =
        some (.ofAnswer c.config.missingDataMessage (c.naming.aliasOf i)
          (server (template.question item.values q)))) ∧
      ∀ items', items.Perm items' → ∃ r', c.compose template items' = .ok r' ∧
        ∀ response', Answers server r' response' → ∀ id,
          ((c.split r' response').outcome? id).map Outcome.below =
            ((c.split r response).outcome? id).map Outcome.below := by
  obtain ⟨hacc, q, hq, rfl⟩ := compose_eq_ok_iff.1 hc
  rw [split_fusion hq hacc ha]
  refine ⟨q, hq, rfl, fun i item => outcome?_answered server hacc.distinct.ids, ?_⟩
  intro items' hperm
  have hacc' := hacc.perm hperm
  refine ⟨_, compose_of_accepts hq hacc', fun response' ha' id => ?_⟩
  rw [split_fusion hq hacc' ha']
  exact outcome?_perm server hperm hacc.distinct.ids id

/-- A server that does not know fans. -/
def alarms : Server := fun question =>
  match question.arguments with
  | [(_, .list (.bound (.supplied (.string device)) :: _))] =>
    if device = "fan" then ⟨.null, [.plain "no such device" [.key "id"]]⟩
    else ⟨.string device, []⟩
  | _ => ⟨.null, []⟩

theorem split_of_answers_twoAlerts :
    ∃ r, (⟨.standard, swapping⟩ : Composer).compose raiseAlert twoAlerts = .ok r ∧
      Answers alarms r (alarms.respond r) ∧
      ((⟨.standard, swapping⟩ : Composer).split r (alarms.respond r)).outcome? 7 =
        some (.success (.string "disk")) ∧
      ((⟨.standard, swapping⟩ : Composer).split r (alarms.respond r)).outcome? 3 =
        some (.failure [.plain "no such device" [.key "a1", .key "id"]]) := by
  have hc := compose_of_accepts rfl accepts_twoAlerts
  have ha := answers_respond alarms (fuses_fusion rfl accepts_twoAlerts).nodup_responseKeys
  obtain ⟨q, hq, -, hitem, -⟩ := split_of_answers hc ha
  obtain rfl := List.head_eq_of_cons_eq hq
  exact ⟨_, hc, ha, hitem 0 _ rfl, hitem 1 _ rfl⟩

end Composer

end QueryBatch
