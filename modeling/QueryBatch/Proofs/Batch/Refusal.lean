import QueryBatch.Proofs.Batch.Copies
import QueryBatch.Proofs.Screening

/-!
# Why items are refused

The items of a batch are gone through in their order, and the first one with which something is
wrong is refused. Main statements:

* `nameVariables_of_faultFree`, `nameVariables_of_firstFault`: variables are named up to the first
  one whose new name is taken;
* `refused_or_accepted`: some error applies to an item, or it is accepted;
* `faultFree_refused_iff`: no item is refused exactly if all aliases, identities and new names
  differ, and only declared variables have values.
-/

namespace QueryBatch

variable {κ : Type}

/-! ## Names and values of one item -/

/-- The new name of a variable has been given before, to one of the variables in front of it or as
one of the names in `given`. -/
def NameTaken (newName : String → String) (given before : List String) (name : String) : Prop :=
  newName name ∈ given ++ before.map newName

/-- The renaming of some variables. -/
def renamingOf (newName : String → String) (names : List String) : Renaming :=
  Dict.ofList (names.map fun name => (name, newName name))

section Names

variable {newName : String → String} {given names : List String}

theorem faultFree_nameTaken_iff (h : given.Nodup) :
    FaultFree (NameTaken newName given) names ↔ (given ++ names.map newName).Nodup := by
  induction names using List.reverseRecOn with
  | nil => simpa [h] using FaultFree.nil
  | append_singleton names name ih =>
    rw [faultFree_concat_iff, ih, List.map_append, ← List.append_assoc, List.map_singleton,
      ← List.concat_eq_append, List.nodup_concat, NameTaken, and_comm]

theorem addsFaultless_nameVariable (newName : String → String) (given : List String) :
    AddsFaultless (NameTaken newName given) (Progress.nameVariable newName)
      (fun names => (renamingOf newName names, given ++ names.map newName)) := by
  intro done name _ hfresh
  rw [NameTaken, ← List.contains_iff_mem, Bool.not_eq_true] at hfresh
  simp only [Progress.nameVariable, hfresh, renamingOf, List.map_append, List.map_singleton,
    Dict.ofList_concat, List.append_assoc]
  rfl

theorem nameVariables_of_faultFree (h : FaultFree (NameTaken newName given) names) :
    Progress.nameVariables newName given names =
      .ok (renamingOf newName names, given ++ names.map newName) := by
  have hfold := foldlM_of_faultFree (addsFaultless_nameVariable newName given) h
  rwa [List.map_nil, List.append_nil] at hfold

theorem nameVariables_of_firstFault {before : List String} {name : String}
    (h : FirstFault (NameTaken newName given) before name names) :
    Progress.nameVariables newName given names = .error (.declared (newName name)) := by
  have hstep : Progress.nameVariable newName (renamingOf newName before,
      given ++ before.map newName) name = .error (.declared (newName name)) := by
    simp only [Progress.nameVariable, List.contains_iff_mem.2 h.fault, if_true]
  have hfold := foldlM_of_firstFault (addsFaultless_nameVariable newName given) h hstep
  rwa [List.map_nil, List.append_nil] at hfold

theorem addsFaultless_routeValue (newName : String → String) (names : List String)
    (routed : List (String × Json)) :
    AddsFaultless (fun _ e => e.1 ∉ names) (Progress.routeValue (renamingOf newName names))
      (fun es => Dict.ofList (routed ++ es.map fun e => (newName e.1, e.2))) := by
  intro done e _ hdeclared
  simp only [Progress.routeValue, renamingOf, Dict.find?_ofList_map,
    if_pos (Decidable.not_not.1 hdeclared), List.map_append, List.map_singleton,
    ← List.append_assoc, Dict.ofList_concat]

theorem routeValue_of_undeclared {values : Dict Json} {e : String × Json} (h : e.1 ∉ names) :
    Progress.routeValue (renamingOf newName names) values e = .error (.unknownVariable e.1) := by
  simp only [Progress.routeValue, renamingOf, Dict.find?_ofList_map, if_neg h]

end Names

/-! ## Why an item is refused -/

section Items

variable (naming : Naming) (template : Operation)

/-- The alias of the next item is that of an item before it. -/
def AliasTaken (done : List (BatchItem κ)) : Prop :=
  naming.aliasOf done.length ∈ (List.range done.length).map naming.aliasOf

/-- The new name of a variable of the next item is taken, by an item before it or by a declaration
in front of that variable's. -/
abbrev VariableTaken (done : List (BatchItem κ)) : List String → String → Prop :=
  NameTaken (naming.variableOf done.length) (template.copiedNames naming done.length)

/-- A name under which an item supplies a value, although the template does not declare it; no
such name is less. -/
structure LeastUnknown (item : BatchItem κ) (name : String) : Prop where
  supplied : name ∈ item.values.keys
  undeclared : name ∉ template.variableNames
  least : ∀ other ∈ item.values.keys, other ∉ template.variableNames → name ≤ other

/-- The error with which an item is refused after other items: the first cause that applies. -/
inductive Refusal (done : List (BatchItem κ)) (item : BatchItem κ) : BatchError → Prop
  | responseKey (halias : AliasTaken naming done) :
    Refusal done item (.collision (.responseKey (naming.aliasOf done.length)))
  | duplicateItem (halias : ¬ AliasTaken naming done) (hid : item.id ∈ done.map (·.id)) :
    Refusal done item (.duplicateItem (naming.aliasOf done.length))
  | declared {before : List String} {name : String} (halias : ¬ AliasTaken naming done)
    (hid : item.id ∉ done.map (·.id))
    (hname : FirstFault (VariableTaken naming template done) before name template.variableNames) :
    Refusal done item (.collision (.declared (naming.variableOf done.length name)))
  | unknownVariable {name : String} (halias : ¬ AliasTaken naming done)
    (hid : item.id ∉ done.map (·.id))
    (hnames : FaultFree (VariableTaken naming template done) template.variableNames)
    (hkey : LeastUnknown template item name) :
    Refusal done item (.unknownVariable name)

/-- Some error applies to an item after other items. -/
def Refused (done : List (BatchItem κ)) (item : BatchItem κ) : Prop :=
  ∃ e, Refusal naming template done item e

/-- No error applies to an item after other items. -/
structure Accepted (done : List (BatchItem κ)) (item : BatchItem κ) : Prop where
  aliasNew : ¬ AliasTaken naming done
  idNew : item.id ∉ done.map (·.id)
  namesNew : FaultFree (VariableTaken naming template done) template.variableNames
  keysDeclared : ∀ name ∈ item.values.keys, name ∈ template.variableNames

variable {naming template} {done : List (BatchItem κ)} {item : BatchItem κ}

/-- Entries are ascending, so the first one that is not declared has the least such name. -/
theorem leastUnknown_of_firstFault {before : List (String × Json)} {e : String × Json}
    (h : FirstFault (fun _ e => e.1 ∉ template.variableNames) before e item.values.entries) :
    LeastUnknown template item e.1 := by
  obtain ⟨after, hsplit⟩ := h.split
  have hascending := item.values.ascending
  rw [hsplit] at hascending
  refine ⟨?_, h.fault, ?_⟩
  · rw [Dict.keys, hsplit]
    simp
  · intro other hother hundeclared
    rw [Dict.keys, hsplit, List.map_append, List.mem_append, List.map_cons, List.mem_cons] at hother
    rcases hother with hother | rfl | hother
    · obtain ⟨o, ho, rfl⟩ := List.mem_map.1 hother
      exact absurd hundeclared (faultFree_iff_forall.1 h.faultFree o ho)
    · exact String.le_refl _
    · obtain ⟨o, ho, rfl⟩ := List.mem_map.1 hother
      have hlt := (List.pairwise_cons.1 (List.pairwise_append.1 hascending).2.1).1 o ho
      exact String.not_lt.1 (String.lt_asymm hlt)

theorem keysDeclared_of_faultFree
    (h : FaultFree (fun _ e => e.1 ∉ template.variableNames) item.values.entries) :
    ∀ name ∈ item.values.keys, name ∈ template.variableNames := by
  intro name hname
  obtain ⟨e, he, rfl⟩ := List.mem_map.1 hname
  exact Decidable.not_not.1 (faultFree_iff_forall.1 h e he)

theorem LeastUnknown.unique {m n : String} (hm : LeastUnknown template item m)
    (hn : LeastUnknown template item n) : m = n :=
  String.le_antisymm (hm.least n hn.supplied hn.undeclared) (hn.least m hm.supplied hm.undeclared)

theorem refused_or_accepted (done : List (BatchItem κ)) (item : BatchItem κ) :
    Refused naming template done item ∨ Accepted naming template done item := by
  by_cases halias : AliasTaken naming done
  · exact .inl ⟨_, .responseKey halias⟩
  by_cases hid : item.id ∈ done.map (·.id)
  · exact .inl ⟨_, .duplicateItem halias hid⟩
  rcases faultFree_or_firstFault (VariableTaken naming template done) template.variableNames with
    hnames | ⟨before, name, hname⟩
  · rcases faultFree_or_firstFault (fun _ e => e.1 ∉ template.variableNames)
      item.values.entries with hkeys | ⟨before, e, hkey⟩
    · exact .inr ⟨halias, hid, hnames, keysDeclared_of_faultFree hkeys⟩
    · exact .inl ⟨_, .unknownVariable halias hid hnames (leastUnknown_of_firstFault hkey)⟩
  · exact .inl ⟨_, .declared halias hid hname⟩

theorem Accepted.not_refused (h : Accepted naming template done item) :
    ¬ Refused naming template done item := by
  rintro ⟨e, hr⟩
  cases hr with
  | responseKey halias => exact h.aliasNew halias
  | duplicateItem _ hid => exact h.idNew hid
  | declared _ _ hname => exact hname.not_faultFree h.namesNew
  | unknownVariable _ _ _ hkey => exact hkey.undeclared (h.keysDeclared _ hkey.supplied)

theorem not_refused_iff :
    ¬ Refused naming template done item ↔ Accepted naming template done item :=
  ⟨(refused_or_accepted done item).resolve_left, Accepted.not_refused⟩

/-! ## Items of which none is refused -/

/-- All aliases, identities and new names of some items differ, and they supply values for declared
variables only. -/
structure Distinct (naming : Naming) (template : Operation) (items : List (BatchItem κ)) :
    Prop where
  aliases : ((List.range items.length).map naming.aliasOf).Nodup
  ids : (items.map (·.id)).Nodup
  names : (template.copiedNames naming items.length).Nodup
  keys : ∀ item ∈ items, ∀ name ∈ item.values.keys, name ∈ template.variableNames

theorem distinct_concat_iff :
    Distinct naming template (done ++ [item]) ↔
      Distinct naming template done ∧ Accepted naming template done item := by
  have hnames : (template.copiedNames naming (done.length + 1)).Nodup ↔
      (template.copiedNames naming done.length).Nodup ∧
        FaultFree (VariableTaken naming template done) template.variableNames := by
    rw [Operation.copiedNames_succ]
    constructor
    · intro h
      have hold := (List.nodup_append.1 h).1
      exact ⟨hold, (faultFree_nameTaken_iff hold).2 h⟩
    · rintro ⟨hold, hnew⟩
      exact (faultFree_nameTaken_iff hold).1 hnew
  have haliases : ((List.range (done.length + 1)).map naming.aliasOf).Nodup ↔
      ((List.range done.length).map naming.aliasOf).Nodup ∧ ¬ AliasTaken naming done := by
    rw [List.range_succ, List.map_append, List.map_singleton, ← List.concat_eq_append,
      List.nodup_concat, and_comm, AliasTaken]
  have hids : ((done ++ [item]).map (·.id)).Nodup ↔
      (done.map (·.id)).Nodup ∧ item.id ∉ done.map (·.id) := by
    rw [List.map_append, List.map_singleton, ← List.concat_eq_append, List.nodup_concat, and_comm]
  constructor
  · intro h
    have h₁ := h.aliases
    have h₂ := h.names
    rw [List.length_append, List.length_singleton] at h₁ h₂
    obtain ⟨ha, ha'⟩ := haliases.1 h₁
    obtain ⟨hn, hn'⟩ := hnames.1 h₂
    obtain ⟨hi, hi'⟩ := hids.1 h.ids
    exact ⟨⟨ha, hi, hn, fun i hmem => h.keys i (List.mem_append_left _ hmem)⟩,
      ⟨ha', hi', hn', h.keys item (by simp)⟩⟩
  · rintro ⟨hd, hacc⟩
    refine ⟨?_, hids.2 ⟨hd.ids, hacc.idNew⟩, ?_, fun i hmem => ?_⟩
    · rw [List.length_append, List.length_singleton]
      exact haliases.2 ⟨hd.aliases, hacc.aliasNew⟩
    · rw [List.length_append, List.length_singleton]
      exact hnames.2 ⟨hd.names, hacc.namesNew⟩
    · rcases List.mem_append.1 hmem with hmem | hmem
      · exact hd.keys i hmem
      · obtain rfl := List.mem_singleton.1 hmem
        exact hacc.keysDeclared

theorem faultFree_refused_iff {items : List (BatchItem κ)} :
    FaultFree (Refused naming template) items ↔ Distinct naming template items := by
  induction items using List.reverseRecOn with
  | nil => exact ⟨fun _ => ⟨.nil, .nil, .nil, by simp⟩, fun _ => .nil⟩
  | append_singleton items item ih =>
    rw [faultFree_concat_iff, ih, not_refused_iff, distinct_concat_iff]

end Items

end QueryBatch
