import Mathlib.Data.List.Induction
import QueryBatch.Proofs.Operation.Merging
import QueryBatch.Proofs.Screening

/-!
# Merging many operations

Operations are merged from left to right, up to the first one that does not go together with one
before it. Main statements:

* `Operation.compatible_joined_iff`: another operation goes together with what has been merged
  exactly if it does so with each part;
* `Operation.faultFree_conflicting_iff`: no operation conflicts with one before it exactly if any
  two of them go together;
* `Operation.exists_conflict_iff`: there is a cause to refuse an operation exactly if it conflicts
  with one before it;
* `Operation.mergeAll_exactly`: which operations are merged and into what, and with which error the
  others are refused.
-/

namespace QueryBatch.Operation

variable {first op : Operation} {rest earlier ops : List Operation} {e : BatchError}

/-! ## What has been merged -/

/-- One of some operations declares a variable. -/
def DeclaredIn (ops : List Operation) (name : String) : Prop := ∃ a ∈ ops, name ∈ a.variableNames

/-- One of some operations selects a field under a response key. -/
def SelectedIn (ops : List Operation) (key : String) : Prop := ∃ a ∈ ops, key ∈ a.responseKeys

/-- The variables and the fields of some operations, one behind the other, under the kind and the
name of the first operation. -/
def joined (first : Operation) (rest : List Operation) : Operation where
  kind := first.kind
  name := first.name
  definitions := (first :: rest).flatMap (·.definitions)
  fields := (first :: rest).flatMap (·.fields)

/-- What is merged of some operations, if there are any. -/
def joined? : List Operation → Option Operation
  | [] => none
  | first :: rest => some (joined first rest)

theorem joined_nil (op : Operation) : joined op [] = op := by
  simp only [joined, List.flatMap_singleton]

theorem append_joined (first : Operation) (rest : List Operation) (op : Operation) :
    (joined first rest).append op = joined first (rest ++ [op]) := by
  simp only [joined, append, ← List.cons_append, List.flatMap_append, List.flatMap_singleton]

theorem mem_variableNames_joined {name : String} :
    name ∈ (joined first rest).variableNames ↔ DeclaredIn (first :: rest) name := by
  simp only [DeclaredIn, variableNames, joined, List.map_flatMap, List.mem_flatMap]

theorem mem_responseKeys_joined {key : String} :
    key ∈ (joined first rest).responseKeys ↔ SelectedIn (first :: rest) key := by
  simp only [SelectedIn, responseKeys, joined, List.map_flatMap, List.mem_flatMap]

/-- What has been merged of operations of one kind goes together with another operation exactly if
each of them does. -/
theorem compatible_joined_iff (h : ∀ a ∈ rest, first.kind = a.kind) :
    (joined first rest).Compatible op ↔ ∀ a ∈ first :: rest, a.Compatible op := by
  have hkinds : ∀ a ∈ first :: rest, first.kind = a.kind := List.forall_mem_cons.2 ⟨rfl, h⟩
  constructor
  · rintro ⟨hkind, hvariables, hkeys⟩ a ha
    exact ⟨(hkinds a ha).symm.trans hkind,
      fun name hname => hvariables (mem_variableNames_joined.2 ⟨a, ha, hname⟩),
      fun key hkey => hkeys (mem_responseKeys_joined.2 ⟨a, ha, hkey⟩)⟩
  · intro hall
    refine ⟨(hall first List.mem_cons_self).kind, fun name hname => ?_, fun key hkey => ?_⟩
    · obtain ⟨a, ha, hname⟩ := mem_variableNames_joined.1 hname
      exact (hall a ha).variableNames hname
    · obtain ⟨a, ha, hkey⟩ := mem_responseKeys_joined.1 hkey
      exact (hall a ha).responseKeys hkey

/-! ## Conflicts with earlier operations -/

/-- An operation does not go together with one of those before it. -/
def Conflicting (earlier : List Operation) (op : Operation) : Prop :=
  ∃ a ∈ earlier, ¬ a.Compatible op

/-- The error with which an operation is refused after others: its kind, or else its first variable
that one of them declares, or else its first response key that one of them selects. -/
inductive Conflict (first : Operation) (rest : List Operation) (op : Operation) : BatchError → Prop
  | kinds (hkind : first.kind ≠ op.kind) :
    Conflict first rest op (.shape (.kinds first.kind op.kind))
  | declared {before : List String} {name : String} (hkind : first.kind = op.kind)
    (hname : FirstFault (fun _ => DeclaredIn (first :: rest)) before name op.variableNames) :
    Conflict first rest op (.collision (.declared name))
  | responseKey {before : List String} {key : String} (hkind : first.kind = op.kind)
    (hnames : ∀ name ∈ op.variableNames, ¬ DeclaredIn (first :: rest) name)
    (hkey : FirstFault (fun _ => SelectedIn (first :: rest)) before key op.responseKeys) :
    Conflict first rest op (.collision (.responseKey key))

/-- No operation conflicts with one before it exactly if any two of them go together. -/
theorem faultFree_conflicting_iff : FaultFree Conflicting ops ↔ ops.Pairwise Compatible := by
  induction ops using List.reverseRecOn with
  | nil => exact ⟨fun _ => .nil, fun _ => .nil⟩
  | append_singleton ops op ih =>
    have hop : ¬ Conflicting ops op ↔ ∀ a ∈ ops, a.Compatible op := by
      simp only [Conflicting, not_exists, not_and, not_not]
    rw [faultFree_concat_iff, ih, hop, List.pairwise_append]
    simp only [List.pairwise_singleton, List.mem_singleton, forall_eq, true_and]

/-- Operations of which any two go together are of one kind. -/
theorem kind_eq_of_pairwise (h : (first :: rest).Pairwise Compatible) :
    ∀ a ∈ rest, first.kind = a.kind :=
  fun a ha => ((List.pairwise_cons.1 h).1 a ha).kind

theorem Conflict.conflicting (h : Conflict first rest op e) : Conflicting (first :: rest) op := by
  cases h with
  | kinds hkind => exact ⟨first, List.mem_cons_self, fun hab => hkind hab.kind⟩
  | declared _ hname =>
    obtain ⟨a, ha, hdeclared⟩ := hname.fault
    exact ⟨a, ha, fun hab => hab.variableNames hdeclared hname.mem⟩
  | responseKey _ _ hkey =>
    obtain ⟨a, ha, hselected⟩ := hkey.fault
    exact ⟨a, ha, fun hab => hab.responseKeys hselected hkey.mem⟩

theorem conflict_or_compatible (h : ∀ a ∈ rest, first.kind = a.kind) (op : Operation) :
    (∃ e, Conflict first rest op e) ∨ ∀ a ∈ first :: rest, a.Compatible op := by
  by_cases hkind : first.kind = op.kind
  case neg => exact .inl ⟨_, .kinds hkind⟩
  rcases faultFree_or_firstFault (fun _ => DeclaredIn (first :: rest)) op.variableNames with
    hnames | ⟨before, name, hname⟩
  case inr => exact .inl ⟨_, .declared hkind hname⟩
  have hnames := faultFree_iff_forall.1 hnames
  rcases faultFree_or_firstFault (fun _ => SelectedIn (first :: rest)) op.responseKeys with
    hkeys | ⟨before, key, hkey⟩
  case inr => exact .inl ⟨_, .responseKey hkind hnames hkey⟩
  have hkeys := faultFree_iff_forall.1 hkeys
  refine .inr ((compatible_joined_iff h).1
    ⟨hkind, fun name hname hop => ?_, fun key hkey hop => ?_⟩)
  · exact hnames name hop (mem_variableNames_joined.1 hname)
  · exact hkeys key hop (mem_responseKeys_joined.1 hkey)

/-- There is a cause to refuse an operation exactly if it conflicts with one before it. -/
theorem exists_conflict_iff (h : ∀ a ∈ rest, first.kind = a.kind) :
    (∃ e, Conflict first rest op e) ↔ Conflicting (first :: rest) op := by
  constructor
  · rintro ⟨e, he⟩
    exact he.conflicting
  · rintro ⟨a, ha, hnot⟩
    exact (conflict_or_compatible h op).resolve_right fun hall => hnot (hall a ha)

/-! ## One operation after the other -/

theorem merge_of_overlap {a b : Operation} {c : Collision} (hkind : a.kind = b.kind)
    (h : overlap? a b = some c) : merge a b = .error (.collision c) := by
  rw [merge, if_neg (not_not_intro hkind), h]

theorem merge_of_conflict (h : Conflict first rest op e) :
    merge (joined first rest) op = .error e := by
  have hdeclared : ∀ name, (joined first rest).variableNames.contains name = true ↔
      DeclaredIn (first :: rest) name :=
    fun name => List.contains_iff_mem.trans mem_variableNames_joined
  have hselected : ∀ key, (joined first rest).responseKeys.contains key = true ↔
      SelectedIn (first :: rest) key :=
    fun key => List.contains_iff_mem.trans mem_responseKeys_joined
  cases h with
  | kinds hkind => exact if_pos hkind
  | declared hkind hname =>
    have hfind : op.variableNames.find? ((joined first rest).variableNames.contains ·) = some _ :=
      find?_of_firstFault hdeclared hname
    exact merge_of_overlap hkind (by rw [overlap?, hfind])
  | responseKey hkind hnames hkey =>
    have hnone : op.variableNames.find? ((joined first rest).variableNames.contains ·) = none :=
      List.find?_eq_none.2 fun name hname => (hdeclared name).not.2 (hnames name hname)
    have hfind : op.responseKeys.find? ((joined first rest).responseKeys.contains ·) = some _ :=
      find?_of_firstFault hselected hkey
    refine merge_of_overlap hkind ?_
    rw [overlap?, hnone, hfind]
    rfl

/-- The next operation is merged onto those before it if it conflicts with none. -/
theorem addsFaultless_mergeOnto :
    AddsFaultless Conflicting (fun merged op => some <$> mergeOnto merged op) joined? := by
  intro done op hfree hop
  cases done with
  | nil => exact congrArg (Except.ok ∘ some) (joined_nil op).symm
  | cons first rest =>
    have hkinds := kind_eq_of_pairwise (faultFree_conflicting_iff.1 hfree)
    have hall : ∀ a ∈ first :: rest, a.Compatible op := by
      simpa only [Conflicting, not_exists, not_and, not_not] using hop
    have hmerge : merge (joined first rest) op = .ok (joined first (rest ++ [op])) :=
      merge_eq_ok_iff_compatible.2 ⟨(compatible_joined_iff hkinds).2 hall, (append_joined ..).symm⟩
    show some <$> merge (joined first rest) op = _
    rw [hmerge]
    rfl

theorem mergeAll_of_pairwise (h : ops.Pairwise Compatible) : mergeAll ops = .ok (joined? ops) :=
  foldlM_of_faultFree addsFaultless_mergeOnto (faultFree_conflicting_iff.2 h)

theorem mergeAll_of_conflict (hop : FirstFault Conflicting (first :: rest) op ops)
    (h : Conflict first rest op e) : mergeAll ops = .error e := by
  refine foldlM_of_firstFault addsFaultless_mergeOnto hop ?_
  show some <$> merge (joined first rest) op = _
  rw [merge_of_conflict h]
  rfl

/-- Any two of some operations go together, or there is a first one that is refused. -/
theorem pairwise_or_conflict (ops : List Operation) :
    ops.Pairwise Compatible ∨ ∃ first rest op e,
      FirstFault Conflicting (first :: rest) op ops ∧ Conflict first rest op e := by
  rcases faultFree_or_firstFault Conflicting ops with hfree | ⟨done, op, hop⟩
  · exact .inl (faultFree_conflicting_iff.1 hfree)
  · cases done with
    | nil =>
      obtain ⟨a, ha, -⟩ := hop.fault
      cases ha
    | cons first rest =>
      have hkinds := kind_eq_of_pairwise (faultFree_conflicting_iff.1 hop.faultFree)
      obtain ⟨e, he⟩ := (exists_conflict_iff hkinds).2 hop.fault
      exact .inr ⟨first, rest, op, e, hop, he⟩

/-- Operations are merged exactly if any two of them go together: into the variables and fields of
all, under the kind and the name of the first. Otherwise the first operation that conflicts with
one before it is refused, for the first cause that applies. -/
theorem mergeAll_exactly (ops : List Operation) :
    (∀ result, mergeAll ops = .ok result ↔ ops.Pairwise Compatible ∧ result = joined? ops) ∧
    ∀ e, mergeAll ops = .error e ↔ ∃ first rest op,
      FirstFault Conflicting (first :: rest) op ops ∧ Conflict first rest op e := by
  rcases pairwise_or_conflict ops with hall | ⟨first, rest, op, e, hop, he⟩
  · rw [mergeAll_of_pairwise hall]
    refine ⟨fun result => ?_, fun e => ⟨nofun, ?_⟩⟩
    · rw [and_iff_right hall, Except.ok.injEq, eq_comm]
    · rintro ⟨first, rest, op, hop, -⟩
      exact absurd (faultFree_conflicting_iff.2 hall) hop.not_faultFree
  · have hmerge := mergeAll_of_conflict hop he
    refine ⟨fun result => ⟨?_, ?_⟩, fun e' => ⟨?_, ?_⟩⟩
    · rw [hmerge]
      exact nofun
    · rintro ⟨hall, -⟩
      exact absurd (faultFree_conflicting_iff.2 hall) hop.not_faultFree
    · rw [hmerge]
      rintro ⟨⟩
      exact ⟨first, rest, op, hop, he⟩
    · rintro ⟨first', rest', op', hop', he'⟩
      exact mergeAll_of_conflict hop' he'

end QueryBatch.Operation
