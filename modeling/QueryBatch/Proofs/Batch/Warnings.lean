import QueryBatch.Proofs.Batch.Composition
import QueryBatch.Proofs.Document.Warnings

/-!
# Warnings and composing

A template with undeclared variables cannot be composed, and reading its source has warned about
each of them. Main statements:

* `Composer.compose_eq_templateUndeclared_iff`: which undeclared variable composing fails for;
* `Composer.refuses_as_warned`: it is the first one that reading has warned about.
-/

namespace QueryBatch

namespace Composer

variable {κ : Type} [DecidableEq κ] {c : Composer} {op : Operation} {items : List (BatchItem κ)}

theorem compose_eq_templateUndeclared_iff (hfields : op.fields.length = 1) (hne : items ≠ [])
    (hlen : items.length ≤ c.config.maxBatchSize.toNat) {name : String} :
    c.compose op items = .error (.shape (.templateUndeclared name)) ↔
      op.undeclared.head? = some name := by
  have hfind {before : List String} {name : String}
      (h : FirstFault (fun _ name => name ∉ op.variableNames) before name op.references) :
      op.undeclared.head? = some name := by
    rw [Operation.head?_undeclared]
    exact find?_of_firstFault (fun other => by simp [Bool.eq_false_iff, Operation.declares_iff]) h
  constructor
  · intro h
    cases compose_eq_error_iff.1 h with
    | templateUndeclared _ _ _ hname => exact hfind hname
    | refusal _ _ _ _ _ herror => cases herror
  · intro h
    rcases faultFree_or_firstFault (fun _ name => name ∉ op.variableNames) op.references with
      hclosed | ⟨before, other, hother⟩
    · obtain ⟨href, hundeclared⟩ := Operation.mem_undeclared.1 (List.mem_of_head? h)
      exact absurd hundeclared (faultFree_iff_forall.1 hclosed name href)
    · obtain rfl : other = name := Option.some.inj ((hfind hother).symm.trans h)
      exact compose_of_violation (.templateUndeclared hne hlen hfields hother)

/-- Reading a source warns about the undeclared variables of its operations, operation by
operation and each in the order of its first references. Composing a batch for one of these
operations fails for an undeclared variable exactly if there is one, and names the first. Where the
places of the source fit into 32 bits, its tokens are those of the scanner of bytes. -/
theorem refuses_as_warned (source : String) :
    ((Document.diagnostics source).toList.filter (·.code == "W0001")).map Diagnostic.wording =
        ((Document.ofSource source).value.operations.flatMap Operation.undeclared).map
          undeclaredWording ∧
      ∀ op ∈ (Document.ofSource source).value.operations,
        (∀ names, op.ListsUndeclared names ↔ names = op.undeclared) ∧
        ∀ (κ : Type) [DecidableEq κ] (c : Composer) (items : List (BatchItem κ)),
          op.fields.length = 1 → items ≠ [] → items.length ≤ c.config.maxBatchSize.toNat →
            ((∃ name, c.compose op items = .error (.shape (.templateUndeclared name))) ↔
              op.undeclared ≠ []) ∧
            ∀ name, c.compose op items = .error (.shape (.templateUndeclared name)) ↔
              op.undeclared.head? = some name := by
  refine ⟨Document.wordings_undeclared source, fun op _ => ⟨fun _ => Operation.listsUndeclared_iff,
    fun κ _ c items hfields hne hlen => ?_⟩⟩
  have hfirst (name : String) :
      c.compose op items = .error (.shape (.templateUndeclared name)) ↔
        op.undeclared.head? = some name :=
    compose_eq_templateUndeclared_iff hfields hne hlen
  refine ⟨?_, hfirst⟩
  simp only [hfirst]
  rw [← Option.isSome_iff_exists, List.isSome_head?]

/-- Two operations, the second of which declares a variable twice and uses another one in a
directive. -/
def lookUpSource : String :=
  "\x7ba(x:[$x,$y,$x])\x7dquery($y:Int,$y:Int)\x7bb(y:\x7bk:$y\x7d)@include(if:$z)\x7d"

theorem refuses_as_warned_lookUp :
    ∃ first second, (Document.ofSource lookUpSource).value.operations = [first, second] ∧
      first.undeclared = ["x", "y"] ∧ second.undeclared = ["z"] ∧
      (⟨.standard, swapping⟩ : Composer).compose first twoAlerts =
        .error (.shape (.templateUndeclared "x")) ∧
      (⟨.standard, swapping⟩ : Composer).compose second twoAlerts =
        .error (.shape (.templateUndeclared "z")) := by
  obtain ⟨-, hcompose⟩ := refuses_as_warned lookUpSource
  have hparts : (Document.ofSource lookUpSource).value.operations.map
      (fun op => (op.undeclared, op.fields.length)) = [(["x", "y"], 1), (["z"], 1)] := by
    decide +kernel
  obtain ⟨first, second, hops⟩ : ∃ first second,
      (Document.ofSource lookUpSource).value.operations = [first, second] := by
    refine List.length_eq_two.1 ?_
    simpa using congrArg List.length hparts
  rw [hops] at hcompose hparts ⊢
  simp only [List.map_cons, List.map_nil, List.cons.injEq, Prod.mk.injEq, and_true] at hparts
  obtain ⟨⟨hx, hone⟩, hz, hone'⟩ := hparts
  have hfirst := (hcompose first List.mem_cons_self).2 Nat ⟨.standard, swapping⟩ twoAlerts
  have hsecond := (hcompose second (List.mem_cons_of_mem _ List.mem_cons_self)).2 Nat
    ⟨.standard, swapping⟩ twoAlerts
  refine ⟨first, second, rfl, hx, hz, ?_, ?_⟩
  · exact ((hfirst hone (by decide) (by decide)).2 "x").2 (by rw [hx]; rfl)
  · exact ((hsecond hone' (by decide) (by decide)).2 "z").2 (by rw [hz]; rfl)

end Composer

end QueryBatch
