import QueryBatch.Proofs.Operation.Renaming

/-!
# Captured variables

A renaming is checked against the declared variables of an operation, and it acts on all variables
that occur there. So a variable that is mentioned without being declared can be captured: it keeps
its name, and another variable gets that name too. Main statements:

* `Operation.apply_eq_apply_iff`: after a renaming that is not refused, two variables have one name
  only if one of them has captured the other;
* `Operation.rename_apart_iff`: all variables are kept apart exactly if no undeclared one is
  captured.
-/

namespace QueryBatch.Operation

variable {r : Renaming} {op result : Operation}

/-- The names of the variables that occur in an operation, declared or mentioned. -/
def occurring (op : Operation) : List String := op.variableNames ++ op.references

theorem occurring_substitute (f : String → String) (op : Operation) :
    (op.substitute f).occurring = op.occurring.map f := by
  rw [occurring, variableNames_substitute, references_substitute, ← List.map_append]
  rfl

theorem mem_occurring_of_mem_undeclared {name : String} (h : name ∈ op.undeclared) :
    name ∈ op.occurring :=
  List.mem_append_right _ (mem_undeclared.1 h).1

/-- Only a variable that is not declared can be captured. -/
theorem mem_undeclared_of_captures (h : r.conflict? op = none) {source name : String}
    (hname : name ∈ op.occurring) (hcaptured : r.Captures source name) : name ∈ op.undeclared := by
  have hnot : name ∉ op.variableNames := fun hdeclared =>
    Renaming.not_captures_of_declared h hdeclared source hcaptured
  exact mem_undeclared.2 ⟨(List.mem_append.1 hname).resolve_left hnot, hnot⟩

theorem apply_eq_apply_iff (h : r.conflict? op = none) {a b : String} (ha : a ∈ op.occurring)
    (hb : b ∈ op.occurring) :
    r.apply a = r.apply b ↔ a = b ∨ (b ∈ op.undeclared ∧ r.Captures a b) ∨
      (a ∈ op.undeclared ∧ r.Captures b a) := by
  obtain ⟨hshared, -⟩ := Option.or_eq_none_iff.1 h
  rw [Renaming.apply_eq_apply_iff hshared,
    and_iff_right_of_imp (mem_undeclared_of_captures h hb),
    and_iff_right_of_imp (mem_undeclared_of_captures h ha)]

/-- A renaming that is not refused gives each variable its new name wherever it occurs. Variables
that differ then differ still, exactly if none is renamed to an undeclared one that keeps its
name. -/
theorem rename_apart_iff (h : op.rename r = .ok result) :
    result.occurring = op.occurring.map r.apply ∧
    ((∀ a ∈ op.occurring, ∀ b ∈ op.occurring, a ≠ b → r.apply a ≠ r.apply b) ↔
      ∀ a ∈ op.occurring, ∀ b ∈ op.undeclared, ¬ r.Captures a b) := by
  obtain ⟨hconflict, rfl⟩ := rename_eq_ok_iff.1 h
  refine ⟨occurring_substitute r.apply op, ?_, ?_⟩
  · intro hapart a ha b hb hcaptured
    have hoccurs := mem_occurring_of_mem_undeclared hb
    have heq := (apply_eq_apply_iff hconflict ha hoccurs).2 (.inr (.inl ⟨hb, hcaptured⟩))
    exact hapart a ha b hoccurs hcaptured.ne heq
  · intro hnone a ha b hb hne heq
    rcases (apply_eq_apply_iff hconflict ha hb).1 heq with heq | ⟨hu, hc⟩ | ⟨hu, hc⟩
    · exact hne heq
    · exact hnone a ha b hu hc
    · exact hnone b hb a hu hc

/-- One variable is declared, and another one is mentioned beside it. -/
def halfDeclared : Operation where
  kind := .query
  name := none
  definitions := [⟨"a", .named "Int", none⟩]
  fields := [⟨none, "f", [⟨"x", .var "a"⟩, ⟨"y", .var "b"⟩], [], none⟩]

/-- Each of two variables gets the name of the other one. -/
def exchange : Renaming := .ofList [("a", "b"), ("b", "a")]

/-- An exchange of names keeps the variables apart, although one of them is not declared. -/
theorem rename_apart_iff_exchange :
    ∃ result, halfDeclared.rename exchange = .ok result ∧ result.occurring = ["b", "b", "a"] ∧
      ∀ a ∈ halfDeclared.occurring, ∀ b ∈ halfDeclared.occurring, a ≠ b →
        exchange.apply a ≠ exchange.apply b := by
  have hrename : halfDeclared.rename exchange = .ok (halfDeclared.substitute exchange.apply) := rfl
  obtain ⟨hoccurring, hapart⟩ := rename_apart_iff hrename
  refine ⟨_, hrename, hoccurring.trans (by decide), hapart.2 ?_⟩
  unfold Renaming.Captures
  decide

/-- If the declared variable is renamed to the other one, that is not refused, and both get one
name. -/
theorem rename_captures_undeclared :
    halfDeclared.undeclared = ["b"] ∧
    ∃ result, halfDeclared.rename (.ofList [("a", "b")]) = .ok result ∧
      result.occurring = ["b", "b", "b"] ∧
      ¬ ∀ a ∈ halfDeclared.occurring, ∀ b ∈ halfDeclared.occurring, a ≠ b →
        Renaming.apply (.ofList [("a", "b")]) a ≠ Renaming.apply (.ofList [("a", "b")]) b := by
  refine ⟨by decide, _, rfl, by decide, by decide⟩

end QueryBatch.Operation
