import QueryBatch.Document.OfSource
import QueryBatch.Proofs.Document.Soundness
import QueryBatch.Proofs.Document.Unambiguous

/-!
# Exactly the grammar is accepted

Main statements:

* `Document.isDocument_iff`: the grammar relates tokens to what their derivations stand for;
* `Document.accepts_iff_derivation`: a source is read without an error exactly if its tokens have a
  derivation, which is the only one and stands for the document that is read.
-/

namespace QueryBatch

namespace Document

variable {ts : List Token} {d : Document}

/-- Only undeclared variables are reported about the tokens of a document, which is no error. -/
theorem isError_reports_of_isDocument (h : Grammar.IsDocument ts d) :
    (ofTokens ts).value = d ∧ ∀ r ∈ (ofTokens ts).reports, r.isError = false := by
  obtain ⟨reports, hread, hclean⟩ := ofTokens_of_isDocument h
  rw [hread]
  refine ⟨rfl, fun r hr => ?_⟩
  obtain ⟨name, hissue⟩ := hclean r hr
  rw [Report.isError, hissue]
  rfl

/-- The meanings of some tokens are what their derivations stand for. -/
theorem isDocument_iff :
    Grammar.IsDocument ts d ↔ ∃ tree : Grammar.Derivation ts, tree.1.document = d := by
  constructor
  · intro h
    obtain ⟨hvalue, herrorless⟩ := isError_reports_of_isDocument h
    obtain ⟨tree, htree⟩ := exists_derivation herrorless
    exact ⟨tree, by rw [← htree, hvalue]⟩
  · rintro ⟨⟨tree, rfl⟩, rfl⟩
    exact tree.isDocument

theorem isError_reports_iff :
    (∀ r ∈ (ofTokens ts).reports, r.isError = false) ↔ Nonempty (Grammar.Derivation ts) := by
  constructor
  · intro h
    obtain ⟨d, -⟩ := exists_derivation h
    exact ⟨d⟩
  · rintro ⟨d⟩
    exact (isError_reports_of_isDocument (isDocument_iff.2 ⟨d, rfl⟩)).2

/-- A source is accepted exactly if its tokens have a derivation. There is only one, and the
document that is read is what it stands for. Where the places of the source fit into 32 bits, the
tokens are those of `call_of_lt`. -/
theorem accepts_iff_derivation (source : String) :
    ((diagnostics source).hasErrors = false ↔
        Nonempty (Grammar.Derivation (tokenize source))) ∧
      Subsingleton (Grammar.Derivation (tokenize source)) ∧
      ∀ d : Grammar.Derivation (tokenize source), (ofSource source).value = d.1.document := by
  refine ⟨?_, inferInstance, fun d => ?_⟩
  · rw [diagnostics, Reading.hasErrors_diagnostics, List.any_eq_false, ← isError_reports_iff]
    simp only [ofSource, Bool.not_eq_true]
  · exact (isError_reports_of_isDocument (isDocument_iff.2 ⟨d, rfl⟩)).1

end Document

end QueryBatch
