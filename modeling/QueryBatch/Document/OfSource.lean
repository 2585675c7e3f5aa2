import QueryBatch.Document.OfTokens
import QueryBatch.Source.Bag
import QueryBatch.Token.Scan

/-!
# The document of a source

The tokens of a source are read as a document. They are those that the scanner of bytes gives if
the source has at most `2 ^ 32 - 4` bytes (`call_of_lt`, `call_of_le`), and what is proved about
`Document.ofSource` is about the bytes of such a source. Main statement:

* `Reading.hasErrors_diagnostics`: the diagnostics have errors exactly if a report is one.
-/

namespace QueryBatch

/-- The diagnostics for the reports about a source. -/
def Reading.diagnostics {α : Type} (source : String) (r : Reading α) : DiagnosticBag :=
  ⟨r.reports.map (·.diagnostic (Text.utf8Length source.toList))⟩

theorem Reading.hasErrors_diagnostics {α : Type} (source : String) (r : Reading α) :
    (r.diagnostics source).hasErrors = r.reports.any (·.isError) := by
  simp [Reading.diagnostics, DiagnosticBag.hasErrors, Function.comp_def, Report.diagnostic,
    Diagnostic.isError, Report.isError]

namespace Document

/-- Reads a source. -/
def ofSource (source : String) : Reading Document := ofTokens (tokenize source)

/-- The diagnostics that reading a source raises. -/
def diagnostics (source : String) : DiagnosticBag := (ofSource source).diagnostics source

end Document

end QueryBatch
