import QueryBatch.Source.Diagnostic

/-!
# Collected diagnostics

Diagnostics are kept in the order in which they were added.
-/

namespace QueryBatch

structure DiagnosticBag where
  toList : List Diagnostic
  deriving DecidableEq, Repr

namespace DiagnosticBag

def empty : DiagnosticBag := ⟨[]⟩

def add (b : DiagnosticBag) (d : Diagnostic) : DiagnosticBag := ⟨b.toList ++ [d]⟩

def errors (b : DiagnosticBag) : List Diagnostic := b.toList.filter (·.isError)

def warnings (b : DiagnosticBag) : List Diagnostic := b.toList.filter (!·.isError)

def hasErrors (b : DiagnosticBag) : Bool := b.toList.any (·.isError)

def size (b : DiagnosticBag) : Nat := b.toList.length

end DiagnosticBag

end QueryBatch
