import QueryBatch.Source.Span

/-!
# Diagnostics

A `Diagnostic` tells a person what is wrong with a source text and where. Main statement:

* `Diagnostic.isSome_render?_iff`: a diagnostic can be rendered exactly if each of its labels
  starts between two characters.
-/

namespace QueryBatch

inductive Severity
  | error
  | warning
  deriving DecidableEq, Repr

def Severity.text : Severity → String
  | .error => "error"
  | .warning => "warning"

/-- A place in the source, and what is to be said about it. -/
structure Label where
  span : Span
  message : String
  deriving DecidableEq, Repr

structure Diagnostic where
  severity : Severity
  code : String
  title : String
  labels : List Label
  deriving DecidableEq, Repr

namespace Diagnostic

def isError (d : Diagnostic) : Bool := d.severity == .error

/-- The first label's span. -/
def primarySpan? (d : Diagnostic) : Option Span := d.labels.head?.map (·.span)

/-- The diagnostic without its labels, on one line. -/
def headline (d : Diagnostic) : String :=
  d.severity.text ++ "[" ++ d.code ++ "]: " ++ d.title

/-- The line that shows a label, unless the label starts inside a character. -/
def labelLine? (source : String) (label : Label) : Option String :=
  (Position.ofOffset? source label.span.start).map fun p =>
    "\n  --> " ++ toString p.line ++ ":" ++ toString p.column ++ ": " ++ label.message

/-- The headline with one line for each label. -/
def render? (d : Diagnostic) (source : String) : Option String :=
  (d.labels.mapM (labelLine? source)).map fun lines => d.headline ++ String.join lines

theorem isSome_render?_iff {d : Diagnostic} {source : String} :
    (d.render? source).isSome ↔
      ∀ label ∈ d.labels, (Position.ofOffset? source label.span.start).isSome := by
  have key : ∀ labels : List Label, (labels.mapM (labelLine? source)).isSome ↔
      ∀ label ∈ labels, (Position.ofOffset? source label.span.start).isSome := by
    intro labels
    induction labels with
    | nil => simp
    | cons label labels ih =>
      rw [List.mapM_cons]
      cases h : Position.ofOffset? source label.span.start with
      | none => simp [labelLine?, h]
      | some p =>
        cases hr : labels.mapM (labelLine? source) with
        | none => simpa [labelLine?, h, hr] using ih
        | some lines => simpa [labelLine?, h, hr] using ih
  simp [render?, key]

end Diagnostic

end QueryBatch
