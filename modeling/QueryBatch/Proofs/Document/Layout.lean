import QueryBatch.Proofs.Document.Alike
import QueryBatch.Proofs.Document.Termination

/-!
# Layout has no meaning

Blanks, commas, comments and byte order marks move the tokens of a source, but change neither their
kinds nor their texts. Reading looks at places only where a loop finds out whether its step has used
a token, and there the places of both sources tell the same. Main statements:

* `Production.uniform_forced`, `Production.alike_guarded`: a turn of a loop that compares places
  does the same before tokens of the same spellings, wherever they are;
* `Document.ofSource_alike`: sources whose tokens have the same spellings are read alike.
-/

namespace QueryBatch

/-- Two tokens have the same kind and the same text. -/
def SameSpelling (t u : Token) : Prop := t.spelling = u.spelling

theorem forall₂_sameSpelling_iff {ts us : List Token} :
    List.Forall₂ SameSpelling ts us ↔ ts.map Token.spelling = us.map Token.spelling := by
  rw [← List.forall₂_eq_eq_eq, List.forall₂_map_left_iff, List.forall₂_map_right_iff]
  rfl

namespace Diagnostic

/-- What a diagnostic says, apart from the places of its labels. -/
structure Wording where
  severity : Severity
  code : String
  title : String
  messages : List String
  deriving DecidableEq, Repr

def wording (d : Diagnostic) : Wording := ⟨d.severity, d.code, d.title, d.labels.map (·.message)⟩

end Diagnostic

/-- The same issue is worded in the same way wherever it is. -/
theorem Report.wording_diagnostic {R : Token → Token → Prop} {r r' : Report}
    (h : ReportsAlike R r r') (stop stop' : Nat) :
    (r.diagnostic stop).wording = (r'.diagnostic stop').wording := by
  simp only [diagnostic, Diagnostic.wording, List.map_cons, List.map_nil, h.issue]

namespace Production

variable {σ : Type} {R : Token → Token → Prop} {source source' : String} {stop : Kind → Bool}
  {step : σ → Production σ}

/-! ## Turns that compare places -/

theorem uniform_keeping {α : Type} {item : Production α} (h : Uniform R item) (kept : List α) :
    Uniform R (keeping item kept) := h.bind fun _ => uniform_pure _

theorem forall₂_tail {ts us : List Token} (h : List.Forall₂ R ts us) :
    List.Forall₂ R ts.tail us.tail := by
  cases h with
  | nil => exact .nil
  | cons _ hmore => exact hmore

theorem uniform_forced (h : ∀ s, Uniform R (step s)) (s : σ) : Uniform R (forced step s) := by
  intro ts us hts
  obtain ⟨hvalue, hrest, hreports⟩ := h s ts us hts
  have htail := forall₂_tail hts
  refine ⟨hvalue, ?_, hreports⟩
  show List.Forall₂ R (if _ ≤ ts.tail.length then _ else _) (if _ ≤ us.tail.length then _ else _)
  rw [hrest.length_eq, htail.length_eq]
  split
  · exact hrest
  · exact htail

/-- What is left of two sources: tokens at the end of each, which are related and not all used. -/
structure LeftAlike (R : Token → Token → Prop) (source source' : String) (ts us : List Token) :
    Prop where
  left : ts <:+ tokenize source
  right : us <:+ tokenize source'
  alike : List.Forall₂ R ts us
  nonempty : ts ≠ []

/-- Each source has places of its own, but a step has used a token of both or of none. -/
theorem alike_guarded (hconsumes : ∀ s, (step s).Consumes) (h : ∀ s, Uniform R (step s)) (s : σ)
    {ts us : List Token} (hleft : LeftAlike R source source' ts us) :
    ReadingsAlike R Eq (guarded source step s ts) (guarded source' step s us) := by
  obtain ⟨hts, hus, halike, hne⟩ := hleft
  have hforced := uniform_forced h s ts us halike
  cases halike with
  | nil => exact absurd rfl hne
  | cons _ _ => rwa [guarded_eq_forced hconsumes s hts, guarded_eq_forced hconsumes s hus]

theorem alike_selectionTurn (hR : Spelled R) {selection : Production (List Field)}
    (hconsumes : selection.Consumes) (h : Uniform R selection) (kept : List Field)
    {ts us : List Token} (hleft : LeftAlike R source source' ts us) :
    ReadingsAlike R Eq (selectionTurn source selection kept ts)
      (selectionTurn source' selection kept us) := by
  have hkind : headKind ts = headKind us := (uniform_peek hR ts us hleft.alike).value
  rw [selectionTurn, selectionTurn, selectionTurnBy, selectionTurnBy, peek_bind, peek_bind, hkind]
  split
  · have hskip : Uniform R (do
        reportHere [.fragmentSelection]
        skipFragmentSelection
        pure kept : Production (List Field)) :=
      (uniform_reportHere _).bind fun _ => (uniform_skipFragmentSelection hR).bind fun _ =>
        uniform_pure kept
    exact hskip ts us hleft.alike
  · exact alike_guarded (consumes_keeping (consumes_field hconsumes))
      (uniform_keeping (uniform_field hR h)) kept hleft

/-- A loop whose turns look at places of the source, in two sources: the loop that runs takes these
turns in each of them, and before the same number of tokens both turns do the same. -/
structure TurnsAlike (source source' : String) (stop : Kind → Bool)
    (turn : String → σ → Production σ) (loop : σ → Production σ) : Prop where
  left : Loops source stop (turn source) loop
  right : Loops source' stop (turn source') loop
  turns : ∀ s n, n < (tokenize source).length →
    ReadingsAlike SameSpelling Eq (turn source s ((tokenize source).drop n))
      (turn source' s ((tokenize source').drop n))

theorem spelled_sameSpelling : Spelled SameSpelling := fun _ _ h => h

theorem leftAlike_drop (h : List.Forall₂ SameSpelling (tokenize source) (tokenize source'))
    {n : Nat} (hn : n < (tokenize source).length) :
    LeftAlike SameSpelling source source' ((tokenize source).drop n)
      ((tokenize source').drop n) where
  left := List.drop_suffix n _
  right := List.drop_suffix n _
  alike := List.forall₂_drop n h
  nonempty := fun hnil => absurd (List.drop_eq_nil_iff.1 hnil) (Nat.not_le.2 hn)

theorem turnsAlike_guarded (hconsumes : ∀ s, (step s).Consumes)
    (huniform : ∀ s, Uniform SameSpelling (step s))
    (h : List.Forall₂ SameSpelling (tokenize source) (tokenize source')) :
    TurnsAlike source source' stop (fun source => guarded source step) (iterate stop step) where
  left := loops_guarded hconsumes
  right := loops_guarded hconsumes
  turns s _ hn := alike_guarded hconsumes huniform s (leftAlike_drop h hn)

end Production

namespace Document

open Production

variable {source source' : String}

/-- Two sources are read as the same document, with the same diagnostics up to the places of their
labels. Where a loop of the language compares places, both sources make it go on in the same way. -/
structure ReadAlike (source source' : String) : Prop where
  document : (ofSource source).value = (ofSource source').value
  diagnostics : (diagnostics source).toList.map Diagnostic.wording =
    (diagnostics source').toList.map Diagnostic.wording
  variableDefinitions : TurnsAlike source source' (isMark .parenClose)
    (fun source => guarded source variableStep) (iterate (isMark .parenClose) variableStep)
  arguments : TurnsAlike source source' (isMark .parenClose)
    (fun source => guarded source (keeping argument))
    (iterate (isMark .parenClose) (keeping argument))
  list : ∀ constant, TurnsAlike source source' (isMark .bracketClose)
    (fun source => guarded source (keeping (value constant)))
    (iterate (isMark .bracketClose) (keeping (value constant)))
  object : ∀ constant, TurnsAlike source source' (isMark .braceClose)
    (fun source => guarded source (keeping (entry (value constant))))
    (iterate (isMark .braceClose) (keeping (entry (value constant))))
  selectionSet : TurnsAlike source source' (isMark .braceClose)
    (fun source => selectionTurn source selection)
    (iterate (isMark .braceClose) (selectionStep selection))

theorem wordings_of_reports {rs rs' : List Report} {R : Token → Token → Prop}
    (h : List.Forall₂ (ReportsAlike R) rs rs') (stop stop' : Nat) :
    (rs.map (·.diagnostic stop)).map Diagnostic.wording =
      (rs'.map (·.diagnostic stop')).map Diagnostic.wording := by
  rw [List.map_map, List.map_map, ← List.forall₂_eq_eq_eq, List.forall₂_map_left_iff,
    List.forall₂_map_right_iff]
  exact h.imp fun _ _ hr => Report.wording_diagnostic hr stop stop'

/-- Only the kinds and the texts of its tokens matter to how a source is read. Loops compare the
places of its tokens; with 32 bits they compare alike where these fit (`tellsUse_headPlace`). -/
theorem ofSource_alike (h : (tokenize source).map Token.spelling =
    (tokenize source').map Token.spelling) : ReadAlike source source' := by
  have htokens := forall₂_sameSpelling_iff.2 h
  have hR := spelled_sameSpelling
  obtain ⟨hvalue, -, hreports⟩ := uniform_document hR _ _ htokens
  have hentry := fun constant => uniform_entry hR (uniform_value hR constant)
  exact {
    document := hvalue
    diagnostics := wordings_of_reports hreports _ _
    variableDefinitions :=
      turnsAlike_guarded consumes_variableStep (uniform_variableStep hR) htokens
    arguments := turnsAlike_guarded (consumes_keeping consumes_argument)
      (uniform_keeping ((hentry false).bind fun _ => uniform_pure _)) htokens
    list := fun constant => turnsAlike_guarded (consumes_keeping (consumes_value constant))
      (uniform_keeping (uniform_value hR constant)) htokens
    object := fun constant => turnsAlike_guarded
      (consumes_keeping (consumes_entry (consumes_value constant)))
      (uniform_keeping (hentry constant)) htokens
    selectionSet := {
      left := loops_selection consumes_selection
      right := loops_selection consumes_selection
      turns := fun kept _ hn => alike_selectionTurn hR consumes_selection (uniform_selection hR)
        kept (leftAlike_drop htokens hn) } }

/-- A source with mistakes, and the same tokens with less and with more text around them. -/
theorem ofSource_alike_unclosed :
    (tokenize "\x7bf(x:[1 2)g\x7d").map Token.spelling =
        (tokenize "\uFEFF\x7b f(x: [1, 2) # unclosed\n  g \x7d  ").map Token.spelling ∧
      ReadAlike "\x7bf(x:[1 2)g\x7d" "\uFEFF\x7b f(x: [1, 2) # unclosed\n  g \x7d  " := by
  have h : (tokenize "\x7bf(x:[1 2)g\x7d").map Token.spelling =
      (tokenize "\uFEFF\x7b f(x: [1, 2) # unclosed\n  g \x7d  ").map Token.spelling := by
    decide +kernel
  exact ⟨h, ofSource_alike h⟩

end Document

end QueryBatch
