import QueryBatch.Proofs.Document.Termination

/-!
# Loops spare good tokens

Where a turn of a loop finds its place unchanged, it steps over a token. This is then the token with
which the turn has begun, and which the phrase that was looked for has refused with an error. Main
statements:

* `Production.Answers.bind`: a phrase answers for its first token if its first part does;
* `Production.answers_variableStep`, `Production.answers_argument`, `Production.advances_value`,
  `Production.answers_field`: what stands in a loop answers for its first token;
* `Production.sparing_guarded`, `Production.sparing_selection`: so the turns of a loop drop no other
  token;
* `Document.sparesTokens`: this is so in all loops of the language that compare places.
-/

namespace QueryBatch

namespace Production

variable {α β σ : Type} {source : String} {stop : Kind → Bool}

/-! ## Phrases that answer for their first token -/

/-- A production uses the next token or reports an error. -/
def Answers (p : Production α) : Prop :=
  ∀ t ts, (p (t :: ts)).rest = t :: ts → ∃ r ∈ (p (t :: ts)).reports, r.isError = true

theorem Advances.answers {p : Production α} (h : p.Advances) : p.Answers := by
  intro t ts hrest
  have hlength := (h (t :: ts)).length_le
  rw [hrest, List.tail_cons, List.length_cons] at hlength
  omega

theorem Answers.bind {p : Production α} {f : α → Production β} (h : p.Answers) (hp : p.Consumes)
    (hf : ∀ a, (f a).Consumes) : (p >>= f).Answers := by
  intro t ts hrest
  -- What the first part has used, the others do not give back.
  have hback : ((p >>= f) (t :: ts)).rest <:+ (p (t :: ts)).rest := hf _ _
  rw [hrest] at hback
  have hfirst : (p (t :: ts)).rest = t :: ts := (hp (t :: ts)).eq_of_length_le hback.length_le
  obtain ⟨r, hr, herror⟩ := h t ts hfirst
  exact ⟨r, List.mem_append_left _ hr, herror⟩

theorem answers_expected (what : String) {f : Unit → Production β} :
    (expected what >>= f).Answers :=
  fun _ _ _ => ⟨_, List.mem_append_left _ List.mem_cons_self, rfl⟩

theorem answers_expect (kind : Kind) : (expect kind).Answers := by
  intro t ts
  rw [expect, peek_bind]
  split
  · exact advances_advance.answers t ts
  · exact fun _ => ⟨_, List.mem_cons_self, rfl⟩

theorem answers_name : name.Answers := by
  intro t ts
  rw [name, current_bind, List.head?_cons]
  simp only
  split
  · exact (advances_advance.seqRight (consumes_pure _)).answers t ts
  · rw [seqRight_apply]
    exact answers_expected _ t ts

theorem BeginsWith.answers {p : Production α} {q : Production β} (h : q.BeginsWith p)
    (hp : p.Consumes) (hanswers : p.Answers) : q.Answers := by
  obtain ⟨f, rfl, hf⟩ := h
  exact hanswers.bind hp hf

theorem answers_entry {value : Production Value} (h : value.Consumes) : (entry value).Answers :=
  (beginsWith_entry h).answers consumes_name answers_name

theorem answers_argument : argument.Answers :=
  (answers_entry (consumes_value false)).bind (consumes_entry (consumes_value false)) fun _ =>
    consumes_pure _

/-- No value leaves its first token to the loop of a list. -/
theorem advances_value (constant : Bool) : (value constant).Advances :=
  fun ts => advances_valueOf (consumes_valueWithin constant ts.length) ts

/-- The first token of a field is its name or its alias. -/
theorem answers_field {selection : Production (List Field)} (h : selection.Consumes) :
    (field selection).Answers := (beginsWith_field h).answers consumes_name answers_name

theorem answers_variableDefinition : variableDefinition.Answers :=
  beginsWith_variableDefinition.answers (consumes_expect _) (answers_expect _)

theorem answers_variableStep (kept : List VariableDefinition) : (variableStep kept).Answers := by
  intro t ts
  rw [variableStep, here_bind]
  exact (answers_variableDefinition.bind consumes_variableDefinition fun _ =>
    .ite ((consumes_report _ _).seqRight (consumes_pure _)) (consumes_pure _)) t ts

theorem answers_keeping {item : Production α} (hitem : item.Answers) (h : item.Consumes)
    (kept : List α) : (keeping item kept).Answers := hitem.bind h fun _ => consumes_pure _

/-! ## Turns that drop a token -/

/-- A loop takes its turns one after the other. A turn is a step, behind which the first token of
the turn is stepped over only if the step has not used it and has reported an error. -/
structure Sparing (source : String) (stop : Kind → Bool) (step turn loop : σ → Production σ) :
    Prop where
  loops : Loops source stop turn loop
  spares : ∀ s t ts, t :: ts <:+ tokenize source → stop t.kind = false →
    turn s (t :: ts) = step s (t :: ts) ∨
      (step s (t :: ts)).rest = t :: ts ∧
        (∃ r ∈ (step s (t :: ts)).reports, r.isError = true) ∧
        turn s (t :: ts) = ⟨(step s (t :: ts)).value, ts, (step s (t :: ts)).reports⟩

/-- What a turn does that compares places. -/
theorem guarded_cases {step : σ → Production σ} (hstep : ∀ s, (step s).Consumes)
    (hanswers : ∀ s, (step s).Answers) (s : σ) {t : Token} {ts : List Token}
    (hts : t :: ts <:+ tokenize source) :
    guarded source step s (t :: ts) = step s (t :: ts) ∨
      (step s (t :: ts)).rest = t :: ts ∧
        (∃ r ∈ (step s (t :: ts)).reports, r.isError = true) ∧
        guarded source step s (t :: ts) =
          ⟨(step s (t :: ts)).value, ts, (step s (t :: ts)).reports⟩ := by
  rw [guarded_eq_forced hstep s hts]
  rcases List.suffix_cons_iff.1 (hstep s (t :: ts)) with hall | hshort
  · refine .inr ⟨hall, hanswers s t ts hall, ?_⟩
    simp [forced, hall]
  · exact .inl (forced_of_suffix hshort)

theorem sparing_guarded {step : σ → Production σ} (hstep : ∀ s, (step s).Consumes)
    (hanswers : ∀ s, (step s).Answers) :
    Sparing source stop step (guarded source step) (iterate stop step) where
  loops := loops_guarded hstep
  spares s _ _ hts _ := guarded_cases hstep hanswers s hts

theorem sparing_selection {selection : Production (List Field)} (h : selection.Consumes) :
    Sparing source stop (selectionStep selection) (selectionTurn source selection)
      (iterate stop (selectionStep selection)) where
  loops := loops_selection h
  spares kept t ts hts _ := by
    rw [selectionTurn, selectionTurnBy, selectionStep, peek_bind, peek_bind]
    split
    · exact .inl rfl
    · exact guarded_cases (consumes_keeping (consumes_field h))
        (answers_keeping (answers_field h) (consumes_field h)) kept hts

end Production

namespace Document

open Production

/-- The loops that compare places, on the way of reading a source. -/
structure SparesTokens (source : String) : Prop where
  /-- Where `n` tokens have been used, the place that is compared is that behind the next one. -/
  places : ∀ n, (position source ((tokenize source).drop n)).value =
    ((Cursor.ofSource source).after (n + 1)).offset
  variableDefinitions : Sparing source (isMark .parenClose) variableStep
    (guarded source variableStep) (iterate (isMark .parenClose) variableStep)
  arguments : Sparing source (isMark .parenClose) (keeping argument)
    (guarded source (keeping argument)) (iterate (isMark .parenClose) (keeping argument))
  list : ∀ constant, Sparing source (isMark .bracketClose) (keeping (value constant))
    (guarded source (keeping (value constant)))
    (iterate (isMark .bracketClose) (keeping (value constant)))
  object : ∀ constant, Sparing source (isMark .braceClose) (keeping (entry (value constant)))
    (guarded source (keeping (entry (value constant))))
    (iterate (isMark .braceClose) (keeping (entry (value constant))))
  selectionSet : Sparing source (isMark .braceClose) (selectionStep selection)
    (selectionTurn source selection) (iterate (isMark .braceClose) (selectionStep selection))
  /-- Inside values and selections the same loops are run again. -/
  nested : (∀ constant, value constant = valueOf constant (value constant)) ∧
    selection = selectionOf selection

/-- Comparing places spares every token that a step has used. The loops with places of 32 bits are
the same ones where these suffice (`loops_guardedBy`, `tellsUse_headPlace`). -/
theorem sparesTokens (source : String) : SparesTokens source where
  places n := by
    rw [Cursor.offset_after_succ, Cursor.stop_ofSource]
    rfl
  variableDefinitions := sparing_guarded consumes_variableStep answers_variableStep
  arguments := sparing_guarded (consumes_keeping consumes_argument)
    (answers_keeping answers_argument consumes_argument)
  list constant := sparing_guarded (consumes_keeping (consumes_value constant))
    (answers_keeping (advances_value constant).answers (consumes_value constant))
  object constant := sparing_guarded (consumes_keeping (consumes_entry (consumes_value constant)))
    (answers_keeping (answers_entry (consumes_value constant))
      (consumes_entry (consumes_value constant)))
  selectionSet := sparing_selection consumes_selection
  nested := ⟨fun constant => (recurs_value constant).unfolds, recurs_selection.unfolds⟩

end Document

end QueryBatch
