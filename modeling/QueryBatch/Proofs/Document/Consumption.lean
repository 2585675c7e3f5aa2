import QueryBatch.Proofs.Document.Reading

/-!
# Productions never go back

What a production leaves is the end of the tokens that it was given, also where it reports mistakes
and goes on. Main statements:

* `Production.Consumes.bind`, `Production.consumes_iterate`: this holds of productions in sequence
  and of loops if it holds of their parts;
* `Production.typeWithin_succ`, `Production.valueWithin_succ`, `Production.selectionWithin_succ`:
  the productions that may be nested, told by what is nested in them;
* `Production.consumes_value`, `Production.consumes_selection`, `Production.advances_operation`: no
  phrase of the language is read back;
* `Production.advances_valueOf`, `Production.advances_directive`,
  `Production.advances_skipFragmentSelection`, `Production.advances_definitionStep`: phrases that
  use the next token, whatever it is.
-/

namespace QueryBatch

namespace Production

variable {α β σ : Type}

/-- A production leaves the end of the tokens that it is given. -/
def Consumes (p : Production α) : Prop := ∀ ts, (p ts).rest <:+ ts

/-- A production uses the next token, if there is one. -/
def Advances (p : Production α) : Prop := ∀ ts, (p ts).rest <:+ ts.tail

/-! ## Putting productions together -/

namespace Consumes

variable {p q : Production α}

theorem bind {f : α → Production β} (hp : p.Consumes) (hf : ∀ a, (f a).Consumes) :
    (p >>= f).Consumes := fun ts => (hf _ _).trans (hp ts)

theorem map (hp : p.Consumes) (f : α → β) : (f <$> p).Consumes := by
  rw [map_eq_pure_bind]
  exact hp.bind fun _ _ => List.suffix_rfl

theorem seqRight {q : Production β} (hp : p.Consumes) (hq : q.Consumes) :
    (p *> q).Consumes := by
  rw [seqRight_eq_bind]
  exact hp.bind fun _ => hq

theorem ite {c : Prop} [Decidable c] (hp : p.Consumes) (hq : q.Consumes) :
    (if c then p else q).Consumes := by
  split
  · exact hp
  · exact hq

end Consumes

theorem Advances.consumes {p : Production α} (h : p.Advances) : p.Consumes :=
  fun ts => (h ts).trans ts.tail_suffix

/-- If the first part uses a token, so does the whole, since no part gives tokens back. -/
theorem Advances.bind {p : Production α} {f : α → Production β} (hp : p.Advances)
    (hf : ∀ a, (f a).Consumes) : (p >>= f).Advances := fun ts => (hf _ _).trans (hp ts)

theorem Advances.seqRight {p : Production α} {q : Production β} (hp : p.Advances)
    (hq : q.Consumes) : (p *> q).Advances := by
  rw [seqRight_eq_bind]
  exact hp.bind fun _ => hq

/-- Behind a production that may have used tokens, another one uses the next token. -/
theorem Consumes.seqRight_advances {p : Production α} {q : Production β} (hp : p.Consumes)
    (hq : q.Advances) : (p *> q).Advances := by
  intro ts
  rw [seqRight_eq_bind]
  refine (hq (p ts).rest).trans ?_
  cases ts with
  | nil => simp [List.suffix_nil.1 (hp [])]
  | cons t ts =>
    rcases List.suffix_cons_iff.1 (hp (t :: ts)) with hall | hshort
    · simp [hall]
    · exact (List.tail_suffix _).trans hshort

/-- A production starts with another one, behind which it does not go back. -/
def BeginsWith (q : Production β) (p : Production α) : Prop :=
  ∃ f : α → Production β, q = (p >>= f) ∧ ∀ a, (f a).Consumes

/-- A phrase gives no tokens back if the phrase that it begins with does not. -/
theorem BeginsWith.consumes {p : Production α} {q : Production β} (h : q.BeginsWith p)
    (hp : p.Consumes) : q.Consumes := by
  obtain ⟨f, rfl, hf⟩ := h
  exact hp.bind hf

/-! ## Single tokens -/

/-- A production that uses no token. -/
theorem consumes_of_rest_eq {p : Production α} (h : ∀ ts, (p ts).rest = ts) : p.Consumes :=
  fun ts => ⟨[], h ts⟩

/-- Nothing is used to give a value. -/
theorem consumes_pure (a : α) : (pure a : Production α).Consumes :=
  consumes_of_rest_eq fun _ => rfl

theorem consumes_peek : peek.Consumes := consumes_of_rest_eq fun _ => rfl

theorem consumes_current : current.Consumes := consumes_of_rest_eq fun _ => rfl

theorem consumes_here : here.Consumes := consumes_of_rest_eq fun _ => rfl

theorem consumes_report (issue : Issue) (span : Option Span) : (report issue span).Consumes :=
  consumes_of_rest_eq fun _ => rfl

theorem consumes_reportHere (issues : List Issue) : (reportHere issues).Consumes :=
  consumes_of_rest_eq fun _ => rfl

theorem consumes_expected (what : String) : (expected what).Consumes :=
  consumes_of_rest_eq fun _ => rfl

/-- Stepping over a token uses one, unless none is left. -/
theorem advances_advance : advance.Advances := fun _ => List.suffix_rfl

theorem consumes_advance : advance.Consumes := advances_advance.consumes

theorem consumes_skip {f : List Token → List Token} (h : ∀ ts, f ts <:+ ts) : (skip f).Consumes := h

/-- A token that is not the expected one is left where it is. -/
theorem consumes_expect (kind : Kind) : (expect kind).Consumes :=
  consumes_peek.bind fun _ => consumes_advance.ite (consumes_expected _)

/-- A token that is no name is left where it is. -/
theorem consumes_name : name.Consumes := by
  have hmissing : (expected "a name" *> pure "" : Production String).Consumes :=
    (consumes_expected _).seqRight (consumes_pure _)
  refine consumes_current.bind fun t => ?_
  cases t with
  | none => exact hmissing
  | some t => exact (consumes_advance.seqRight (consumes_pure _)).ite hmissing

/-! ## Loops and nesting -/

/-- A loop gives no tokens back if its steps do not. -/
theorem consumes_iterate {stop : Kind → Bool} {step : σ → Production σ}
    (h : ∀ s, (step s).Consumes) (s : σ) : (iterate stop step s).Consumes := by
  intro ts
  fun_induction iterate stop step s ts with
  | case1 s => exact List.suffix_rfl
  | case2 s t ts hstop => exact List.suffix_rfl
  | case3 s t ts hstop first rest more ih =>
    have hrest : rest <:+ t :: ts := by
      show (if first.rest.length ≤ ts.length then first.rest else ts) <:+ t :: ts
      split
      · exact h s (t :: ts)
      · exact List.suffix_cons t ts
    exact ih.trans hrest

/-- A step that keeps an item behind those that were kept; `many` is the loop of it. -/
def keeping (item : Production α) (kept : List α) : Production (List α) := do
  return kept ++ [← item]

theorem consumes_keeping {item : Production α} (h : item.Consumes) (kept : List α) :
    (keeping item kept).Consumes := h.bind fun _ => consumes_pure _

theorem consumes_many {stop : Kind → Bool} {item : Production α} (h : item.Consumes) :
    (many stop item).Consumes := consumes_iterate (consumes_keeping h) []

/-- A nested phrase gives no tokens back if it does so at no depth. -/
theorem consumes_nested {p : Nat → Production α} (h : ∀ depth, (p depth).Consumes) :
    (nested p).Consumes := fun ts => h _ ts

/-- Items between two marks, of which the first one is there. -/
theorem advances_group {stop : Kind → Bool} {item : Production α} {kind : Kind} {f : List α → β}
    (h : item.Consumes) :
    (do
      advance
      let items ← many stop item
      expect kind
      pure (f items) : Production β).Advances :=
  advances_advance.bind fun _ => (consumes_many h).bind fun _ => (consumes_expect _).bind fun _ =>
    consumes_pure _

/-! ## Groups in braces -/

/-- The end of a group is behind its start. -/
theorem closeBraces_suffix (depth : Nat) (ts : List Token) : closeBraces depth ts <:+ ts := by
  fun_induction closeBraces depth ts with
  | case1 => exact List.suffix_rfl
  | case2 depth t ts hopen ih => exact ih.trans (List.suffix_cons t ts)
  | case3 t ts hopen hclose => exact List.suffix_cons t ts
  | case4 t ts hopen hclose depth ih => exact ih.trans (List.suffix_cons t ts)
  | case5 depth t ts hopen hclose ih => exact ih.trans (List.suffix_cons t ts)

theorem skipBraces_suffix (ts : List Token) : skipBraces ts <:+ ts := by
  unfold skipBraces
  split
  · exact List.suffix_rfl
  · split
    · exact (closeBraces_suffix 0 _).trans (List.suffix_cons _ _)
    · exact List.suffix_rfl

theorem skipDefinition_suffix (ts : List Token) : skipDefinition ts <:+ ts :=
  (skipBraces_suffix _).trans (List.dropWhile_suffix _)

/-! ## Types -/

/-- A type, whose element is read by `element` if it is a list type. -/
def typeOf (element : Production TypeRef) : Production TypeRef := do
  let inner ←
    if (← peek) = .punctuator .bracketOpen then do
      advance
      let t ← element
      expect (.punctuator .bracketClose)
      pure (.list t)
    else do
      pure (.named (← name))
  if (← peek) = .punctuator .bang then do
    advance
    pure (.nonNull inner)
  else pure inner

/-- One level of types, with the types of elements at the level below. -/
theorem typeWithin_succ (depth : Nat) : typeWithin (depth + 1) = typeOf (typeWithin depth) := rfl

theorem consumes_typeOf {element : Production TypeRef} (h : element.Consumes) :
    (typeOf element).Consumes := by
  -- What follows a name and what follows a list type is the same.
  have hclose : ∀ t : TypeRef, (do
      if (← peek) = .punctuator .bang then do
        advance
        pure (.nonNull t)
      else pure t : Production TypeRef).Consumes := fun t =>
    consumes_peek.bind fun _ =>
      (consumes_advance.bind fun _ => consumes_pure _).ite (consumes_pure _)
  refine consumes_peek.bind fun _ => .ite ?_ ?_
  · exact consumes_advance.bind fun _ => h.bind fun _ => (consumes_expect _).bind fun _ =>
      (consumes_pure _).bind hclose
  · exact consumes_name.bind fun _ => (consumes_pure _).bind hclose

theorem consumes_typeWithin (depth : Nat) : (typeWithin depth).Consumes := by
  induction depth with
  | zero => exact consumes_pure _
  | succ depth ih => exact consumes_typeOf ih

theorem consumes_type : type.Consumes := consumes_nested consumes_typeWithin

/-! ## Values -/

/-- A variable after its mark, which `mark` is. -/
def variableOf (constant : Bool) (mark : Token) : Production Value := do
  advance
  let variableName ← name
  if constant then report (.variableInConstant variableName) (some mark.span)
  pure (.var variableName)

/-- A value, whose items are read by `item` if it is a list or an object. -/
def valueOf (constant : Bool) (item : Production Value) : Production Value := do
  match ← current with
  | none => expected "a value" *> pure .null
  | some t =>
    match Literal.ofToken? t with
    | some literal => reportHere literal.issues *> advance *> pure literal.value
    | none =>
      match t.kind with
      | .punctuator .dollar => variableOf constant t
      | .punctuator .bracketOpen => do
        advance
        let items ← many (isMark .bracketClose) item
        expect (.punctuator .bracketClose)
        pure (.list items)
      | .punctuator .braceOpen => do
        advance
        let entries ← many (isMark .braceClose) (entry item)
        expect (.punctuator .braceClose)
        pure (.object entries)
      | kind =>
        if kind.isName then advance *> pure (.enum t.text)
        else expected "a value" *> advance *> pure .null

/-- One level of values, with the items at the level below. -/
theorem valueWithin_succ (constant : Bool) (depth : Nat) :
    valueWithin constant (depth + 1) = valueOf constant (valueWithin constant depth) := rfl

/-- An entry begins with its key, where a missing key uses no token. -/
theorem beginsWith_entry {value : Production Value} (h : value.Consumes) :
    (entry value).BeginsWith name :=
  ⟨_, rfl, fun _ => (consumes_expect _).bind fun _ => h.bind fun _ => consumes_pure _⟩

theorem consumes_entry {value : Production Value} (h : value.Consumes) : (entry value).Consumes :=
  (beginsWith_entry h).consumes consumes_name

/-- A variable uses its mark, even if no name follows. -/
theorem advances_variableOf (constant : Bool) (mark : Token) :
    (variableOf constant mark).Advances :=
  advances_advance.bind fun _ => consumes_name.bind fun _ =>
    .ite ((consumes_report _ _).bind fun _ => consumes_pure _) (consumes_pure _)

/-- A value uses its first token, also where none can start with it. -/
theorem advances_valueOf {constant : Bool} {item : Production Value} (h : item.Consumes) :
    (valueOf constant item).Advances := by
  intro ts
  rw [valueOf, current_bind]
  cases ts with
  | nil => exact List.suffix_rfl
  | cons t ts =>
    refine (?_ : Advances _) (t :: ts)
    rw [List.head?_cons]
    cases hliteral : Literal.ofToken? t with
    | some literal =>
      simp only [hliteral]
      exact ((consumes_reportHere _).seqRight_advances advances_advance).seqRight (consumes_pure _)
    | none =>
      simp only [hliteral]
      split
      · exact advances_variableOf constant t
      · exact advances_group h
      · exact advances_group (consumes_entry h)
      · split
        · exact advances_advance.seqRight (consumes_pure _)
        · exact ((consumes_expected _).seqRight_advances advances_advance).seqRight
            (consumes_pure _)

theorem consumes_valueWithin (constant : Bool) (depth : Nat) :
    (valueWithin constant depth).Consumes := by
  induction depth with
  | zero => exact consumes_pure _
  | succ depth ih => exact (advances_valueOf ih).consumes

theorem consumes_value (constant : Bool) : (value constant).Consumes :=
  consumes_nested (consumes_valueWithin constant)

/-! ## Arguments and directives -/

theorem consumes_argument : argument.Consumes :=
  (consumes_entry (consumes_value false)).bind fun _ => consumes_pure _

theorem consumes_arguments : arguments.Consumes :=
  consumes_peek.bind fun _ => (advances_group consumes_argument).consumes.ite (consumes_pure _)

theorem advances_directive : directive.Advances :=
  advances_advance.bind fun _ => consumes_name.bind fun _ => consumes_arguments.bind fun _ =>
    consumes_pure _

theorem consumes_directives : directives.Consumes := consumes_many advances_directive.consumes

/-! ## Selections -/

theorem beginsWith_field {selection : Production (List Field)} (h : selection.Consumes) :
    (field selection).BeginsWith name := by
  -- What follows the name is the same with an alias and without one.
  have hrest : ∀ head : Option String × String, (do
      let args ← arguments
      let dirs ← directives
      let fields ← if (← peek) = .punctuator .braceOpen then some <$> selection else pure none
      pure ⟨head.1, head.2, args, dirs, fields⟩ : Production Field).Consumes := fun head =>
    consumes_arguments.bind fun _ => consumes_directives.bind fun _ => consumes_peek.bind fun _ =>
      .ite ((h.map _).bind fun _ => consumes_pure _) ((consumes_pure _).bind fun _ => consumes_pure _)
  refine ⟨_, rfl, fun _ => consumes_peek.bind fun _ => .ite ?_ ?_⟩
  · exact consumes_advance.bind fun _ => consumes_name.bind fun _ => (consumes_pure _).bind hrest
  · exact (consumes_pure _).bind hrest

theorem consumes_field {selection : Production (List Field)} (h : selection.Consumes) :
    (field selection).Consumes := (beginsWith_field h).consumes consumes_name

/-- A fragment in a selection uses at least its three points. -/
theorem advances_skipFragmentSelection : skipFragmentSelection.Advances := by
  have hafter : (do
      let _ ← directives
      skip skipBraces : Production Unit).Consumes :=
    consumes_directives.bind fun _ => consumes_skip skipBraces_suffix
  refine advances_advance.bind fun _ => consumes_peek.bind fun _ => .ite ?_ (.ite ?_ ?_)
  · exact (consumes_advance.seqRight (consumes_name.map _)).bind fun _ => hafter
  · exact consumes_advance.bind fun _ => hafter
  · exact hafter

/-- A fragment selection is stepped over with its first token. -/
theorem selectionStep_suffix_of_spread {selection : Production (List Field)} {ts : List Token}
    (h : headKind ts = .punctuator .spread) (kept : List Field) :
    (selectionStep selection kept ts).rest <:+ ts.tail := by
  rw [selectionStep, peek_bind, if_pos h]
  exact advances_skipFragmentSelection ts

/-- A step in a selection gives no tokens back, also where it reports that no field starts. -/
theorem consumes_selectionStep {selection : Production (List Field)} (h : selection.Consumes)
    (kept : List Field) : (selectionStep selection kept).Consumes := by
  refine consumes_peek.bind fun _ => .ite ?_ ?_
  · exact (consumes_reportHere _).bind fun _ => advances_skipFragmentSelection.consumes.bind fun _ =>
      consumes_pure kept
  · exact (consumes_field h).bind fun _ => consumes_pure _

/-- Fields in braces, whose own selections are read by `inner`. -/
def selectionOf (inner : Production (List Field)) : Production (List Field) := do
  if (← peek) = .punctuator .braceOpen then do
    advance
    let fields ← iterate (isMark .braceClose) (selectionStep inner) []
    expect (.punctuator .braceClose)
    if fields.isEmpty then reportHere [.emptySelection]
    pure fields
  else expected Punctuator.braceOpen.text *> pure []

/-- One level of selections, with the nested ones at the level below. -/
theorem selectionWithin_succ (depth : Nat) :
    selectionWithin (depth + 1) = selectionOf (selectionWithin depth) := rfl

/-- A selection that starts with its brace uses it. -/
theorem selectionOf_suffix {inner : Production (List Field)} (h : inner.Consumes)
    {ts : List Token} (hopen : headKind ts = .punctuator .braceOpen) :
    (selectionOf inner ts).rest <:+ ts.tail := by
  have hfields : (do
      advance
      let fields ← iterate (isMark .braceClose) (selectionStep inner) []
      expect (.punctuator .braceClose)
      if fields.isEmpty then reportHere [.emptySelection]
      pure fields : Production (List Field)).Advances :=
    advances_advance.bind fun _ => (consumes_iterate (consumes_selectionStep h) _).bind fun _ =>
      (consumes_expect _).bind fun _ =>
        .ite ((consumes_reportHere _).bind fun _ => consumes_pure _) (consumes_pure _)
  rw [selectionOf, peek_bind, if_pos hopen]
  exact hfields ts

theorem consumes_selectionOf {inner : Production (List Field)} (h : inner.Consumes) :
    (selectionOf inner).Consumes := by
  intro ts
  by_cases hopen : headKind ts = .punctuator .braceOpen
  · exact (selectionOf_suffix h hopen).trans ts.tail_suffix
  · rw [selectionOf, peek_bind, if_neg hopen]
    exact List.suffix_rfl

theorem consumes_selectionWithin (depth : Nat) : (selectionWithin depth).Consumes := by
  induction depth with
  | zero => exact consumes_pure _
  | succ depth ih => exact consumes_selectionOf ih

theorem consumes_selection : selection.Consumes := consumes_nested consumes_selectionWithin

/-! ## Operations -/

/-- A variable begins with its mark, where a missing mark uses no token. -/
theorem beginsWith_variableDefinition :
    variableDefinition.BeginsWith (expect (.punctuator .dollar)) := by
  refine ⟨_, rfl, fun _ => consumes_name.bind fun _ => (consumes_expect _).bind fun _ =>
    consumes_type.bind fun _ => consumes_peek.bind fun _ => .ite ?_ ?_⟩
  · exact (consumes_advance.seqRight ((consumes_value true).map some)).bind fun _ =>
      consumes_pure _
  · exact (consumes_pure _).bind fun _ => consumes_pure _

theorem consumes_variableDefinition : variableDefinition.Consumes :=
  beginsWith_variableDefinition.consumes (consumes_expect _)

theorem consumes_variableStep (kept : List VariableDefinition) : (variableStep kept).Consumes :=
  consumes_here.bind fun _ => consumes_variableDefinition.bind fun _ =>
    .ite ((consumes_report _ _).seqRight (consumes_pure _)) (consumes_pure _)

theorem consumes_variableDefinitions : variableDefinitions.Consumes :=
  consumes_peek.bind fun _ => .ite
    (consumes_advance.bind fun _ => (consumes_iterate consumes_variableStep []).bind fun _ =>
      (consumes_expect _).bind fun _ => consumes_pure _)
    (consumes_pure _)

theorem consumes_operationDirectives : operationDirectives.Consumes :=
  consumes_peek.bind fun _ => .ite
    (consumes_here.bind fun _ => consumes_directives.bind fun _ => consumes_report _ _)
    (consumes_pure _)

theorem consumes_optionalName : optionalName.Consumes :=
  consumes_peek.bind fun _ => (consumes_name.map some).ite (consumes_pure _)

theorem advances_plainOperation : plainOperation.Advances := by
  intro ts
  rw [plainOperation, peek_bind]
  by_cases hopen : headKind ts = .punctuator .braceOpen
  · rw [if_pos hopen]
    exact selectionOf_suffix (consumes_selectionWithin _) hopen
  · rw [if_neg hopen]
    exact (advances_advance.bind fun _ => consumes_optionalName.bind fun _ =>
      consumes_variableDefinitions.bind fun _ => consumes_operationDirectives.bind fun _ =>
        consumes_selection.bind fun _ => consumes_pure _) ts

/-- An operation uses the token with which it starts. -/
theorem advances_operation : operation.Advances :=
  advances_plainOperation.bind fun _ => (consumes_reportHere _).bind fun _ => consumes_pure _

/-- A fragment definition is skipped with its first token. -/
theorem skipDefinition_suffix_tail {ts : List Token} (h : headKind ts ≠ .punctuator .braceOpen) :
    skipDefinition ts <:+ ts.tail := by
  cases ts with
  | nil => exact List.suffix_rfl
  | cons t ts =>
    rw [skipDefinition, List.dropWhile_cons_of_pos (by simpa [headKind] using h)]
    exact skipDefinition_suffix ts

/-- Each turn of the loop over a document uses a token, whatever it finds. -/
theorem advances_definitionStep (kept : List Operation) : (definitionStep kept).Advances := by
  intro ts
  rw [definitionStep, peek_bind]
  split
  · exact (advances_operation.bind fun _ => consumes_pure _) ts
  · split
    · rename_i hfragment
      have hopen : headKind ts ≠ .punctuator .braceOpen := by rw [hfragment]; decide
      exact skipDefinition_suffix_tail hopen
    · exact List.suffix_rfl

end Production

end QueryBatch
