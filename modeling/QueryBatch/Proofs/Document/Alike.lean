import Mathlib.Data.List.Forall2
import QueryBatch.Proofs.Document.Consumption
import QueryBatch.Proofs.Token.Spelling

/-!
# Productions before tokens that are alike

A production looks at the kinds and the texts of tokens. It takes their spans only to report issues
there. So whenever a relation of tokens keeps kinds and texts, a production gives the same value
before related tokens, leaves related tokens, and raises the same issues at related tokens. Main
statements:

* `Production.Alike.bind`, `Production.uniform_iterate`, `Production.uniform_nested`: this holds of
  productions in sequence, of loops and of nesting if it holds of their parts;
* `Production.uniform_value`, `Production.uniform_selection`, `Production.uniform_operation`: the
  phrases of the language;
* `Production.uniform_document`: documents.
-/

namespace QueryBatch

/-- Two spans are those of tokens that are related. -/
def SpansAlike (R : Token → Token → Prop) (s s' : Span) : Prop :=
  ∃ t u, R t u ∧ s = t.span ∧ s' = u.span

/-- Two reports raise the same issue, at tokens that are related or at the end of the source. -/
structure ReportsAlike (R : Token → Token → Prop) (r r' : Report) : Prop where
  issue : r.issue = r'.issue
  span : Option.Rel (SpansAlike R) r.span r'.span

/-- Two readings give related values, leave related tokens and raise the same issues. -/
structure ReadingsAlike {α β : Type} (R : Token → Token → Prop) (V : α → β → Prop) (r : Reading α)
    (r' : Reading β) : Prop where
  value : V r.value r'.value
  rest : List.Forall₂ R r.rest r'.rest
  reports : List.Forall₂ (ReportsAlike R) r.reports r'.reports

namespace Production

variable {α β γ δ σ : Type} {R : Token → Token → Prop}

/-- Before tokens that are related, two productions do the same. -/
def Alike (R : Token → Token → Prop) (V : α → β → Prop) (p : Production α) (q : Production β) :
    Prop :=
  ∀ ts us, List.Forall₂ R ts us → ReadingsAlike R V (p ts) (q us)

/-- A production does not tell tokens apart that are related. -/
def Uniform (R : Token → Token → Prop) (p : Production α) : Prop := Alike R Eq p p

/-! ## Putting productions together -/

theorem alike_pure {V : α → β → Prop} {a : α} {b : β} (h : V a b) :
    Alike R V (pure a) (pure b) := fun _ _ hts => ⟨h, hts, .nil⟩

theorem uniform_pure (a : α) : Uniform R (pure a : Production α) := alike_pure rfl

/-- Two productions in sequence, where the values of the first ones need only be related. -/
theorem Alike.bind {V : α → β → Prop} {W : γ → δ → Prop} {p : Production α} {q : Production β}
    {f : α → Production γ} {g : β → Production δ} (hp : Alike R V p q)
    (hf : ∀ a b, V a b → Alike R W (f a) (g b)) : Alike R W (p >>= f) (q >>= g) := by
  intro ts us hts
  obtain ⟨hvalue, hrest, hreports⟩ := hp ts us hts
  obtain ⟨hvalue', hrest', hreports'⟩ := hf _ _ hvalue _ _ hrest
  exact ⟨hvalue', hrest', List.rel_append hreports hreports'⟩

/-- A choice does not depend on the tokens. -/
theorem Alike.ite {V : α → β → Prop} {c : Prop} [Decidable c] {p p' : Production α}
    {q q' : Production β} (hp : Alike R V p q) (hp' : Alike R V p' q') :
    Alike R V (if c then p else p') (if c then q else q') := by
  split
  · exact hp
  · exact hp'

namespace Uniform

variable {W : β → γ → Prop} {p q : Production α}

/-- The first production gives equal values, so that the next ones have the same one to start
from. -/
theorem bind_alike {f : α → Production β} {g : α → Production γ} (hp : Uniform R p)
    (hf : ∀ a, Alike R W (f a) (g a)) : Alike R W (p >>= f) (p >>= g) :=
  Alike.bind hp fun a _ hab => hab ▸ hf a

/-- A sequence of uniform productions is uniform. -/
theorem bind {f : α → Production β} (hp : Uniform R p) (hf : ∀ a, Uniform R (f a)) :
    Uniform R (p >>= f) := hp.bind_alike hf

theorem map (hp : Uniform R p) (f : α → β) : Uniform R (f <$> p) := by
  rw [map_eq_pure_bind]
  exact hp.bind fun a => uniform_pure (f a)

theorem seqRight {q : Production β} (hp : Uniform R p) (hq : Uniform R q) :
    Uniform R (p *> q) := by
  rw [seqRight_eq_bind]
  exact hp.bind fun _ => hq

theorem ite {c : Prop} [Decidable c] (hp : Uniform R p) (hq : Uniform R q) :
    Uniform R (if c then p else q) := Alike.ite hp hq

end Uniform

/-! ## Single tokens -/

/-- The next tokens are related, or there is none on either side. -/
theorem alike_current : Alike R (Option.Rel R) current current := by
  intro ts us hts
  refine ⟨?_, hts, .nil⟩
  cases hts with
  | nil => exact .none
  | cons ht _ => exact .some ht

/-- The spans of the next tokens are alike, or there is none on either side. -/
theorem alike_headSpan {ts us : List Token} (h : List.Forall₂ R ts us) :
    Option.Rel (SpansAlike R) (headSpan ts) (headSpan us) := by
  cases h with
  | nil => exact .none
  | cons ht _ => exact .some ⟨_, _, ht, rfl, rfl⟩

theorem alike_here : Alike R (Option.Rel (SpansAlike R)) here here :=
  fun _ _ hts => ⟨alike_headSpan hts, hts, .nil⟩

theorem uniform_advance : Uniform R advance := by
  intro ts us hts
  refine ⟨rfl, ?_, .nil⟩
  cases hts with
  | nil => exact .nil
  | cons _ hts => exact hts

/-- Reports of one issue are alike if their spans are. -/
theorem alike_report (issue : Issue) {s s' : Option Span} (h : Option.Rel (SpansAlike R) s s') :
    Alike R Eq (report issue s) (report issue s') :=
  fun _ _ hts => ⟨rfl, hts, .cons ⟨rfl, h⟩ .nil⟩

theorem uniform_reportHere (issues : List Issue) : Uniform R (reportHere issues) := by
  intro ts us hts
  refine ⟨rfl, hts, ?_⟩
  show List.Forall₂ _ (issues.map _) (issues.map _)
  rw [List.forall₂_map_left_iff, List.forall₂_map_right_iff, List.forall₂_same]
  exact fun _ _ => ⟨rfl, alike_headSpan hts⟩

/-- Tokens may be left out in any way that keeps those that are left related. -/
theorem uniform_skip {f : List Token → List Token}
    (h : ∀ ts us, List.Forall₂ R ts us → List.Forall₂ R (f ts) (f us)) : Uniform R (skip f) :=
  fun ts us hts => ⟨rfl, h ts us hts, .nil⟩

/-- Related tokens have the same kind and the same text. -/
def Spelled (R : Token → Token → Prop) : Prop := ∀ t u, R t u → t.spelling = u.spelling

namespace Spelled

variable (hR : Spelled R) {t u : Token}

include hR

/-- Productions decide by the kinds of tokens, and these are equal. -/
theorem kind_eq (h : R t u) : t.kind = u.kind := congrArg Spelling.kind (hR t u h)

/-- Values are made of the texts of tokens, and these are equal. -/
theorem text_eq (h : R t u) : t.text = u.text := congrArg Spelling.text (hR t u h)

end Spelled

variable (hR : Spelled R)

include hR

theorem uniform_peek : Uniform R peek := by
  intro ts us hts
  refine ⟨?_, hts, .nil⟩
  cases hts with
  | nil => rfl
  | cons ht _ => exact hR.kind_eq ht

theorem uniform_expected (what : String) : Uniform R (expected what) := by
  intro ts us hts
  have htext : ts.head?.map (·.text) = us.head?.map (·.text) := by
    cases hts with
    | nil => rfl
    | cons ht _ => exact congrArg some (hR.text_eq ht)
  exact ⟨rfl, hts, .cons ⟨congrArg (Issue.unexpected what) htext, alike_headSpan hts⟩ .nil⟩

theorem uniform_expect (kind : Kind) : Uniform R (expect kind) :=
  (uniform_peek hR).bind fun _ => uniform_advance.ite (uniform_expected hR _)

theorem uniform_name : Uniform R name := by
  have hmissing : Uniform R (expected "a name" *> pure "" : Production String) :=
    (uniform_expected hR _).seqRight (uniform_pure _)
  refine alike_current.bind fun t? u? htu => ?_
  cases htu with
  | none => exact hmissing
  | some htu =>
    simp only [hR.kind_eq htu, hR.text_eq htu]
    exact (uniform_advance.seqRight (uniform_pure _)).ite hmissing

/-! ## Loops and nesting -/

/-- A loop stops at related tokens, and steps over related tokens. -/
theorem uniform_iterate {stop : Kind → Bool} {step : σ → Production σ}
    (h : ∀ s, Uniform R (step s)) (s : σ) : Uniform R (iterate stop step s) := by
  intro ts us hts
  fun_induction iterate stop step s ts generalizing us with
  | case1 s =>
    cases hts
    rw [iterate_nil]
    exact ⟨rfl, .nil, .nil⟩
  | case2 s t ts hstop =>
    obtain ⟨u, us, htu, hrest, rfl⟩ := List.forall₂_cons_left_iff.1 hts
    rw [iterate_of_stop (hR.kind_eq htu ▸ hstop)]
    exact ⟨rfl, hts, .nil⟩
  | case3 s t ts hstop first rest more ih =>
    obtain ⟨u, us, htu, hmore, rfl⟩ := List.forall₂_cons_left_iff.1 hts
    obtain ⟨hvalue, hleft, hreports⟩ := h s _ _ hts
    have hrest : List.Forall₂ R rest
        (if (step s (u :: us)).rest.length ≤ us.length then (step s (u :: us)).rest else us) := by
      show List.Forall₂ R (if first.rest.length ≤ ts.length then first.rest else ts) _
      rw [hleft.length_eq, hmore.length_eq]
      split
      · exact hleft
      · exact hmore
    obtain ⟨hvalue', hrest', hreports'⟩ := ih _ hrest
    rw [iterate, if_neg (hR.kind_eq htu ▸ hstop)]
    simp only [← hvalue]
    exact ⟨hvalue', hrest', List.rel_append hreports hreports'⟩

/-- A loop that collects items is uniform if its items are. -/
theorem uniform_many {stop : Kind → Bool} {item : Production α} (h : Uniform R item) :
    Uniform R (many stop item) :=
  uniform_iterate hR (fun _ => h.bind fun _ => uniform_pure _) []

omit hR in
/-- A nested phrase is uniform if it is at each depth. -/
theorem uniform_nested {p : Nat → Production α} (h : ∀ depth, Uniform R (p depth)) :
    Uniform R (nested p) := by
  intro ts us hts
  rw [nested, nested, hts.length_eq]
  exact h _ ts us hts

/-- Items between two brackets. -/
theorem uniform_group {stop : Kind → Bool} {item : Production α} {kind : Kind} {f : List α → β}
    (h : Uniform R item) :
    Uniform R (do
      advance
      let items ← many stop item
      expect kind
      pure (f items) : Production β) :=
  uniform_advance.bind fun _ => (uniform_many hR h).bind fun _ =>
    (uniform_expect hR _).bind fun _ => uniform_pure _

/-! ## Groups in braces -/

/-- What is left behind the end of a group starts at the same token on both sides. -/
theorem forall₂_closeBraces {ts us : List Token} (h : List.Forall₂ R ts us) (depth : Nat) :
    List.Forall₂ R (closeBraces depth ts) (closeBraces depth us) := by
  induction h generalizing depth with
  | nil => exact .nil
  | @cons t u ts us htu hmore ih =>
    rw [closeBraces.eq_def depth (t :: ts), closeBraces.eq_def depth (u :: us)]
    simp only [hR.kind_eq htu]
    split
    · exact ih _
    · split
      · cases depth with
        | zero => exact hmore
        | succ depth => exact ih depth
      · exact ih depth

theorem forall₂_skipBraces (ts us : List Token) (h : List.Forall₂ R ts us) :
    List.Forall₂ R (skipBraces ts) (skipBraces us) := by
  cases h with
  | nil => exact .nil
  | cons htu hmore =>
    rw [skipBraces, skipBraces, hR.kind_eq htu]
    split
    · exact forall₂_closeBraces hR hmore 0
    · exact .cons htu hmore

/-- A skipped definition ends at the same token on both sides. -/
theorem forall₂_skipDefinition (ts us : List Token) (h : List.Forall₂ R ts us) :
    List.Forall₂ R (skipDefinition ts) (skipDefinition us) := by
  refine forall₂_skipBraces hR _ _ ?_
  induction h with
  | nil => exact .nil
  | cons htu hmore ih =>
    rw [List.dropWhile_cons, List.dropWhile_cons, hR.kind_eq htu]
    split
    · exact ih
    · exact .cons htu hmore

/-! ## Types -/

theorem uniform_typeOf {element : Production TypeRef} (h : Uniform R element) :
    Uniform R (typeOf element) := by
  have hclose : ∀ t : TypeRef, Uniform R (do
      if (← peek) = .punctuator .bang then do
        advance
        pure (.nonNull t)
      else pure t : Production TypeRef) := fun t =>
    (uniform_peek hR).bind fun _ =>
      (uniform_advance.bind fun _ => uniform_pure _).ite (uniform_pure _)
  refine (uniform_peek hR).bind fun _ => .ite ?_ ?_
  · exact uniform_advance.bind fun _ => h.bind fun _ => (uniform_expect hR _).bind fun _ =>
      (uniform_pure _).bind hclose
  · exact (uniform_name hR).bind fun _ => (uniform_pure _).bind hclose

theorem uniform_typeWithin (depth : Nat) : Uniform R (typeWithin depth) := by
  induction depth with
  | zero => exact uniform_pure _
  | succ depth ih => exact uniform_typeOf hR ih

theorem uniform_type : Uniform R type := uniform_nested (uniform_typeWithin hR)

/-! ## Values -/

theorem uniform_entry {value : Production Value} (h : Uniform R value) :
    Uniform R (entry value) :=
  (uniform_name hR).bind fun _ => (uniform_expect hR _).bind fun _ => h.bind fun _ => uniform_pure _

theorem alike_variableOf (constant : Bool) {t u : Token} (h : R t u) :
    Alike R Eq (variableOf constant t) (variableOf constant u) := by
  refine uniform_advance.bind_alike fun _ => (uniform_name hR).bind_alike fun name => .ite ?_ ?_
  · refine (alike_report _ (.some ⟨t, u, h, rfl, rfl⟩)).bind fun _ _ _ => ?_
    exact uniform_pure _
  · exact uniform_pure _

theorem ofToken?_eq {t u : Token} (h : R t u) : Literal.ofToken? t = Literal.ofToken? u := by
  unfold Literal.ofToken?
  rw [hR.kind_eq h, hR.text_eq h]

/-- A value is uniform if the values inside it are. -/
theorem uniform_valueOf {constant : Bool} {item : Production Value} (h : Uniform R item) :
    Uniform R (valueOf constant item) := by
  have hother : ∀ v : Value, Uniform R (expected "a value" *> advance *> pure v) := fun v =>
    ((uniform_expected hR _).seqRight uniform_advance).seqRight (uniform_pure v)
  refine alike_current.bind fun t? u? htu => ?_
  cases htu with
  | none => exact (uniform_expected hR _).seqRight (uniform_pure _)
  | @some t u htu =>
    have hkind := hR.kind_eq htu
    have htext := hR.text_eq htu
    have hliteral := ofToken?_eq hR htu
    cases hu : Literal.ofToken? u with
    | some literal =>
      simp only [hliteral.trans hu, hu]
      exact ((uniform_reportHere _).seqRight uniform_advance).seqRight (uniform_pure _)
    | none =>
      simp only [hliteral.trans hu, hu, hkind, htext]
      split
      · exact alike_variableOf hR constant htu
      · exact uniform_group hR h
      · exact uniform_group hR (uniform_entry hR h)
      · exact (uniform_advance.seqRight (uniform_pure _)).ite (hother _)

theorem uniform_valueWithin (constant : Bool) (depth : Nat) :
    Uniform R (valueWithin constant depth) := by
  induction depth with
  | zero => exact uniform_pure _
  | succ depth ih => exact uniform_valueOf hR ih

theorem uniform_value (constant : Bool) : Uniform R (value constant) :=
  uniform_nested (uniform_valueWithin hR constant)

/-! ## Arguments and directives -/

theorem uniform_arguments : Uniform R arguments :=
  (uniform_peek hR).bind fun _ => .ite
    (uniform_group hR ((uniform_entry hR (uniform_value hR false)).bind fun _ => uniform_pure _))
    (uniform_pure _)

theorem uniform_directives : Uniform R directives :=
  uniform_many hR (uniform_advance.bind fun _ => (uniform_name hR).bind fun _ =>
    (uniform_arguments hR).bind fun _ => uniform_pure _)

/-! ## Selections -/

/-- A field is uniform if its selection is. -/
theorem uniform_field {selection : Production (List Field)} (h : Uniform R selection) :
    Uniform R (field selection) := by
  have hrest : ∀ head : Option String × String, Uniform R (do
      let args ← arguments
      let dirs ← directives
      let fields ← if (← peek) = .punctuator .braceOpen then some <$> selection else pure none
      pure ⟨head.1, head.2, args, dirs, fields⟩ : Production Field) := fun head =>
    (uniform_arguments hR).bind fun _ => (uniform_directives hR).bind fun _ =>
      (uniform_peek hR).bind fun _ => .ite ((h.map _).bind fun _ => uniform_pure _)
        ((uniform_pure _).bind fun _ => uniform_pure _)
  refine (uniform_name hR).bind fun _ => (uniform_peek hR).bind fun _ => .ite ?_ ?_
  · exact uniform_advance.bind fun _ => (uniform_name hR).bind fun _ => (uniform_pure _).bind hrest
  · exact (uniform_pure _).bind hrest

theorem uniform_skipFragmentSelection : Uniform R skipFragmentSelection := by
  have hafter : Uniform R (do
      let _ ← directives
      skip skipBraces : Production Unit) :=
    (uniform_directives hR).bind fun _ => uniform_skip (forall₂_skipBraces hR)
  refine uniform_advance.bind fun _ => (uniform_peek hR).bind fun _ => .ite ?_ (.ite ?_ ?_)
  · exact (uniform_advance.seqRight ((uniform_name hR).map _)).bind fun _ => hafter
  · exact uniform_advance.bind fun _ => hafter
  · exact hafter

/-- A step in a selection takes a field, or steps over a fragment. -/
theorem uniform_selectionStep {selection : Production (List Field)} (h : Uniform R selection)
    (kept : List Field) : Uniform R (selectionStep selection kept) := by
  refine (uniform_peek hR).bind fun _ => .ite ?_ ?_
  · exact (uniform_reportHere _).bind fun _ => (uniform_skipFragmentSelection hR).bind fun _ =>
      uniform_pure kept
  · exact (uniform_field hR h).bind fun _ => uniform_pure _

theorem uniform_selectionOf {inner : Production (List Field)} (h : Uniform R inner) :
    Uniform R (selectionOf inner) := by
  refine (uniform_peek hR).bind fun _ => .ite ?_ ?_
  · exact uniform_advance.bind fun _ =>
      (uniform_iterate hR (uniform_selectionStep hR h) []).bind fun _ =>
        (uniform_expect hR _).bind fun _ =>
          .ite ((uniform_reportHere _).bind fun _ => uniform_pure _) (uniform_pure _)
  · exact (uniform_expected hR _).seqRight (uniform_pure _)

theorem uniform_selectionWithin (depth : Nat) : Uniform R (selectionWithin depth) := by
  induction depth with
  | zero => exact uniform_pure _
  | succ depth ih => exact uniform_selectionOf hR ih

theorem uniform_selection : Uniform R selection := uniform_nested (uniform_selectionWithin hR)

/-! ## Operations -/

theorem uniform_variableDefinition : Uniform R variableDefinition := by
  refine (uniform_expect hR _).bind fun _ => (uniform_name hR).bind fun _ =>
    (uniform_expect hR _).bind fun _ => (uniform_type hR).bind fun _ =>
      (uniform_peek hR).bind fun _ => .ite ?_ ?_
  · exact (uniform_advance.seqRight ((uniform_value hR true).map some)).bind fun _ =>
      uniform_pure _
  · exact (uniform_pure _).bind fun _ => uniform_pure _

theorem uniform_variableStep (kept : List VariableDefinition) :
    Uniform R (variableStep kept) := by
  refine alike_here.bind fun _ _ hs =>
    (uniform_variableDefinition hR).bind_alike fun _ => .ite ?_ ?_
  · rw [seqRight_eq_bind, seqRight_eq_bind]
    exact (alike_report _ hs).bind fun _ _ _ => uniform_pure kept
  · exact uniform_pure _

theorem uniform_variableDefinitions : Uniform R variableDefinitions :=
  (uniform_peek hR).bind fun _ => .ite
    (uniform_advance.bind fun _ => (uniform_iterate hR (uniform_variableStep hR) []).bind fun _ =>
      (uniform_expect hR _).bind fun _ => uniform_pure _)
    (uniform_pure _)

theorem uniform_operationDirectives : Uniform R operationDirectives :=
  (uniform_peek hR).bind fun _ => .ite
    (alike_here.bind fun _ _ hs => (uniform_directives hR).bind_alike fun _ => alike_report _ hs)
    (uniform_pure _)

theorem uniform_operation : Uniform R operation := by
  have hplain : Uniform R plainOperation := by
    refine (uniform_peek hR).bind fun _ => .ite ?_ ?_
    · exact (uniform_selection hR).bind fun _ => uniform_pure _
    · exact uniform_advance.bind fun _ =>
        (Uniform.bind (uniform_peek hR) fun _ =>
          ((uniform_name hR).map some).ite (uniform_pure _)).bind fun _ =>
        (uniform_variableDefinitions hR).bind fun _ => (uniform_operationDirectives hR).bind
          fun _ => (uniform_selection hR).bind fun _ => uniform_pure _
  exact hplain.bind fun _ => (uniform_reportHere _).bind fun _ => uniform_pure _

theorem uniform_definitionStep (kept : List Operation) : Uniform R (definitionStep kept) := by
  refine (uniform_peek hR).bind fun _ => .ite ?_ (.ite ?_ ?_)
  · exact (uniform_operation hR).bind fun _ => uniform_pure _
  · exact (uniform_reportHere _).bind fun _ =>
      (uniform_skip (forall₂_skipDefinition hR)).bind fun _ => uniform_pure _
  · exact (uniform_expected hR _).bind fun _ => uniform_advance.bind fun _ => uniform_pure _

/-- A document is read alike from lists of tokens of the same kinds and texts. -/
theorem uniform_document : Uniform R document :=
  (uniform_iterate hR (uniform_definitionStep hR) []).bind fun _ => uniform_pure _

end Production

end QueryBatch
