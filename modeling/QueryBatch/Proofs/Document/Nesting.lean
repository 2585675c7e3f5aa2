import QueryBatch.Proofs.Document.Consumption
import QueryBatch.Proofs.Document.Errorless

/-!
# The bound of a nested production is not reached

A production that may be nested runs with a bound for its depth. It reads less than it was given
before it is entered again, so that the bound does not matter: it is the one solution of its own
equation. Main statements:

* `Production.AgreeBelow.iterate`: loops agree as far as their steps do;
* `Production.recurs_nested`: a nested production solves its equation if its body shortens what it
  hands on;
* `Production.Recurs.unique`: such an equation has no other solution;
* `Production.recurs_type`, `Production.recurs_value`, `Production.recurs_selection`: this is so for
  types, values and selections.
-/

namespace QueryBatch

namespace Production

variable {α β σ : Type}

/-! ## Productions that agree on few tokens -/

/-- Two productions read less than `n` tokens in the same way. -/
def AgreeBelow (n : Nat) (p q : Production α) : Prop := ∀ ts, ts.length < n → p ts = q ts

namespace AgreeBelow

variable {n : Nat} {p q : Production α}

theorem refl (n : Nat) (p : Production α) : AgreeBelow n p p := fun _ _ => rfl

theorem mono {m : Nat} (h : AgreeBelow n p q) (hle : m ≤ n) : AgreeBelow m p q :=
  fun ts hts => h ts (by omega)

theorem bind {f g : α → Production β} (hp : p.Consumes) (h : ∀ a, AgreeBelow n (f a) (g a)) :
    AgreeBelow n (p >>= f) (p >>= g) := by
  intro ts hts
  have hlen := (hp ts).length_le
  rw [bind_apply, bind_apply, h (p ts).value (p ts).rest (by omega)]

theorem bind_left (h : AgreeBelow n p q) (f : α → Production β) :
    AgreeBelow n (p >>= f) (q >>= f) := by
  intro ts hts
  rw [bind_apply, bind_apply, h ts hts]

theorem map (h : AgreeBelow n p q) (f : α → β) : AgreeBelow n (f <$> p) (f <$> q) := by
  rw [map_eq_pure_bind, map_eq_pure_bind]
  exact h.bind_left _

theorem ite {c : Prop} [Decidable c] {p' q' : Production α} (h : AgreeBelow n p q)
    (h' : AgreeBelow n p' q') : AgreeBelow n (if c then p else p') (if c then q else q') := by
  split
  · exact h
  · exact h'

/-- Loops whose steps agree on few tokens agree there, by induction on the tokens. -/
theorem iterate {stop : Kind → Bool} {step step' : σ → Production σ}
    (h : ∀ s, AgreeBelow n (step s) (step' s)) (s : σ) :
    AgreeBelow n (iterate stop step s) (Production.iterate stop step' s) := by
  intro ts hts
  fun_induction Production.iterate stop step s ts with
  | case1 s => rw [iterate_nil]
  | case2 s t ts hstop => rw [iterate_of_stop hstop]
  | case3 s t ts hstop first rest more ih =>
    have hfirst : first = step' s (t :: ts) := h s (t :: ts) hts
    have hrest : rest.length ≤ ts.length := by
      show (if first.rest.length ≤ ts.length then first.rest else ts).length ≤ ts.length
      split <;> omega
    rw [List.length_cons] at hts
    rw [Production.iterate, if_neg hstop, ← hfirst]
    simp only [more, ih (by omega)]
    rfl

theorem many {stop : Kind → Bool} (h : AgreeBelow n p q) :
    AgreeBelow n (many stop p) (Production.many stop q) :=
  iterate (fun _ => h.bind_left _) []

end AgreeBelow

/-! ## Bodies that shorten what they hand on -/

/-- What a body makes of some tokens depends only on what the production inside it makes of fewer
ones. -/
def Shrinks (body : Production α → Production α) : Prop :=
  ∀ p q ts, AgreeBelow ts.length p q → body p ts = body q ts

/-- Behind a token that is stepped over there are fewer ones. -/
theorem advance_bind_congr {f g : Unit → Production β} {t : Token} {ts : List Token}
    (h : AgreeBelow (t :: ts).length (f ()) (g ())) :
    (advance >>= f) (t :: ts) = (advance >>= g) (t :: ts) := by
  rw [advance_bind, advance_bind]
  exact h ts (Nat.lt_succ_self _)

/-- A production is its body around itself, and enters itself with fewer tokens each time. -/
structure Recurs (p : Production α) (body : Production α → Production α) : Prop where
  unfolds : p = body p
  shrinks : Shrinks body

/-- The equation of a recursion through shorter tokens has one solution. -/
theorem Recurs.unique {p q : Production α} {body : Production α → Production α}
    (h : Recurs p body) (hq : q = body q) : q = p := by
  -- By induction on the number of tokens: what is nested has fewer of them.
  have hagree : ∀ n, AgreeBelow n q p := by
    intro n
    induction n with
    | zero => exact fun ts hts => absurd hts (Nat.not_lt_zero _)
    | succ n ih =>
      intro ts hts
      rw [hq, h.unfolds]
      exact h.shrinks q p ts (ih.mono (by omega))
  exact funext fun ts => hagree (ts.length + 1) ts (Nat.lt_succ_self _)

/-- Bounds that exceed the number of tokens give the same. -/
theorem within_eq_within {within : Nat → Production α} {body : Production α → Production α}
    (hsucc : ∀ depth, within (depth + 1) = body (within depth)) (h : Shrinks body)
    {m n : Nat} {ts : List Token} (hm : ts.length < m) (hn : ts.length < n) :
    within m ts = within n ts := by
  induction m generalizing n ts with
  | zero => exact absurd hm (Nat.not_lt_zero _)
  | succ m ih =>
    obtain ⟨n, rfl⟩ : ∃ k, n = k + 1 := ⟨n - 1, by omega⟩
    rw [hsucc, hsucc]
    exact h _ _ ts fun us hus => ih (by omega) (by omega)

/-- Counting the depth down is a recursion through shorter tokens. -/
theorem recurs_nested {within : Nat → Production α} {body : Production α → Production α}
    (hsucc : ∀ depth, within (depth + 1) = body (within depth)) (h : Shrinks body) :
    Recurs (nested within) body := by
  refine ⟨funext fun ts => ?_, h⟩
  -- The bound of the body is the number of tokens, and what is nested would take a smaller one.
  show within (ts.length + 1) ts = body (nested within) ts
  rw [hsucc]
  exact h _ _ ts fun us hus => within_eq_within hsucc h hus (Nat.lt_succ_self _)

/-! ## Types, values and selections -/

theorem shrinks_typeOf : Shrinks typeOf := by
  intro p q ts h
  rw [typeOf, typeOf, peek_bind, peek_bind]
  split
  · rename_i hopen
    obtain ⟨t, us, rfl⟩ := exists_mark hopen
    exact advance_bind_congr (h.bind_left _)
  · rfl

theorem shrinks_valueOf (constant : Bool) : Shrinks (valueOf constant) := by
  intro p q ts h
  rw [valueOf, valueOf, current_bind, current_bind]
  cases ts with
  | nil => rfl
  | cons t ts =>
    cases hliteral : Literal.ofToken? t with
    | some literal => simp only [List.head?_cons, hliteral]
    | none =>
      simp only [List.head?_cons, hliteral]
      cases hkind : t.kind with
      | punctuator mark =>
        cases mark with
        | bracketOpen => exact advance_bind_congr (h.many.bind_left _)
        | braceOpen =>
          have hentry : AgreeBelow (t :: ts).length (entry p) (entry q) :=
            .bind consumes_name fun _ => .bind (consumes_expect _) fun _ => h.bind_left _
          exact advance_bind_congr (hentry.many.bind_left _)
        | _ => rfl
      | _ => rfl

/-- Fields agree as far as the selections inside them do. -/
theorem agreeBelow_field {n : Nat} {p q : Production (List Field)} (h : AgreeBelow n p q) :
    AgreeBelow n (field p) (field q) := by
  have hrest : ∀ head : Option String × String, AgreeBelow n
      (do
        let args ← arguments
        let dirs ← directives
        let fields ← if (← peek) = .punctuator .braceOpen then some <$> p else pure none
        pure ⟨head.1, head.2, args, dirs, fields⟩ : Production Field)
      (do
        let args ← arguments
        let dirs ← directives
        let fields ← if (← peek) = .punctuator .braceOpen then some <$> q else pure none
        pure ⟨head.1, head.2, args, dirs, fields⟩) := fun head =>
    .bind consumes_arguments fun _ => .bind consumes_directives fun _ => .bind consumes_peek
      fun _ => .ite ((h.map some).bind_left _) (.refl n _)
  refine .bind consumes_name fun first => .bind consumes_peek fun _ => .ite ?_ ?_
  · exact .bind consumes_advance fun _ => .bind consumes_name fun _ =>
      .bind (consumes_pure _) hrest
  · exact .bind (consumes_pure _) hrest

theorem agreeBelow_selectionStep {n : Nat} {p q : Production (List Field)} (h : AgreeBelow n p q)
    (kept : List Field) : AgreeBelow n (selectionStep p kept) (selectionStep q kept) :=
  .bind consumes_peek fun _ => .ite (.refl n _) ((agreeBelow_field h).bind_left _)

/-- A nested selection stands behind at least a brace. -/
theorem shrinks_selectionOf : Shrinks selectionOf := by
  intro p q ts h
  rw [selectionOf, selectionOf, peek_bind, peek_bind]
  split
  · rename_i hopen
    obtain ⟨t, us, rfl⟩ := exists_mark hopen
    exact advance_bind_congr ((AgreeBelow.iterate (agreeBelow_selectionStep h) []).bind_left _)
  · rfl

theorem recurs_type : Recurs type typeOf := recurs_nested typeWithin_succ shrinks_typeOf

theorem recurs_value (constant : Bool) : Recurs (value constant) (valueOf constant) :=
  recurs_nested (valueWithin_succ constant) (shrinks_valueOf constant)

theorem recurs_selection : Recurs selection selectionOf :=
  recurs_nested selectionWithin_succ shrinks_selectionOf

end Production

end QueryBatch
