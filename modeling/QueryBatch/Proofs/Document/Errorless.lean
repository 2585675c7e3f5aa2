import QueryBatch.Proofs.Document.Reading
import QueryBatch.Proofs.Document.Tree

/-!
# Readings without an error

A reading that reports no error tells which tokens were there: those of one phrase after the other.
Main statements:

* `Production.exists_of_bind`: productions in sequence give a value only if each of them does;
* `Production.exists_of_expect`, `Production.exists_of_name`: a token that is asked for is there;
* `Production.exists_of_iterate`: a loop uses the tokens of one tree after the other;
* `Production.exists_of_group`: items in brackets are those of an enclosed sequence of trees.
-/

namespace QueryBatch

/-- A reading gives a value and leaves some tokens, and none of its reports is an error. -/
structure Reading.Gives {α : Type} (r : Reading α) (a : α) (rest : List Token) : Prop where
  value : r.value = a
  rest : r.rest = rest
  errorless : ∀ report ∈ r.reports, report.isError = false

namespace Production

open Grammar

variable {α β τ : Type} {m : Punctuator} {ts rest : List Token} {b : β} {leaves : τ → List Token}

/-! ## Single steps -/

theorem exists_of_bind {p : Production α} {f : α → Production β}
    (h : ((p >>= f) ts).Gives b rest) :
    ∃ a mid, (p ts).Gives a mid ∧ (f a mid).Gives b rest := by
  rw [bind_apply] at h
  exact ⟨_, _, ⟨rfl, rfl, fun r hr => h.errorless r (List.mem_append_left _ hr)⟩,
    ⟨h.value, h.rest, fun r hr => h.errorless r (List.mem_append_right _ hr)⟩⟩

theorem eq_of_pure {a : β} (h : ((pure a : Production β) ts).Gives b rest) :
    b = a ∧ rest = ts := ⟨h.value.symm, h.rest.symm⟩

theorem exists_of_map {p : Production α} {f : α → β} (h : ((f <$> p) ts).Gives b rest) :
    ∃ a, (p ts).Gives a rest ∧ b = f a := by
  rw [map_eq_pure_bind] at h
  obtain ⟨a, mid, ha, h⟩ := exists_of_bind h
  obtain ⟨rfl, rfl⟩ := eq_of_pure h
  exact ⟨a, ha, rfl⟩

/-- Where something else is expected, there is an error. -/
theorem not_gives_expected {what : String} {f : Unit → Production β} :
    ¬ ((expected what >>= f) ts).Gives b rest := by
  intro h
  obtain ⟨_, _, hreport, -⟩ := exists_of_bind h
  cases hreport.errorless _ List.mem_cons_self

/-- What was reported on the way was no error. -/
theorem severity_of_report {issue : Issue} {span : Option Span} {f : Unit → Production β}
    (h : ((report issue span >>= f) ts).Gives b rest) : issue.severity ≠ .error := by
  obtain ⟨_, _, hreport, -⟩ := exists_of_bind h
  intro hseverity
  have herror := hreport.errorless _ List.mem_cons_self
  rw [Report.isError, hseverity] at herror
  cases herror

theorem severity_of_reportHere {issues : List Issue} {f : Unit → Production β}
    (h : ((reportHere issues >>= f) ts).Gives b rest) :
    ∀ issue ∈ issues, issue.severity ≠ .error := by
  obtain ⟨_, _, hreport, -⟩ := exists_of_bind h
  intro issue hissue hseverity
  have herror := hreport.errorless _ (List.mem_map_of_mem hissue)
  rw [Report.isError, hseverity] at herror
  cases herror

theorem exists_mark (h : headKind ts = .punctuator m) : ∃ (t : Mark m) (us : List Token),
    ts = t.1 :: us := by
  cases ts with
  | nil => cases h
  | cons t us => exact ⟨⟨t, h⟩, us, rfl⟩

theorem exists_of_expect {f : Unit → Production β}
    (h : ((expect (.punctuator m) >>= f) ts).Gives b rest) :
    ∃ (t : Mark m) (us : List Token), ts = t.1 :: us ∧ (f () us).Gives b rest := by
  by_cases hkind : headKind ts = .punctuator m
  · obtain ⟨t, us, rfl⟩ := exists_mark hkind
    rw [expect_bind t.2] at h
    exact ⟨t, us, rfl, h⟩
  · rw [expect, bind_assoc, peek_bind, if_neg hkind] at h
    exact absurd h not_gives_expected

theorem exists_of_name {f : String → Production β} (h : ((name >>= f) ts).Gives b rest) :
    ∃ (t : NameToken) (us : List Token), ts = t.1 :: us ∧ (f t.1.text us).Gives b rest := by
  cases ts with
  | nil =>
    rw [name, bind_assoc, current_bind] at h
    simp only [List.head?_nil, seqRight_eq_bind, bind_assoc] at h
    exact absurd h not_gives_expected
  | cons t us =>
    by_cases hkind : t.kind.isName = true
    · rw [name_bind hkind] at h
      exact ⟨⟨t, hkind⟩, us, rfl, h⟩
    · rw [name, bind_assoc, current_bind] at h
      simp only [List.head?_cons, if_neg hkind, seqRight_eq_bind, bind_assoc] at h
      exact absurd h not_gives_expected

/-! ## Loops -/

/-- A loop ends where the tokens do, or at a token where to stop. -/
theorem rest_iterate {σ : Type} (stop : Kind → Bool) (step : σ → Production σ) (s : σ)
    (ts : List Token) : (iterate stop step s ts).rest = [] ∨
      stop (headKind (iterate stop step s ts).rest) = true := by
  fun_induction iterate stop step s ts with
  | case1 s => exact .inl rfl
  | case2 s t ts hstop => exact .inr hstop
  | case3 s t ts hstop first rest more ih => exact ih

/-- A loop that keeps what each step reads, where no phrase is empty. A step may keep a condition on
what was kept. -/
theorem exists_of_iterate {value : τ → α} {stop : Kind → Bool}
    {step : List α → Production (List α)} (keeps : List α → Prop) {n : Nat}
    (hpos : ∀ t, 0 < (leaves t).length)
    (hstep : ∀ kept ts kept' rest, ts.length ≤ n → keeps kept → stop (headKind ts) = false →
      (step kept ts).Gives kept' rest →
        ∃ t, ts = leaves t ++ rest ∧ kept' = kept ++ [value t] ∧ keeps kept')
    {kept kept' : List α} (hlen : ts.length ≤ n) (hkept : keeps kept)
    (h : (iterate stop step kept ts).Gives kept' rest) :
    ∃ trees : List τ, ts = trees.flatMap leaves ++ rest ∧ kept' = kept ++ trees.map value ∧
      keeps kept' := by
  induction hts : ts.length using Nat.strongRecOn generalizing ts kept with
  | ind length ih =>
    subst hts
    cases ts with
    | nil =>
      rw [iterate_nil] at h
      obtain ⟨rfl, rfl⟩ := eq_of_pure h
      exact ⟨[], rfl, (List.append_nil _).symm, hkept⟩
    | cons t us =>
      cases hstop : stop t.kind with
      | true =>
        rw [iterate_of_stop hstop] at h
        obtain ⟨rfl, rfl⟩ := eq_of_pure h
        exact ⟨[], rfl, (List.append_nil _).symm, hkept⟩
      | false =>
        rw [iterate, if_neg (by rw [hstop]; exact Bool.false_ne_true)] at h
        obtain ⟨tree, hfirst, hvalue, hkeeps⟩ := hstep kept (t :: us) _ _ hlen hkept hstop
          ⟨rfl, rfl, fun r hr => h.errorless r (List.mem_append_left _ hr)⟩
        have htree := hpos tree
        have hshort := congrArg List.length hfirst
        rw [List.length_cons, List.length_append] at hshort
        rw [List.length_cons] at hlen
        simp only [if_pos (show (step kept (t :: us)).rest.length ≤ us.length by omega)] at h
        obtain ⟨trees, hrest, hall, hkeeps'⟩ := ih _ (by rw [List.length_cons]; omega)
          (by omega) hkeeps ⟨h.value, h.rest, fun r hr => h.errorless r
            (List.mem_append_right _ hr)⟩ rfl
        refine ⟨tree :: trees, ?_, ?_, hkeeps'⟩
        · rw [List.flatMap_cons, List.append_assoc, ← hrest, ← hfirst]
        · rw [hall, hvalue, List.append_assoc]
          rfl

theorem exists_of_steps {value : τ → α} {stop : Kind → Bool}
    {step : List α → Production (List α)} {n : Nat} (hpos : ∀ t, 0 < (leaves t).length)
    (hstep : ∀ kept ts kept' rest, ts.length ≤ n → stop (headKind ts) = false →
      (step kept ts).Gives kept' rest → ∃ t, ts = leaves t ++ rest ∧ kept' = kept ++ [value t])
    {kept kept' : List α} (hlen : ts.length ≤ n)
    (h : (iterate stop step kept ts).Gives kept' rest) :
    ∃ trees : List τ, ts = trees.flatMap leaves ++ rest ∧ kept' = kept ++ trees.map value := by
  obtain ⟨trees, hts, hkept, -⟩ := exists_of_iterate (fun _ => True) hpos
    (fun kept ts kept' rest hn _ hstop hgives => by
      obtain ⟨t, hts, hkept⟩ := hstep kept ts kept' rest hn hstop hgives
      exact ⟨t, hts, hkept, trivial⟩) hlen trivial h
  exact ⟨trees, hts, hkept⟩

theorem exists_of_many {value : τ → α} {stop : Kind → Bool} {item : Production α} {n : Nat}
    (hpos : ∀ t, 0 < (leaves t).length)
    (hitem : ∀ ts a rest, ts.length ≤ n → stop (headKind ts) = false → (item ts).Gives a rest →
      ∃ t, ts = leaves t ++ rest ∧ a = value t)
    {as : List α} (hlen : ts.length ≤ n) (h : (many stop item ts).Gives as rest) :
    ∃ trees : List τ, ts = trees.flatMap leaves ++ rest ∧ as = trees.map value := by
  refine exists_of_steps hpos (fun kept ts kept' rest hn hstop hstep => ?_) hlen h
  obtain ⟨a, mid, ha, hpure⟩ := exists_of_bind hstep
  obtain ⟨rfl, rfl⟩ := eq_of_pure hpure
  obtain ⟨t, hts, rfl⟩ := hitem ts a _ hn hstop ha
  exact ⟨t, hts, rfl⟩

/-- Items in brackets. -/
theorem exists_of_group {m n : Punctuator} {value : τ → α} {stop : Kind → Bool}
    {item : Production α} {f : List α → β} {us : List Token} (o : Mark m)
    (hpos : ∀ t, 0 < (leaves t).length)
    (hitem : ∀ ts a rest, ts.length ≤ us.length → stop (headKind ts) = false →
      (item ts).Gives a rest → ∃ t, ts = leaves t ++ rest ∧ a = value t)
    (h : ((do
      advance
      let as ← many stop item
      expect (.punctuator n)
      pure (f as)) (o.1 :: us)).Gives b rest) :
    ∃ e : Enclosed m n τ, o.1 :: us = e.tokens leaves ++ rest ∧ b = f (e.items.map value) := by
  rw [advance_bind, List.tail_cons] at h
  obtain ⟨as, mid, has, hmore⟩ := exists_of_bind h
  obtain ⟨trees, rfl, rfl⟩ := exists_of_many hpos hitem (Nat.le_refl _) has
  obtain ⟨c, vs, rfl, hpure⟩ := exists_of_expect hmore
  obtain ⟨rfl, rfl⟩ := eq_of_pure hpure
  exact ⟨⟨o, trees, c⟩, by simp [Enclosed.tokens], rfl⟩

end Production

end QueryBatch
