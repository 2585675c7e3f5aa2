import QueryBatch.Document.Issue
import QueryBatch.Token.Basic

/-!
# Productions

A `Production` reads the next tokens of a source. It always gives a value: where the tokens are not
as they should be, it reports that and goes on. Main statements:

* `Production.instLawfulMonad`: productions in sequence collect their reports in order;
* `Production.iterate_of_stop`, `Production.iterate_of_step`: the two steps of a loop.
-/

namespace QueryBatch

/-- What a production gives: a value, the tokens after those that it used, and its reports. -/
structure Reading (α : Type) where
  value : α
  rest : List Token
  reports : List Report

def Production (α : Type) : Type := List Token → Reading α

namespace Production

variable {α β σ : Type}

instance : Monad Production where
  pure a := fun ts => ⟨a, ts, []⟩
  bind p f := fun ts =>
    let first := p ts
    let second := f first.value first.rest
    ⟨second.value, second.rest, first.reports ++ second.reports⟩

theorem pure_apply (a : α) (ts : List Token) : (pure a : Production α) ts = ⟨a, ts, []⟩ := rfl

theorem bind_apply (p : Production α) (f : α → Production β) (ts : List Token) :
    (p >>= f) ts =
      ⟨(f (p ts).value (p ts).rest).value, (f (p ts).value (p ts).rest).rest,
        (p ts).reports ++ (f (p ts).value (p ts).rest).reports⟩ := rfl

instance instLawfulMonad : LawfulMonad Production :=
  LawfulMonad.mk' Production
    (fun p => funext fun ts => by
      change (⟨(p ts).value, (p ts).rest, (p ts).reports ++ []⟩ : Reading _) = p ts
      rw [List.append_nil])
    (fun a f => funext fun ts => by simp [bind_apply, pure_apply])
    (fun p f g => funext fun ts => by simp [bind_apply])

/-! ## Single tokens -/

/-- The kind of the first token. -/
def headKind : List Token → Kind
  | [] => .eof
  | t :: _ => t.kind

/-- The span of the first token. -/
def headSpan : List Token → Option Span
  | [] => none
  | t :: _ => some t.span

/-- Looks at the kind of the next token. -/
def peek : Production Kind := fun ts => ⟨headKind ts, ts, []⟩

/-- Looks at the next token; there is none at the end. -/
def current : Production (Option Token) := fun ts => ⟨ts.head?, ts, []⟩

/-- The span of the next token. -/
def here : Production (Option Span) := fun ts => ⟨headSpan ts, ts, []⟩

/-- Steps over the next token. -/
def advance : Production Unit := fun ts => ⟨(), ts.tail, []⟩

def report (issue : Issue) (span : Option Span) : Production Unit :=
  fun ts => ⟨(), ts, [⟨issue, span⟩]⟩

/-- Reports issues at the next token. -/
def reportHere (issues : List Issue) : Production Unit :=
  fun ts => ⟨(), ts, issues.map (⟨·, headSpan ts⟩)⟩

/-- Reports that the next token is not what is wanted. -/
def expected (what : String) : Production Unit :=
  fun ts => ⟨(), ts, [⟨.unexpected what (ts.head?.map (·.text)), headSpan ts⟩]⟩

/-- Steps over a token of a kind, or reports that it is missing. -/
def expect (kind : Kind) : Production Unit := do
  if (← peek) = kind then advance else expected kind.text

/-- Steps over a name; the empty name stands for a missing one. -/
def name : Production String := do
  match ← current with
  | some t => if t.kind.isName then advance *> pure t.text else expected "a name" *> pure ""
  | none => expected "a name" *> pure ""

/-- Gives the tokens to a function that leaves some of them. -/
def skip (f : List Token → List Token) : Production Unit := fun ts => ⟨(), f ts, []⟩

/-! ## Loops -/

/-- Takes steps until the next token is of a kind where to stop, or the tokens end. A step that
uses no token is followed by stepping over one. -/
def iterate (stop : Kind → Bool) (step : σ → Production σ) (s : σ) : Production σ
  | [] => ⟨s, [], []⟩
  | t :: ts =>
    if stop t.kind then ⟨s, t :: ts, []⟩
    else
      let first := step s (t :: ts)
      let rest := if first.rest.length ≤ ts.length then first.rest else ts
      let more := iterate stop step first.value rest
      ⟨more.value, more.rest, first.reports ++ more.reports⟩
termination_by ts => ts.length
decreasing_by simp only [List.length_cons]; split <;> omega

/-- Reads items until the next token is of a kind where to stop. -/
def many (stop : Kind → Bool) (item : Production α) : Production (List α) :=
  iterate stop (fun kept => do return kept ++ [← item]) []

/-- Runs a production whose nesting is bounded by the number of tokens. -/
def nested (p : Nat → Production α) : Production α := fun ts => p (ts.length + 1) ts

theorem iterate_nil (stop : Kind → Bool) (step : σ → Production σ) (s : σ) :
    iterate stop step s [] = ⟨s, [], []⟩ := by rw [iterate]

theorem iterate_of_stop {stop : Kind → Bool} {t : Token} (h : stop t.kind = true)
    (step : σ → Production σ) (s : σ) (ts : List Token) :
    iterate stop step s (t :: ts) = ⟨s, t :: ts, []⟩ := by
  rw [iterate, if_pos h]

theorem iterate_of_step {stop : Kind → Bool} {step : σ → Production σ} {s : σ} {t : Token}
    {ts : List Token} (h : stop t.kind = false)
    (hlen : (step s (t :: ts)).rest.length ≤ ts.length) :
    iterate stop step s (t :: ts) =
      ⟨(iterate stop step (step s (t :: ts)).value (step s (t :: ts)).rest).value,
        (iterate stop step (step s (t :: ts)).value (step s (t :: ts)).rest).rest,
        (step s (t :: ts)).reports ++
          (iterate stop step (step s (t :: ts)).value (step s (t :: ts)).rest).reports⟩ := by
  rw [iterate]
  simp [h, hlen]

end Production

end QueryBatch
