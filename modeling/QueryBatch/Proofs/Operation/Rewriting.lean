import QueryBatch.Proofs.Operation.Validity

/-!
# Rewriting an operation step by step

A machine holds an operation, or none at first, and rewrites it in steps. Main statements:

* `Rewrite.valid_of_apply`: a step gives a valid operation if it had one, and its own operations and
  names are in order;
* `Rewrite.runs_valid`: so after any steps in any order the operation is valid and is what its text
  is read as, and a step that fails changes nothing.
-/

namespace QueryBatch

/-- A step of the machine. -/
inductive Rewrite
  | load (op : Operation)
  | setAlias (key : String)
  | rename (r : Renaming)
  | putInFront (front : String)
  | merge (op : Operation)
  | mergeAll (ops : List Operation)

namespace Rewrite

/-- What a step makes of the operation that the machine holds. Where there is none, there is nothing
to rewrite. -/
def apply (state : Option Operation) : Rewrite → Except BatchError (Option Operation)
  | load op => .ok (some op)
  | setAlias key => state.mapM fun op => (op.setAlias key).mapError .shape
  | rename r => state.mapM fun op => (op.rename r).mapError .collision
  | putInFront front => state.mapM fun op => (op.prefixed front).mapError .collision
  | merge op => some <$> Operation.mergeOnto state op
  | mergeAll ops => Operation.mergeAll ops

/-- What the machine holds after a step; if the step fails, what it held before. -/
def next (state : Option Operation) (step : Rewrite) : Option Operation :=
  match step.apply state with
  | .ok state => state
  | .error _ => state

/-- What the machine holds after some steps. -/
def run (steps : List Rewrite) : Option Operation := steps.foldl next none

/-- The operations of a step are valid and its names are words; a prefix may be empty. -/
def Admissible : Rewrite → Prop
  | load op | merge op => op.Valid
  | setAlias key => isWord key = true
  | rename r => ∀ e ∈ r.entries, isWord e.2 = true
  | putInFront front => front = "" ∨ isWord front = true
  | mergeAll ops => ∀ op ∈ ops, op.Valid

/-! ## Steps -/

variable {state state' : Option Operation} {step : Rewrite} {steps : List Rewrite}

theorem exists_of_mapM {ε : Type} {f : Operation → Except ε Operation} {g : ε → BatchError}
    (h : (state.mapM fun op => (f op).mapError g) = .ok state') {op' : Operation}
    (hop' : op' ∈ state') : ∃ op ∈ state, f op = .ok op' := by
  cases state with
  | none =>
    obtain rfl := Except.ok.inj h
    cases hop'
  | some op =>
    cases hf : f op with
    | error e =>
      rw [Option.mapM_some, hf] at h
      cases h
    | ok result =>
      rw [Option.mapM_some, hf] at h
      obtain rfl := Except.ok.inj h
      obtain rfl := Option.some.inj hop'
      exact ⟨op, rfl, hf⟩

theorem keepsWords_apply {r : Renaming} (h : ∀ e ∈ r.entries, isWord e.2 = true) :
    KeepsWords r.apply := by
  intro name hname
  cases hr : r.contains name with
  | true => exact h _ (Renaming.mem_entries_of_contains hr)
  | false => rwa [Renaming.apply_of_not_contains hr]

/-- A step keeps what the machine holds valid. -/
theorem valid_of_apply (hstep : step.Admissible) (hstate : ∀ op ∈ state, op.Valid)
    (h : step.apply state = .ok state') : ∀ op ∈ state', op.Valid := by
  intro op' hop'
  cases step with
  | load op =>
    obtain rfl := Except.ok.inj h
    obtain rfl := Option.some.inj hop'
    exact hstep
  | setAlias key =>
    obtain ⟨op, hop, hset⟩ := exists_of_mapM h hop'
    exact (hstate op hop).setAlias hstep hset
  | rename r =>
    obtain ⟨op, hop, hrename⟩ := exists_of_mapM h hop'
    exact (hstate op hop).rename (keepsWords_apply hstep) hrename
  | putInFront front =>
    obtain ⟨op, hop, hfront⟩ := exists_of_mapM h hop'
    exact (hstate op hop).prefixed hstep hfront
  | merge op =>
    cases hmerge : Operation.mergeOnto state op with
    | error e =>
      rw [apply, hmerge] at h
      cases h
    | ok merged =>
      rw [apply, hmerge] at h
      obtain rfl := Except.ok.inj h
      obtain rfl := Option.some.inj hop'
      exact Operation.Valid.mergeOnto hstate hstep hmerge
  | mergeAll ops => exact Operation.Valid.mergeAll hstep h op' hop'

theorem next_of_error {e : BatchError} (h : step.apply state = .error e) :
    next state step = state := by
  rw [next, h]

theorem valid_of_next (hstep : step.Admissible) (hstate : ∀ op ∈ state, op.Valid) :
    ∀ op ∈ next state step, op.Valid := by
  cases h : step.apply state with
  | ok state' =>
    rw [next, h]
    exact valid_of_apply hstep hstate h
  | error e =>
    rw [next_of_error h]
    exact hstate

/-! ## Runs -/

theorem run_concat (steps : List Rewrite) (step : Rewrite) :
    run (steps ++ [step]) = next (run steps) step := by
  rw [run, List.foldl_append, run]
  rfl

theorem valid_run (h : ∀ step ∈ steps, step.Admissible) : ∀ op ∈ run steps, op.Valid := by
  induction steps using List.reverseRecOn with
  | nil =>
    rintro _ ⟨⟩
  | append_singleton steps step ih =>
    obtain ⟨hsteps, hstep⟩ := List.forall_mem_append.1 h
    rw [run_concat]
    exact valid_of_next (hstep step (List.mem_singleton_self step)) (ih hsteps)

/-- In a run of the machine, a step that fails changes nothing; and after each step, what the
machine holds is valid, and its text on one line is read as it, without any report. -/
theorem runs_valid (h : ∀ step ∈ steps, step.Admissible) :
    (∀ done step more e, steps = done ++ step :: more → step.apply (run done) = .error e →
      run (done ++ [step]) = run done) ∧
    ∀ done more, steps = done ++ more → ∀ op ∈ run done, op.Valid ∧
      Document.ofSource op.compactText = ⟨⟨[op]⟩, [], []⟩ ∧
      Operation.ofSource? op.compactText none = .ok op := by
  constructor
  · intro done step more e _ hfail
    rw [run_concat, next_of_error hfail]
  · rintro done more rfl op hop
    have hvalid := valid_run (List.forall_mem_append.1 h).1 op hop
    have hread := hvalid.ofSource_eq .compact
    exact ⟨hvalid, hread, Operation.ofSource?_of_reading hread (.inl rfl)⟩

/-- A ping with a variable that must be given and one that need not be. -/
def ping : Operation where
  kind := .query
  name := some "Ping"
  definitions :=
    [⟨"host", .nonNull (.named "String"), none⟩, ⟨"count", .named "Int", some (.int 3)⟩]
  fields := [⟨none, "ping", [⟨"host", .var "host"⟩, ⟨"count", .var "count"⟩], [], none⟩]

theorem valid_ping : ping.Valid := ⟨by decide, by decide, by decide, by decide⟩

/-- Two pings in one operation. Two of the steps fail: one renames a variable to one that keeps its
name, and one gives an alias to two fields. -/
def pings : List Rewrite :=
  [.load ping, .rename ((∅ : Renaming).insert "host" "target"),
    .rename ((∅ : Renaming).insert "target" "count"), .putInFront "a_", .merge ping, .setAlias "b"]

theorem runs_valid_pings :
    (∀ step ∈ pings, step.Admissible) ∧ run pings = run (pings.take 5) ∧
      ∃ op, run pings = some op ∧ op.responseKeys = ["a_ping", "ping"] ∧ op.Valid ∧
        Operation.ofSource? op.compactText none = .ok op := by
  have hsteps : ∀ step ∈ pings, step.Admissible := by
    simp only [pings, List.forall_mem_cons, List.not_mem_nil, Admissible, valid_ping,
      false_imp_iff, implies_true, and_true, true_and]
    decide
  obtain ⟨hfail, hvalid⟩ := runs_valid hsteps
  refine ⟨hsteps, hfail (pings.take 5) (.setAlias "b") [] _ rfl rfl, _, rfl, by decide, ?_⟩
  obtain ⟨hop, -, hread⟩ := hvalid pings [] rfl _ rfl
  exact ⟨hop, hread⟩

end Rewrite

end QueryBatch
