import Mathlib.Data.List.Forall2
import QueryBatch.Batch.Executor

/-!
# Batches that are run one after the other

What is sent in a session, and what each of its calls comes to. Main statements:

* `Composer.run_execute`: a call sends one request if its batch is composed, and else none;
* `Composer.run_executeAll_append`: a session is its first calls and then the others;
* `Composer.executes_run`: what a session sends and gives, call by call;
* `Composer.executes_each_prefix`: so it is after each number of calls.
-/

namespace QueryBatch

namespace Composer

variable {κ : Type} [DecidableEq κ]

/-! ## One call -/

/-- The request that a call sends, if its batch is composed. -/
def request? (c : Composer) (call : Call κ) : Option Request :=
  match c.compose call.template call.items with
  | .ok r => some r.request
  | .error _ => none

/-- What a call comes to, told by its own batch and its own reply. -/
inductive Returns (c : Composer) (call : Call κ) : Except BatchError (BatchResult κ) → Prop
  | refused {e : BatchError} (h : c.compose call.template call.items = .error e) :
    Returns c call (.error e)
  | unsent {r : Composite κ} {e : TransportError}
    (h : c.compose call.template call.items = .ok r) (hreply : call.reply = .error e) :
    Returns c call (.error (.transport e))
  | answered {r : Composite κ} {response : Response}
    (h : c.compose call.template call.items = .ok r) (hreply : call.reply = .ok response) :
    Returns c call (.ok (.split r.aliases response.data response.errors
      c.config.missingDataMessage))

/-- Runs a call as the only one. -/
def executeAlone (c : Composer) (call : Call κ) : Except BatchError (BatchResult κ) :=
  ((c.execute (record call.reply) call.template call.items).run []).1

/-- With any transport, a batch that is composed makes one request, whose reply settles the result;
a batch that is not composed leaves the transport alone. -/
theorem run_execute {σ : Type} (c : Composer) (send : Request → StateM σ Reply)
    (template : Operation) (items : List (BatchItem κ)) (s : σ) :
    (c.execute send template items).run s =
      match c.compose template items with
      | .error e => (.error e, s)
      | .ok r => (c.resultOf r ((send r.request).run s).1, ((send r.request).run s).2) := by
  unfold execute
  cases c.compose template items <;> rfl

/-- What a call gives does not depend on what was sent before, and what it sends is added. -/
theorem run_execute_record (c : Composer) (call : Call κ) (sent : List Request) :
    (c.execute (record call.reply) call.template call.items).run sent =
      (c.executeAlone call, sent ++ (c.request? call).toList) := by
  rw [executeAlone, run_execute, run_execute, request?]
  cases c.compose call.template call.items with
  | error e => rw [Option.toList_none, List.append_nil]
  | ok r => rfl

theorem returns_executeAlone (c : Composer) (call : Call κ) :
    c.Returns call (c.executeAlone call) := by
  rw [executeAlone, run_execute]
  cases hcompose : c.compose call.template call.items with
  | error e => exact .refused hcompose
  | ok r =>
    show c.Returns call (c.resultOf r call.reply)
    cases hreply : call.reply with
    | error e => exact .unsent hcompose hreply
    | ok response => exact .answered hcompose hreply

/-! ## Sessions -/

theorem run_executeAll_cons (c : Composer) (call : Call κ) (calls : List (Call κ))
    (sent : List Request) :
    (c.executeAll (call :: calls)).run sent =
      let first := (c.execute (record call.reply) call.template call.items).run sent
      let more := (c.executeAll calls).run first.2
      (first.1 :: more.1, more.2) := rfl

/-- What the calls of a session give, and what has been sent after it. -/
theorem run_executeAll (c : Composer) (calls : List (Call κ)) (sent : List Request) :
    (c.executeAll calls).run sent =
      (calls.map c.executeAlone, sent ++ calls.filterMap c.request?) := by
  induction calls generalizing sent with
  | nil => rw [executeAll_nil, List.map_nil, List.filterMap_nil, List.append_nil]
  | cons call calls ih =>
    rw [run_executeAll_cons, run_execute_record]
    simp only [ih, List.map_cons, List.append_assoc]
    cases hrequest : c.request? call with
    | none => rw [List.filterMap_cons_none hrequest, Option.toList_none, List.nil_append]
    | some request =>
      rw [List.filterMap_cons_some hrequest, Option.toList_some, List.singleton_append]

theorem run_executeAll_append (c : Composer) (before after : List (Call κ))
    (sent : List Request) :
    (c.executeAll (before ++ after)).run sent =
      (((c.executeAll before).run sent).1 ++
          ((c.executeAll after).run ((c.executeAll before).run sent).2).1,
        ((c.executeAll after).run ((c.executeAll before).run sent).2).2) := by
  simp only [run_executeAll, List.map_append, List.filterMap_append, List.append_assoc]

/-- A session in which each call does what it would do alone: the requests of the batches that are
composed are sent once each and in order, after those that were sent before. -/
structure Executes (c : Composer) (calls : List (Call κ)) (sent : List Request)
    (run : List (Except BatchError (BatchResult κ)) × List Request) : Prop where
  requests : run.2 = sent ++ calls.filterMap c.request?
  returns : List.Forall₂ c.Returns calls run.1
  alone : run.1 = calls.map c.executeAlone

theorem executes_run (c : Composer) (calls : List (Call κ)) (sent : List Request) :
    c.Executes calls sent ((c.executeAll calls).run sent) := by
  rw [run_executeAll]
  refine ⟨rfl, ?_, rfl⟩
  rw [List.forall₂_map_right_iff]
  exact List.forall₂_same.2 fun call _ => c.returns_executeAlone call

/-- After each number of calls of a session, what was sent and what was given is told by those calls
alone, and the rest of the session goes on from there. -/
theorem executes_each_prefix (c : Composer) (calls : List (Call κ)) (sent : List Request)
    (k : Nat) : ∃ first later,
      (c.executeAll (calls.take k)).run sent = first ∧
      (c.executeAll (calls.drop k)).run first.2 = later ∧
      (c.executeAll calls).run sent = (first.1 ++ later.1, later.2) ∧
      c.Executes (calls.take k) sent first ∧ c.Executes (calls.drop k) first.2 later := by
  refine ⟨_, _, rfl, rfl, ?_, c.executes_run _ _, c.executes_run _ _⟩
  rw [← run_executeAll_append, List.take_append_drop]

end Composer

end QueryBatch
