import QueryBatch.Batch.Composite
import QueryBatch.Batch.Outcome

/-!
# Running a batch

A batch is composed, sent, and its response split. How a request is sent is a parameter.
-/

namespace QueryBatch

/-- What comes back for a request. -/
abbrev Reply := Except TransportError Response

/-- A batch to be executed, and the reply that it gets if it is sent. -/
structure Call (κ : Type) where
  template : Operation
  items : List (BatchItem κ)
  reply : Reply

namespace Composer

variable {κ : Type}

/-- Splits the response to a composite. -/
def split (c : Composer) (composite : Composite κ) (response : Response) : BatchResult κ :=
  .split composite.aliases response.data response.errors c.config.missingDataMessage

/-- The result of a composite for which there is a reply. -/
def resultOf (c : Composer) (composite : Composite κ) :
    Reply → Except BatchError (BatchResult κ)
  | .ok response => .ok (c.split composite response)
  | .error e => .error (.transport e)

/-- Composes a batch, sends the composite and splits the response. -/
def execute {m : Type → Type} [Monad m] [DecidableEq κ] (c : Composer)
    (send : Request → m Reply) (template : Operation) (items : List (BatchItem κ)) :
    m (Except BatchError (BatchResult κ)) :=
  match c.compose template items with
  | .error e => pure (.error e)
  | .ok composite => do return c.resultOf composite (← send composite.request)

/-! ## A transport that keeps what it was asked to send -/

/-- Gives a reply to a request, and adds the request to those that were sent. -/
def record (reply : Reply) (request : Request) : StateM (List Request) Reply :=
  fun sent => (reply, sent ++ [request])

/-- Executes calls one after the other. -/
def executeAll [DecidableEq κ] (c : Composer) :
    List (Call κ) → StateM (List Request) (List (Except BatchError (BatchResult κ)))
  | [] => pure []
  | call :: calls => do
    let result ← c.execute (record call.reply) call.template call.items
    return result :: (← executeAll c calls)

theorem executeAll_nil [DecidableEq κ] (c : Composer) (sent : List Request) :
    (c.executeAll ([] : List (Call κ))).run sent = ([], sent) :=
  rfl

end Composer

end QueryBatch
