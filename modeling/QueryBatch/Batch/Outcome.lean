import QueryBatch.Batch.AliasMap
import QueryBatch.Batch.Config
import QueryBatch.Wire.Response

/-!
# The outcomes of a batch

A response to a composite operation is split into an outcome for each item: its errors, or its
data, or the complaint that there is neither. An error that is at no alias is about no item.
-/

namespace QueryBatch

/-- What an item gets: data, or the errors that are about it. -/
inductive Outcome
  | success (data : Json)
  | failure (errors : List ResponseError)

/-- The outcomes of the items in the order of the batch, and the errors that are about no item. -/
structure BatchResult (κ : Type) where
  outcomes : List (κ × Outcome)
  batchErrors : List ResponseError

namespace Outcome

def isSuccess : Outcome → Bool
  | success _ => true
  | failure _ => false

def data? : Outcome → Option Json
  | success data => some data
  | failure _ => none

def errors : Outcome → List ResponseError
  | success _ => []
  | failure errors => errors

/-- The outcome of an item: its errors if there are any, or else its data unless that is null, or
else the complaint that there is neither. -/
def ofParts (missing : ResponseError) (own : List ResponseError) (data : Option Json) : Outcome :=
  if own.isEmpty then
    match data.filter (!·.isNull) with
    | some value => success value
    | none => failure [missing]
  else failure own

end Outcome

/-- Errors sorted by the places of the aliases that they are about. -/
structure Routing where
  own : List (List ResponseError)
  shared : List ResponseError

namespace Routing

variable {κ : Type}

/-- Sorts an error behind those that were sorted before. -/
def add (m : AliasMap κ) (r : Routing) (e : ResponseError) : Routing :=
  match e.rootKey?.bind m.position? with
  | some i => { r with own := r.own.modify i (· ++ [e]) }
  | none => { r with shared := r.shared ++ [e] }

/-- Sorts errors in one pass. -/
def ofErrors (m : AliasMap κ) (errors : List ResponseError) : Routing :=
  errors.foldl (add m) ⟨List.replicate m.size [], []⟩

end Routing

namespace BatchResult

variable {κ : Type}

/-- Splits the data and errors of a response to a composite with the given aliases. An item about
which the response says nothing fails with the message `missing`. -/
def split (m : AliasMap κ) (data : Option Json) (errors : List ResponseError)
    (missing : String) : BatchResult κ :=
  let routing := Routing.ofErrors m errors
  let outcome := fun (entry : String × κ) (own : List ResponseError) =>
    (entry.2, Outcome.ofParts (.plain missing [.key entry.1]) own (data.bind (·.member? entry.1)))
  ⟨List.zipWith outcome m.entries routing.own, routing.shared⟩

def size (r : BatchResult κ) : Nat := r.outcomes.length

/-- The items that got data. -/
def successes (r : BatchResult κ) : List (κ × Json) :=
  r.outcomes.filterMap fun (id, o) => o.data?.map (id, ·)

/-- The items that got errors. -/
def failures (r : BatchResult κ) : List (κ × List ResponseError) :=
  (r.outcomes.filter (!·.2.isSuccess)).map fun (id, o) => (id, o.errors)

/-- Whether every item got data, and nothing else is wrong. -/
def isCompleteSuccess (r : BatchResult κ) : Bool :=
  r.batchErrors.isEmpty && r.outcomes.all (·.2.isSuccess)

/-- The outcome of an item. -/
def outcome? [DecidableEq κ] (r : BatchResult κ) (id : κ) : Option Outcome :=
  (r.outcomes.find? (·.1 = id)).map (·.2)

end BatchResult

end QueryBatch
