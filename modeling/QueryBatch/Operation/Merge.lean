import QueryBatch.Batch.Error

/-!
# Merging operations

Operations of one kind that share neither a variable nor a response key become one operation with
all their variables and fields. Main statements:

* `Field.concat_eq_append`: selections are put one behind the other;
* `Operation.merge_eq_ok_iff`: when two operations can be merged, and what comes of it.
-/

namespace QueryBatch

/-- The fields of two selections. Where one of them is empty, the other is taken as it is. -/
def Field.concat (fields more : List Field) : List Field :=
  if more.isEmpty then fields
  else if fields.isEmpty then more
  else fields ++ more

theorem Field.concat_eq_append (fields more : List Field) :
    concat fields more = fields ++ more := by
  unfold concat
  cases fields <;> cases more <;> simp

namespace Operation

/-- The first variable of the second operation that the first one declares as well, or else the
first response key that both select. -/
def overlap? (a b : Operation) : Option Collision :=
  match b.variableNames.find? (a.variableNames.contains ·) with
  | some name => some (.declared name)
  | none => (b.responseKeys.find? (a.responseKeys.contains ·)).map .responseKey

/-- Adds the variables and fields of the second operation to the first one. -/
def merge (a b : Operation) : Except BatchError Operation :=
  if a.kind ≠ b.kind then .error (.shape (.kinds a.kind b.kind))
  else
    match overlap? a b with
    | some c => .error (.collision c)
    | none => .ok ⟨a.kind, a.name, a.definitions ++ b.definitions,
        Field.concat a.fields b.fields⟩

/-- Merges an operation into what has been merged so far. -/
def mergeOnto : Option Operation → Operation → Except BatchError Operation
  | none, b => .ok b
  | some a, b => merge a b

/-- Merges operations from left to right; no operations give none. -/
def mergeAll (ops : List Operation) : Except BatchError (Option Operation) :=
  ops.foldlM (fun merged op => some <$> mergeOnto merged op) none

theorem overlap?_eq_none_iff {a b : Operation} :
    overlap? a b = none ↔ (∀ name ∈ b.variableNames, name ∉ a.variableNames) ∧
      ∀ key ∈ b.responseKeys, key ∉ a.responseKeys := by
  unfold overlap?
  split
  · rename_i name h
    have hmem := List.mem_of_find?_eq_some h
    have hin := List.find?_some h
    simp only [reduceCtorEq, false_iff, not_and]
    exact fun hall => absurd (by simpa using hin) (hall name hmem)
  · rename_i h
    simp only [List.find?_eq_none, Option.map_eq_none_iff] at h ⊢
    simp_all

theorem merge_eq_ok_iff {a b c : Operation} :
    merge a b = .ok c ↔ a.kind = b.kind ∧ overlap? a b = none ∧
      c = ⟨a.kind, a.name, a.definitions ++ b.definitions, a.fields ++ b.fields⟩ := by
  rw [merge, Field.concat_eq_append]
  split
  · simp_all
  · rename_i hk
    split
    · rename_i h
      simp [h]
    · rename_i h
      simp_all [eq_comm (b := c)]

end Operation

end QueryBatch
