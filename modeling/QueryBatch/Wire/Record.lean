import QueryBatch.Json.Strict

/-!
# Records in JSON texts

A record is written as an object with known keys, or as an array of its fields in their order. An
unknown key of an object is passed over together with its value. Main statement:

* `JsonSyntax.length_of_record?`: a record gives one answer for each field that is asked for.
-/

namespace QueryBatch.JsonSyntax

/-- The value under a key, of which there must not be two. -/
def soleValue? (entries : List (String × JsonSyntax)) (key : String) :
    Option (Option JsonSyntax) :=
  match (entries.filter (·.1 == key)).map (·.2) with
  | [] => some none
  | [value] => some (some value)
  | _ => none

/-- Entries with the texts of their keys. -/
def keyed? (entries : List (List Piece × JsonSyntax)) : Option (List (String × JsonSyntax)) :=
  entries.mapM fun (key, value) => (textOf? key).map (·, value)

/-- The fields of a record, as far as they are given. In an array, fields may only be missing at
the end. -/
def record? (keys : List String) : JsonSyntax → Option (List (Option JsonSyntax))
  | array items =>
    if items.length ≤ keys.length then
      some (items.map some ++ List.replicate (keys.length - items.length) none)
    else none
  | object entries => (keyed? entries).bind fun es => keys.mapM (soleValue? es)
  | _ => none

/-- A field that may be left out or be null, and then has a default. -/
def nullable {α : Type} (default : α) (read : JsonSyntax → Option α) :
    Option JsonSyntax → Option α
  | none => some default
  | some null => some default
  | some s => read s

/-- A field that may be left out, and then has a default. -/
def omittable {α : Type} (default : α) (read : JsonSyntax → Option α) :
    Option JsonSyntax → Option α
  | none => some default
  | some s => read s

def plainString? : JsonSyntax → Option String
  | .string pieces => textOf? pieces
  | _ => none

/-- A natural number of 64 bits, written without a sign, a fraction or an exponent. -/
def word? : JsonSyntax → Option UInt64
  | number numeral => numeral.word?
  | _ => none

/-- An object of at most `levels` levels as a dictionary. -/
def dict? (levels : Nat) : JsonSyntax → Option (Dict Json)
  | object entries =>
    match levels with
    | 0 => none
    | levels + 1 => (jsonEntries? levels entries).map Dict.ofList
  | _ => none

/-- The items of an array. -/
def list? {α : Type} (read : JsonSyntax → Option α) : JsonSyntax → Option (List α)
  | array items => items.mapM read
  | _ => none

theorem length_of_mapM {α β : Type} {f : α → Option β} {xs : List α} {ys : List β}
    (h : xs.mapM f = some ys) : ys.length = xs.length := by
  induction xs generalizing ys with
  | nil => simp_all
  | cons x xs ih =>
    simp only [List.mapM_cons, Option.pure_def, Option.bind_eq_bind, Option.bind_eq_some_iff,
      Option.some.injEq] at h
    obtain ⟨y, -, zs, hzs, rfl⟩ := h
    simp [ih hzs]

theorem length_of_record? {keys : List String} {s : JsonSyntax}
    {fields : List (Option JsonSyntax)} (h : record? keys s = some fields) :
    fields.length = keys.length := by
  unfold record? at h
  split at h
  · split at h
    · obtain rfl := Option.some.inj h
      simp; omega
    · cases h
  · obtain ⟨es, -, hes⟩ := Option.bind_eq_some_iff.1 h
    exact length_of_mapM hes
  · cases h

end QueryBatch.JsonSyntax
