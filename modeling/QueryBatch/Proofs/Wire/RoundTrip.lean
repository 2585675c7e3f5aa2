import QueryBatch.Batch.Config
import QueryBatch.Proofs.Wire.Fields
import QueryBatch.Wire.Request
import QueryBatch.Wire.Response

/-!
# What was written is read again

A request, the settings of a batch and a response are written with the fields that they need, and
are read with the fields that they may have. Main statements:

* `Request.ofText?_text`, `Config.ofText?_text`: requests and settings come back as they were;
* `Response.ofText?_text`: so do responses, but null for their data becomes none.
-/

namespace QueryBatch

open JsonSyntax

/-! ## Fields -/

theorem Dict.eq_empty_of_isEmpty {α : Type} {d : Dict α} (h : d.isEmpty = true) : d = ∅ := by
  obtain ⟨entries, hascending⟩ := d
  obtain rfl : entries = [] := List.isEmpty_iff.1 h
  rfl

namespace Json

/-- A member of an object. -/
def HasMember (v : Json) (key : String) (w : Json) : Prop :=
  ∃ fields, v = object fields ∧ (key, w) ∈ fields

/-- A member is nested less deeply than its object. -/
theorem HasMember.nests {v w : Json} {key : String} (h : v.HasMember key w) {levels : Nat}
    (hnests : v.depth ≤ levels + 1) : w.depth ≤ levels := by
  obtain ⟨fields, rfl, hmem⟩ := h
  exact depth_object_le.1 hnests _ hmem

/-- What is true everywhere in an object is true everywhere in a member. -/
theorem HasMember.everywhere {v w : Json} {key : String} (h : v.HasMember key w)
    {p : Json → Prop} (hv : v.Everywhere p) : w.Everywhere p := by
  obtain ⟨fields, rfl, hmem⟩ := h
  exact (everywhere_object.1 hv).2 _ hmem

end Json

namespace JsonSyntax

theorem nullable_of_ne_null {α : Type} {default : α} {read : JsonSyntax → Option α}
    {s : JsonSyntax} (h : s ≠ .null) : nullable default read (some s) = read s := by
  cases s <;> first | rfl | exact absurd rfl h

/-- A dictionary that is left out where it is empty. -/
theorem omittable_dict {levels : Nat} {d : Dict Json}
    (h : d.isEmpty = false → dict? levels (Json.ofDict d).written = some d) :
    omittable ∅ (dict? levels) (if d.isEmpty then none else some (Json.ofDict d).written) =
      some d := by
  cases hempty : d.isEmpty with
  | true => rw [if_pos rfl, omittable, Dict.eq_empty_of_isEmpty hempty]
  | false => exact h hempty

/-- A dictionary that may also be null. -/
theorem nullable_dict {levels : Nat} {d : Dict Json}
    (h : d.isEmpty = false → dict? levels (Json.ofDict d).written = some d) :
    nullable ∅ (dict? levels) (if d.isEmpty then none else some (Json.ofDict d).written) =
      some d := by
  cases hempty : d.isEmpty with
  | true => rw [if_pos rfl, nullable, Dict.eq_empty_of_isEmpty hempty]
  | false =>
    have hread := h hempty
    rw [Json.ofDict, Json.written] at hread ⊢
    exact hread

/-- A list that is left out where it is empty. -/
theorem nullable_list {α : Type} {json : α → Json} {read : JsonSyntax → Option α} {xs : List α}
    (h : ∀ x ∈ xs, read (json x).written = some x) :
    nullable [] (list? read)
      (if xs.isEmpty then none else some (Json.array (xs.map json)).written) = some xs := by
  cases xs with
  | nil => rfl
  | cons x xs =>
    have hread := list?_written h
    rw [Json.written] at hread ⊢
    exact hread

theorem nullable_string (text : Option String) :
    nullable none (fun s => (plainString? s).map some)
      (text.map fun text => (Json.string text).written) = some text := by
  cases text with
  | none => rfl
  | some text => exact congrArg (Option.map some) (plainString?_written text)

end JsonSyntax

/-! ## Requests -/

namespace Request

/-- The values of the variables are carried, in a body that is not nested too deep. -/
structure Carried (r : Request) : Prop where
  regular : (Json.ofDict r.values).Everywhere Json.Regular
  nests : r.json.depth ≤ maxNesting
  floats : r.json.Everywhere Json.ReadsBack

theorem hasMember_variables {r : Request} (h : r.values.isEmpty = false) :
    r.json.HasMember "variables" (.ofDict r.values) :=
  ⟨_, rfl, by simp [h]⟩

/-- The variables of a request that can be carried are carried on one level less. -/
theorem Carried.values {r : Request} (h : r.Carried) (hempty : r.values.isEmpty = false) :
    (Json.ofDict r.values).Carried (maxNesting - 1) where
  regular := h.regular
  nests := (hasMember_variables hempty).nests h.nests
  floats := (hasMember_variables hempty).everywhere h.floats

theorem record?_written (r : Request) :
    record? ["query", "variables", "operationName"] r.json.written =
      some [some (Json.string r.query).written,
        if r.values.isEmpty then none else some (Json.ofDict r.values).written,
        r.operationName.map fun name => (Json.string name).written] := by
  unfold json
  cases r.values.isEmpty <;> cases r.operationName <;>
    exact (JsonSyntax.record?_written (by simp) _).trans rfl

/-- A request is read from its syntax. -/
theorem read?_written {r : Request} (h : r.Carried) : read? r.json.written = some r := by
  have hvalues := omittable_dict fun hempty => dict?_written (h.values hempty)
  rw [read?, record?_written]
  simp only [plainString?_written, hvalues, nullable_string]
  rfl

/-- A request is read back from its text. -/
theorem ofText?_text {r : Request} (h : r.Carried) : ofText? r.json.text = some r := by
  rw [ofText?, Json.ofText?_text, Option.bind_some, read?_written h]

end Request

/-! ## Settings -/

namespace Config

theorem record?_written (c : Config) :
    record? ["maxBatchSize", "operationName", "missingDataMessage"] c.json.written =
      some [some (Json.int c.maxBatchSize.toNat).written,
        some ((c.operationName.map Json.string).getD .null).written,
        some (Json.string c.missingDataMessage).written] :=
  (JsonSyntax.record?_written (by simp) _).trans rfl

theorem read?_written (c : Config) : read? c.json.written = some c := by
  have hname : nullable standard.operationName (fun s => (plainString? s).map some)
      (some ((c.operationName.map Json.string).getD .null).written) = some c.operationName := by
    cases c.operationName with
    | none => rfl
    | some name => exact congrArg (Option.map some) (plainString?_written name)
  rw [read?, record?_written]
  simp only [omittable, word?_written, plainString?_written, hname]
  rfl

/-- Settings are always read back, since they hold no numbers but one of 64 bits. -/
theorem ofText?_text (c : Config) : ofText? c.json.text = some c := by
  rw [ofText?, Json.ofText?_text, Option.bind_some, read?_written]

end Config

/-! ## Responses -/

/-- A step of a path is a key or a place in a list, and is read as such. -/
theorem PathSegment.read?_written (segment : PathSegment) :
    read? segment.json.written = some segment := by
  cases segment with
  | key name => rw [read?, json, plainString?_written]
  | index position =>
    have hplain : plainString? (Json.int position.toNat).written = none := rfl
    rw [read?, json, hplain, word?_written]
    rfl

namespace ResponseError

theorem hasMember_extensions {e : ResponseError} (h : e.extensions.isEmpty = false) :
    e.json.HasMember "extensions" (.ofDict e.extensions) :=
  ⟨_, rfl, by simp [h]⟩

theorem record?_written (e : ResponseError) :
    record? ["message", "path", "extensions"] e.json.written =
      some [some (Json.string e.message).written,
        if e.path.isEmpty then none else some (Json.array (e.path.map (·.json))).written,
        if e.extensions.isEmpty then none else some (Json.ofDict e.extensions).written] := by
  unfold json
  cases e.path.isEmpty <;> cases e.extensions.isEmpty <;>
    exact (JsonSyntax.record?_written (by simp) _).trans rfl

/-- An error is read back if its extensions can be carried. -/
theorem read?_written {e : ResponseError}
    (h : e.extensions.isEmpty = false → (Json.ofDict e.extensions).Carried (maxNesting - 3)) :
    read? e.json.written = some e := by
  have hpath := nullable_list fun segment (_ : segment ∈ e.path) => segment.read?_written
  have hextensions := nullable_dict fun hempty => dict?_written (h hempty)
  rw [read?, record?_written]
  simp only [plainString?_written, hpath, hextensions]
  rfl

end ResponseError

namespace Response

/-- The data and the extensions of the errors are carried, in a body that is not nested too deep. -/
structure Carried (r : Response) : Prop where
  data : ∀ d ∈ r.data, d.Everywhere Json.Regular
  extensions : ∀ e ∈ r.errors, (Json.ofDict e.extensions).Everywhere Json.Regular
  nests : r.json.depth ≤ maxNesting
  floats : r.json.Everywhere Json.ReadsBack

/-- The response that is read again: null is no data. -/
def normal (r : Response) : Response := { r with data := r.data.filter (!·.isNull) }

theorem hasMember_data (r : Response) : r.json.HasMember "data" (r.data.getD .null) :=
  ⟨_, rfl, by simp⟩

theorem hasMember_errors {r : Response} (h : r.errors ≠ []) :
    r.json.HasMember "errors" (.array (r.errors.map (·.json))) :=
  ⟨_, rfl, by simp [h]⟩

theorem Carried.carried_data {r : Response} (h : r.Carried) {d : Json} (hd : r.data = some d) :
    d.Carried (maxNesting - 1) := by
  have hmember := r.hasMember_data
  rw [hd] at hmember
  exact ⟨⟨h.data d hd, hmember.nests h.nests⟩, hmember.everywhere h.floats⟩

theorem Carried.carried_extensions {r : Response} (h : r.Carried) {e : ResponseError}
    (he : e ∈ r.errors) (hempty : e.extensions.isEmpty = false) :
    (Json.ofDict e.extensions).Carried (maxNesting - 3) := by
  have herrors := hasMember_errors (List.ne_nil_of_mem he)
  have hmember := ResponseError.hasMember_extensions hempty
  have he' : e.json ∈ r.errors.map (·.json) := List.mem_map_of_mem he
  have hnests : e.json.depth ≤ maxNesting - 2 :=
    Json.depth_array_le.1 (herrors.nests h.nests) e.json he'
  have hfloats : e.json.Everywhere Json.ReadsBack :=
    (Json.everywhere_array.1 (herrors.everywhere h.floats)).2 e.json he'
  exact ⟨⟨h.extensions e he, hmember.nests hnests⟩, hmember.everywhere hfloats⟩

theorem record?_written (r : Response) :
    record? ["data", "errors"] r.json.written =
      some [some (r.data.getD .null).written,
        if r.errors.isEmpty then none else some (Json.array (r.errors.map (·.json))).written] := by
  unfold json
  cases r.errors.isEmpty <;> exact (JsonSyntax.record?_written (by simp) _).trans rfl

/-- Data that is null is read as no data. -/
theorem nullable_data {data : Option Json}
    (h : ∀ d, data = some d → d.Carried (maxNesting - 1)) :
    nullable none (fun d => (d.json? (maxNesting - 1)).map some) (some (data.getD .null).written) =
      some (data.filter (!·.isNull)) := by
  cases data with
  | none => rfl
  | some d =>
    cases hnull : d.isNull with
    | true =>
      cases d <;> first | rfl | cases hnull
    | false =>
      have hread := Json.json?_written (h d rfl)
      have hne : d.written ≠ .null := by
        intro hwritten
        rw [hwritten] at hread
        obtain rfl : Json.null = d := Option.some.inj hread
        cases hnull
      rw [Option.getD_some, nullable_of_ne_null hne, hread]
      simp [Option.filter, hnull]

/-- A response is read back, up to data that is null. -/
theorem read?_written {r : Response} (h : r.Carried) : read? r.json.written = some r.normal := by
  have hdata := nullable_data fun d => h.carried_data (d := d)
  have herrors := nullable_list fun e he =>
    ResponseError.read?_written (h.carried_extensions (e := e) he)
  rw [read?, record?_written]
  simp only [hdata, herrors]
  rfl

/-- A response is read back from its text, up to data that is null. -/
theorem ofText?_text {r : Response} (h : r.Carried) : ofText? r.json.text = some r.normal := by
  rw [ofText?, Json.ofText?_text, Option.bind_some, read?_written h]

end Response

end QueryBatch
