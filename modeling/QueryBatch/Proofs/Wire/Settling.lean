import QueryBatch.Batch.Outcome
import QueryBatch.Proofs.Wire.RoundTrip

/-!
# What was read is written as it was read

A record that was read from a text has none but values that can be carried, so that it comes back
when it is written. Texts of one record may still differ: a field that has its default may be left
out, and with some fields the default is null as well. Main statements:

* `Request.carried_of_read?`, `Response.carried_of_read?`: what was read can be written;
* `Request.passesOver_defaults` and its like: a field more that has its default makes no difference;
* `wireRoundTrip`: requests, settings and responses are sent without loss.
-/

namespace QueryBatch

open JsonSyntax

/-! ## What was read can be written -/

namespace JsonSyntax

section

variable {α : Type} {default a : α} {read : JsonSyntax → Option α} {field : Option JsonSyntax}

/-- A field that may be null has its default, or was read from something else. -/
theorem exists_of_nullable (h : nullable default read field = some a) :
    a = default ∨ ∃ s, s ≠ .null ∧ read s = some a := by
  cases field with
  | none => exact .inl (Option.some.inj h).symm
  | some s =>
    by_cases hnull : s = .null
    · subst hnull
      exact .inl (Option.some.inj h).symm
    · rw [nullable_of_ne_null hnull] at h
      exact .inr ⟨s, hnull, h⟩

/-- A field that may be left out has its default, or was read. -/
theorem exists_of_omittable (h : omittable default read field = some a) :
    a = default ∨ ∃ s, read s = some a := by
  cases field with
  | none => exact .inl (Option.some.inj h).symm
  | some s => exact .inr ⟨s, h⟩

end

/-- A dictionary that was read, or left out. -/
theorem fits_of_default (levels : Nat) {d : Dict Json}
    (h : d = ∅ ∨ ∃ s, dict? (levels + 1) s = some d) : (Json.ofDict d).Fits (levels + 1) := by
  rcases h with rfl | ⟨s, hs⟩
  · exact Json.fits_object.2 ⟨.nil, nofun⟩
  · exact fits_of_dict? hs

/-- What holds of a member holds where the member may be left out. -/
theorem forall_mem_unless {p : String × Json → Prop} {c : Bool} {e : String × Json} (h : p e) :
    ∀ m ∈ (if c then [] else [e]), p m := by
  cases c with
  | true => exact nofun
  | false => exact List.forall_mem_singleton.2 h

/-- Each item of a list was read from some JSON. -/
theorem exists_of_mem_list? {α : Type} {read : JsonSyntax → Option α} {s : JsonSyntax}
    {xs : List α} (h : list? read s = some xs) {x : α} (hx : x ∈ xs) : ∃ t, read t = some x := by
  cases s with
  | array items =>
    obtain ⟨t, -, ht⟩ := exists_of_mem_mapM h hx
    exact ⟨t, ht⟩
  | _ => cases h

end JsonSyntax

namespace Request

/-- A request is one level around its variables. -/
theorem depth_json_le {r : Request} (h : (Json.ofDict r.values).depth ≤ maxNesting - 1) :
    r.json.depth ≤ maxNesting := by
  have hname : ∀ m ∈ (r.operationName.map fun name => ("operationName", Json.string name)).toList,
      m.2.depth ≤ 126 := by
    cases r.operationName with
    | none => exact nofun
    | some name => exact List.forall_mem_singleton.2 (Nat.zero_le _)
  refine Json.depth_object_le.2
    (List.forall_mem_append.2 ⟨List.forall_mem_append.2 ⟨?_, ?_⟩, hname⟩)
  · exact List.forall_mem_singleton.2 (Nat.zero_le _)
  · exact forall_mem_unless h

/-- A request that was read can be carried, if its numbers are read as they are written. -/
theorem carried_of_read? {s : JsonSyntax} {r : Request} (h : read? s = some r)
    (hfloats : r.json.Everywhere Json.ReadsBack) : r.Carried := by
  unfold read? at h
  split at h
  · simp only [Option.bind_eq_bind, Option.bind_eq_some_iff] at h
    obtain ⟨query, -, values, hvalues, name, -, heq⟩ := h
    obtain rfl := Option.some.inj heq
    have hfits := fits_of_default 125 (exists_of_omittable hvalues)
    exact ⟨hfits.regular, depth_json_le hfits.nests, hfloats⟩
  · cases h

end Request

namespace ResponseError

/-- An error is one level around its extensions. -/
theorem depth_json_le {e : ResponseError}
    (h : (Json.ofDict e.extensions).depth ≤ maxNesting - 3) : e.json.depth ≤ maxNesting - 2 := by
  refine Json.depth_object_le.2
    (List.forall_mem_append.2 ⟨List.forall_mem_append.2 ⟨?_, ?_⟩, forall_mem_unless h⟩)
  · exact List.forall_mem_singleton.2 (Nat.zero_le _)
  · refine forall_mem_unless (Json.depth_array_le.2 fun v hv => ?_)
    obtain ⟨segment, -, rfl⟩ := List.mem_map.1 hv
    cases segment <;> exact Nat.zero_le 123

/-- The extensions of an error that was read have three levels less than there are. -/
theorem fits_of_read? {s : JsonSyntax} {e : ResponseError} (h : read? s = some e) :
    (Json.ofDict e.extensions).Fits (maxNesting - 3) := by
  unfold read? at h
  split at h
  · simp only [Option.bind_eq_bind, Option.bind_eq_some_iff] at h
    obtain ⟨message, -, path, -, extensions, hextensions, heq⟩ := h
    obtain rfl := Option.some.inj heq
    have hread : extensions = ∅ ∨ ∃ s, dict? 124 s = some extensions :=
      (exists_of_nullable hextensions).imp_right fun ⟨s, _, hs⟩ => ⟨s, hs⟩
    exact fits_of_default 123 hread
  · cases h

end ResponseError

namespace Response

/-- A response is one level around its data and two around its errors. -/
theorem depth_json_le {r : Response} (hdata : ∀ d ∈ r.data, d.depth ≤ maxNesting - 1)
    (herrors : ∀ e ∈ r.errors, e.json.depth ≤ maxNesting - 2) : r.json.depth ≤ maxNesting := by
  refine Json.depth_object_le.2
    (List.forall_mem_append.2 ⟨List.forall_mem_singleton.2 ?_, forall_mem_unless ?_⟩)
  · cases hd : r.data with
    | none => exact Nat.zero_le 126
    | some d => exact hdata d hd
  · refine Json.depth_array_le.2 fun v hv => ?_
    obtain ⟨e, he, rfl⟩ := List.mem_map.1 hv
    exact herrors e he

/-- Data that was read is carried, and not null. -/
theorem fits_of_nullable_data {field : Option JsonSyntax} {data : Option Json}
    (h : nullable none (fun d => (d.json? (maxNesting - 1)).map some) field = some data) {d : Json}
    (hd : data = some d) : d.Fits (maxNesting - 1) ∧ d ≠ .null := by
  rcases exists_of_nullable h with rfl | ⟨s, hnull, hs⟩
  · cases hd
  · obtain ⟨v, hread, rfl⟩ := Option.map_eq_some_iff.1 hs
    obtain rfl := Option.some.inj hd
    refine ⟨Json.fits_of_json? hread, ?_⟩
    rintro rfl
    exact hnull (Json.eq_null_of_json? hread)

theorem fits_of_nullable_errors {field : Option JsonSyntax} {errors : List ResponseError}
    (h : nullable [] (list? ResponseError.read?) field = some errors) {e : ResponseError}
    (he : e ∈ errors) : (Json.ofDict e.extensions).Fits (maxNesting - 3) := by
  rcases exists_of_nullable h with rfl | ⟨s, -, hs⟩
  · cases he
  · obtain ⟨t, ht⟩ := exists_of_mem_list? hs he
    exact ResponseError.fits_of_read? ht

/-- Data that is null is the same as none once it is written. -/
theorem normal_of_ne_null {r : Response} (h : r.data ≠ some .null) : r.normal = r := by
  obtain ⟨data, errors⟩ := r
  cases data with
  | none => rfl
  | some d => cases d <;> first | rfl | exact absurd rfl h

/-- A response that was read can be carried, and has no data that is null. -/
theorem carried_of_read? {s : JsonSyntax} {r : Response} (h : read? s = some r)
    (hfloats : r.json.Everywhere Json.ReadsBack) : r.Carried ∧ r.normal = r := by
  unfold read? at h
  split at h
  · simp only [Option.bind_eq_bind, Option.bind_eq_some_iff] at h
    obtain ⟨data, hdata, errors, herrors, heq⟩ := h
    obtain rfl := Option.some.inj heq
    have hd := fun d => fits_of_nullable_data hdata (d := d)
    have he := fun e => fits_of_nullable_errors herrors (e := e)
    have hdepth : (Response.mk data errors).json.depth ≤ maxNesting :=
      depth_json_le (fun d hmem => (hd d hmem).1.nests)
        fun e hmem => ResponseError.depth_json_le (he e hmem).nests
    refine ⟨⟨fun d hmem => (hd d hmem).1.regular, fun e hmem => (he e hmem).regular, hdepth,
      hfloats⟩, ?_⟩
    exact normal_of_ne_null fun hnull => (hd .null hnull).2 rfl
  · cases h

end Response

/-! ## Defaults -/

/-- A field more that has a default makes no difference. -/
def PassesOver {α : Type} (read? : JsonSyntax → Option α) (keys : List String)
    (defaults : List (String × JsonSyntax)) : Prop :=
  ∀ s s', Fills keys defaults s s' → read? s' = read? s

theorem JsonSyntax.list?_congr {α : Type} {read : JsonSyntax → Option α}
    {items items' : List JsonSyntax}
    (h : List.Forall₂ (fun t t' => read t' = read t) items items') :
    list? read (.array items') = list? read (.array items) := by
  rw [list?, list?]
  induction h with
  | nil => rfl
  | cons ht _ ih => rw [List.mapM_cons, List.mapM_cons, ht, ih]

namespace Request

abbrev keys : List String := ["query", "variables", "operationName"]

/-- The variables may be left out, but must not be null. -/
def defaults : List (String × JsonSyntax) := [("variables", .object []), ("operationName", .null)]

theorem passesOver_defaults : PassesOver read? keys defaults := by
  intro s s' h
  rcases record?_of_fills (by decide) (by simp [defaults]) h with
    ⟨hs, hs'⟩ | ⟨d, hd, fields, hlength, hs, hnone, hs'⟩
  · rw [read?, read?, hs, hs']
  · rw [read?, read?, hs, hs']
    simp only [defaults, List.mem_cons, List.mem_nil_iff, or_false] at hd
    obtain ⟨query, values, name, rfl⟩ := List.length_eq_three.1 hlength
    rcases hd with rfl | rfl
    · obtain rfl : values = none := Option.some.inj hnone
      cases query <;> rfl
    · obtain rfl : name = none := Option.some.inj hnone
      cases query <;> rfl

end Request

namespace Config

abbrev keys : List String := ["maxBatchSize", "operationName", "missingDataMessage"]

def defaults : List (String × JsonSyntax) :=
  [("maxBatchSize", (Json.int standard.maxBatchSize.toNat).written), ("operationName", .null),
    ("missingDataMessage", (Json.string standard.missingDataMessage).written)]

theorem passesOver_defaults : PassesOver read? keys defaults := by
  intro s s' h
  rcases record?_of_fills (by decide) (by simp [defaults]) h with
    ⟨hs, hs'⟩ | ⟨d, hd, fields, hlength, hs, hnone, hs'⟩
  · rw [read?, read?, hs, hs']
  · rw [read?, read?, hs, hs']
    simp only [defaults, List.mem_cons, List.mem_nil_iff, or_false] at hd
    obtain ⟨size, name, message, rfl⟩ := List.length_eq_three.1 hlength
    rcases hd with rfl | rfl | rfl
    · obtain rfl : size = none := Option.some.inj hnone
      change (word? (Json.int standard.maxBatchSize.toNat).written).bind _ = _
      rw [word?_written]
      rfl
    · obtain rfl : name = none := Option.some.inj hnone
      rfl
    · obtain rfl : message = none := Option.some.inj hnone
      change ((omittable standard.maxBatchSize word? size).bind fun n =>
        (nullable standard.operationName (fun s => (plainString? s).map some) name).bind fun t =>
        (plainString? (Json.string standard.missingDataMessage).written).bind fun m =>
        some (Config.mk n t m)) = _
      rw [plainString?_written]
      rfl

end Config

namespace ResponseError

abbrev keys : List String := ["message", "path", "extensions"]

def defaults : List (String × JsonSyntax) :=
  [("path", .null), ("path", .array []), ("extensions", .null), ("extensions", .object [])]

theorem passesOver_defaults : PassesOver read? keys defaults := by
  intro s s' h
  rcases record?_of_fills (by decide) (by simp [defaults]) h with
    ⟨hs, hs'⟩ | ⟨d, hd, fields, hlength, hs, hnone, hs'⟩
  · rw [read?, read?, hs, hs']
  · rw [read?, read?, hs, hs']
    simp only [defaults, List.mem_cons, List.mem_nil_iff, or_false] at hd
    obtain ⟨message, path, extensions, rfl⟩ := List.length_eq_three.1 hlength
    rcases hd with rfl | rfl | rfl | rfl
    · obtain rfl : path = none := Option.some.inj hnone
      cases message <;> rfl
    · obtain rfl : path = none := Option.some.inj hnone
      cases message <;> rfl
    · obtain rfl : extensions = none := Option.some.inj hnone
      cases message <;> rfl
    · obtain rfl : extensions = none := Option.some.inj hnone
      cases message <;> rfl

end ResponseError

namespace Response

abbrev keys : List String := ["data", "errors"]

def defaults : List (String × JsonSyntax) :=
  [("data", .null), ("errors", .null), ("errors", .array [])]

theorem passesOver_defaults : PassesOver read? keys defaults := by
  intro s s' h
  rcases record?_of_fills (by decide) (by simp [defaults]) h with
    ⟨hs, hs'⟩ | ⟨d, hd, fields, hlength, hs, hnone, hs'⟩
  · rw [read?, read?, hs, hs']
  · rw [read?, read?, hs, hs']
    simp only [defaults, List.mem_cons, List.mem_nil_iff, or_false] at hd
    obtain ⟨data, errors, rfl⟩ := List.length_eq_two.1 hlength
    rcases hd with rfl | rfl | rfl
    · obtain rfl : data = none := Option.some.inj hnone
      rfl
    · obtain rfl : errors = none := Option.some.inj hnone
      rfl
    · obtain rfl : errors = none := Option.some.inj hnone
      rfl

/-- Defaults that are filled into some of the errors make no difference either. -/
theorem read?_of_fills_errors {s s' : JsonSyntax} {data : Option JsonSyntax}
    {errors errors' : List JsonSyntax} (hs : record? keys s = some [data, some (.array errors)])
    (hs' : record? keys s' = some [data, some (.array errors')])
    (h : List.Forall₂ (fun e e' => e = e' ∨ Fills ResponseError.keys ResponseError.defaults e e')
      errors errors') : read? s' = read? s := by
  have hlist : list? ResponseError.read? (.array errors') =
      list? ResponseError.read? (.array errors) := by
    refine list?_congr (h.imp fun e e' he => ?_)
    rcases he with rfl | he
    · rfl
    · exact ResponseError.passesOver_defaults e e' he
  rw [read?, read?, hs, hs']
  simp only [nullable, hlist]

end Response

/-! ## Requests, settings and responses on the wire -/

namespace Response

/-- Data that is null and no data are the same to a batch. -/
theorem split_normal {κ : Type} (r : Response) (m : AliasMap κ) (missing : String) :
    BatchResult.split m r.normal.data r.normal.errors missing =
      BatchResult.split m r.data r.errors missing := by
  obtain ⟨data, errors⟩ := r
  cases data with
  | none => rfl
  | some d => cases d <;> rfl

end Response

/-- What was read from a text is written as a text from which it is read again. -/
def Settles {α : Type} (json : α → Json) (ofText? : String → Option α) : Prop :=
  ∀ text r, ofText? text = some r → (json r).Everywhere Json.ReadsBack →
    ofText? (json r).text = some r

/-- A request that was read is written and read as itself from then on. -/
theorem Request.settles : Settles json ofText? := by
  intro text r h hfloats
  obtain ⟨s, -, hs⟩ := Option.bind_eq_some_iff.1 h
  exact ofText?_text (carried_of_read? hs hfloats)

theorem Config.settles : Settles json ofText? := fun _ c _ _ => c.ofText?_text

theorem Response.settles : Settles json ofText? := by
  intro text r h hfloats
  obtain ⟨s, -, hs⟩ := Option.bind_eq_some_iff.1 h
  obtain ⟨hcarried, hnormal⟩ := carried_of_read? hs hfloats
  have hread := ofText?_text hcarried
  rwa [hnormal] at hread

/-- What is sent as JSON comes back, and what came in is what it would be if it were sent again. -/
structure WireRoundTrip : Prop where
  request : ∀ r : Request, r.Carried → Request.ofText? r.json.text = some r
  config : ∀ c : Config, Config.ofText? c.json.text = some c
  /-- The errors are the same, and so are the data unless they are null. A batch is split alike. -/
  response : ∀ r : Response, r.Carried → ∃ r', Response.ofText? r.json.text = some r' ∧
    r'.errors = r.errors ∧ r'.data = r.data.filter (!·.isNull) ∧
    ∀ {κ : Type} (m : AliasMap κ) (missing : String),
      BatchResult.split m r'.data r'.errors missing = BatchResult.split m r.data r.errors missing
  requestSettles : Settles Request.json Request.ofText?
  configSettles : Settles Config.json Config.ofText?
  responseSettles : Settles Response.json Response.ofText?
  requestDefaults : PassesOver Request.read? Request.keys Request.defaults
  configDefaults : PassesOver Config.read? Config.keys Config.defaults
  responseDefaults : PassesOver Response.read? Response.keys Response.defaults
  /-- Each error of a response may be given with or without its defaults. -/
  errorDefaults : ∀ {s s' : JsonSyntax} {data : Option JsonSyntax}
    {errors errors' : List JsonSyntax},
    record? Response.keys s = some [data, some (.array errors)] →
    record? Response.keys s' = some [data, some (.array errors')] →
    List.Forall₂ (fun e e' => e = e' ∨ Fills ResponseError.keys ResponseError.defaults e e')
      errors errors' → Response.read? s' = Response.read? s

theorem wireRoundTrip : WireRoundTrip where
  request _ := Request.ofText?_text
  config := Config.ofText?_text
  response r h := ⟨r.normal, Response.ofText?_text h, rfl, rfl, r.split_normal⟩
  requestSettles := Request.settles
  configSettles := Config.settles
  responseSettles := Response.settles
  requestDefaults := Request.passesOver_defaults
  configDefaults := Config.passesOver_defaults
  responseDefaults := Response.passesOver_defaults
  errorDefaults := Response.read?_of_fills_errors

theorem wireRoundTrip_of_half :
    let half : Json := .float (.finite false leastNormal (-53) (by decide))
    let request : Request := ⟨"query Q($x: Float) \x7b f(x: $x) \x7d", .insert ∅ "x" half, some "Q"⟩
    let response : Response := ⟨some .null, [⟨"no", [.key "f", .index 0], .insert ∅ "x" half⟩]⟩
    let text := "[[0.5], [\x7b\"message\": \"no\", \"path\": null\x7d]]"
    Request.ofText? request.json.text = some request ∧
      (∃ r, Response.ofText? response.json.text = some r ∧ r.data = none ∧
        r.errors = response.errors) ∧
      ∃ r, Response.ofText? text = some r ∧ Response.ofText? r.json.text = some r := by
  intro half request response text
  have hrequest : request.Carried := ⟨by decide +kernel, by decide +kernel, by decide +kernel⟩
  have hresponse : response.Carried :=
    ⟨by decide +kernel, by decide +kernel, by decide +kernel, by decide +kernel⟩
  have htext : ((Response.ofText? text).any fun r => r.json.Everywhere Json.ReadsBack) = true := by
    decide +kernel
  obtain ⟨r, hr, hfloats⟩ := (Option.any_eq_true _ _).1 htext
  obtain ⟨r', hread, herrors, hdata, -⟩ := wireRoundTrip.response response hresponse
  exact ⟨wireRoundTrip.request request hrequest, ⟨r', hread, hdata, herrors⟩, r, hr,
    wireRoundTrip.responseSettles text r hr (of_decide_eq_true hfloats)⟩

end QueryBatch
