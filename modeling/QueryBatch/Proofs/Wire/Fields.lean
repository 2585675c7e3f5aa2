import QueryBatch.Proofs.Json.Inverse
import QueryBatch.Wire.Record

/-!
# The fields of a record

A record that was written has its fields under their keys. A record with a field more, which has the
default of that field, is read with the same fields, but for the default in the place of nothing.
Main statements:

* `JsonSyntax.record?_written`: the fields of an object that was written;
* `JsonSyntax.dict?_written`, `JsonSyntax.list?_written`, `JsonSyntax.word?_written`: fields of each
  kind are read as they were;
* `JsonSyntax.record?_of_fills`: the fields of a record into which a default was filled.
-/

namespace QueryBatch.JsonSyntax

open Json (itemsWritten entriesWritten)

/-! ## Fields that were written -/

theorem keyed?_cons (name : List Piece) (v : JsonSyntax) (es : List (List Piece × JsonSyntax)) :
    keyed? ((name, v) :: es) =
      (textOf? name).bind fun key => (keyed? es).map ((key, v) :: ·) := by
  rw [keyed?, List.mapM_cons]
  show ((textOf? name).map (·, v) >>= fun e => keyed? es >>= fun rest => some (e :: rest)) = _
  cases textOf? name <;> cases keyed? es <;> rfl

/-- Keys that were written are read as they were. -/
theorem keyed?_written (es : List (String × Json)) :
    keyed? (entriesWritten es) = some (es.map fun e => (e.1, e.2.written)) := by
  induction es with
  | nil => rfl
  | cons e es ih =>
    rw [entriesWritten, keyed?_cons, textOf?_pieces, ih]
    rfl

theorem itemsWritten_eq_map (vs : List Json) : itemsWritten vs = vs.map Json.written := by
  induction vs with
  | nil => rfl
  | cons v vs ih => rw [itemsWritten, ih, List.map_cons]

/-- Among different keys, the entries of one key are what looking it up finds. -/
theorem filter_key {α : Type} {entries : List (String × α)} (h : (entries.map (·.1)).Nodup)
    (key : String) : (entries.filter (·.1 == key)).map (·.2) = (entries.lookup key).toList := by
  induction entries with
  | nil => rfl
  | cons e es ih =>
    obtain ⟨k, v⟩ := e
    rw [List.map_cons, List.nodup_cons] at h
    by_cases hk : k = key
    · have hnone : es.filter (·.1 == key) = [] := by
        refine List.filter_eq_nil_iff.2 fun e he heq => h.1 ?_
        exact List.mem_map.2 ⟨e, he, (eq_of_beq heq).trans hk.symm⟩
      simp [hk, hnone]
    · rw [List.filter_cons_of_neg (by simpa using hk), ih h.2,
        Dict.lookup_cons_of_ne (Ne.symm hk)]

/-- No key is there twice, so that none is refused for that. -/
theorem soleValue?_of_nodup {entries : List (String × JsonSyntax)}
    (h : (entries.map (·.1)).Nodup) (key : String) :
    soleValue? entries key = some (entries.lookup key) := by
  rw [soleValue?, filter_key h]
  cases entries.lookup key <;> rfl

theorem lookup_map_written (es : List (String × Json)) (key : String) :
    (es.map fun e => (e.1, e.2.written)).lookup key = (es.lookup key).map Json.written := by
  induction es with
  | nil => rfl
  | cons e es ih =>
    obtain ⟨k, v⟩ := e
    by_cases hk : key = k
    · simp [hk]
    · rw [List.map_cons, Dict.lookup_cons_of_ne hk, Dict.lookup_cons_of_ne hk, ih]

/-- A record that was written with different keys has the value of each key that is asked for. -/
theorem record?_written {fields : List (String × Json)} (h : (fields.map (·.1)).Nodup)
    (keys : List String) :
    record? keys (Json.object fields).written =
      some (keys.map fun key => (fields.lookup key).map Json.written) := by
  have hnodup : ((fields.map fun e => (e.1, e.2.written)).map (·.1)).Nodup := by
    rwa [List.map_map]
  have hsole : soleValue? (fields.map fun e => (e.1, e.2.written)) =
      fun key => some ((fields.lookup key).map Json.written) := by
    funext key
    rw [soleValue?_of_nodup hnodup, lookup_map_written]
  rw [Json.written, record?, keyed?_written, Option.bind_some, hsole]
  exact List.mapM_pure

/-- A list is read if each of its items is. -/
theorem list?_written {α : Type} {json : α → Json} {read : JsonSyntax → Option α} {xs : List α}
    (h : ∀ x ∈ xs, read (json x).written = some x) :
    list? read (Json.array (xs.map json)).written = some xs := by
  rw [Json.written, list?, itemsWritten_eq_map]
  induction xs with
  | nil => rfl
  | cons x xs ih =>
    obtain ⟨hx, hxs⟩ := List.forall_mem_cons.1 h
    rw [List.map_cons, List.map_cons, List.mapM_cons, hx, ih hxs]
    rfl

theorem plainString?_written (text : String) :
    plainString? (Json.string text).written = some text := by
  rw [Json.written, plainString?, textOf?_pieces]

theorem word?_written (w : UInt64) : word? (Json.int w.toNat).written = some w := by
  have hwhole : Nat.ofDigitChars 10 (Nat.toDigits 10 w.toNat) 0 = w.toNat :=
    Nat.ofDigitChars_ten_toDigits
  have hsign : decide ((w.toNat : Int) < 0) = false := decide_eq_false (by omega)
  have hnumeral : Json.integerNumeral w.toNat = ⟨false, Nat.toDigits 10 w.toNat, [], none⟩ := by
    rw [Json.integerNumeral, hsign]
    rfl
  rw [Json.written, word?, hnumeral, Numeral.word?_eq_some (by rw [hwhole]; exact w.toNat_lt),
    hwhole, UInt64.ofNat_toNat]

/-! ## Dictionaries -/

theorem json?_object (levels : Nat) (entries : List (List Piece × JsonSyntax)) :
    (object entries).json? levels = (dict? levels (object entries)).map .ofDict := by
  cases levels with
  | zero => rw [json?]; rfl
  | succ levels => rw [json?, dict?, Option.map_map]; rfl

/-- A dictionary that can be carried is read as it was written. -/
theorem dict?_written {levels : Nat} {d : Dict Json} (h : (Json.ofDict d).Carried levels) :
    dict? levels (Json.ofDict d).written = some d := by
  have hread := Json.json?_written h
  rw [Json.ofDict, Json.written, json?_object] at hread
  obtain ⟨d', hd, heq⟩ := Option.map_eq_some_iff.1 hread
  have hentries : d'.entries = d.entries := Json.object.inj heq
  rw [Json.ofDict, Json.written, hd]
  cases d
  cases d'
  cases hentries
  rfl

/-- A dictionary that was read can be carried. -/
theorem fits_of_dict? {levels : Nat} {s : JsonSyntax} {d : Dict Json}
    (h : dict? levels s = some d) : (Json.ofDict d).Fits levels := by
  cases s with
  | object entries =>
    have hread : (object entries).json? levels = some (.ofDict d) := by
      rw [json?_object, h]
      rfl
    exact Json.fits_of_json? hread
  | _ => cases h

/-! ## Fields that are left out -/

/-- The second text is the first with one field more, which has one of the given defaults: at any
place among the entries of an object, or behind the items of an array. -/
inductive Fills (keys : List String) (defaults : List (String × JsonSyntax)) :
    JsonSyntax → JsonSyntax → Prop
  | entry {before after : List (List Piece × JsonSyntax)} {name : List Piece} {key : String}
      {value : JsonSyntax} (hdefault : (key, value) ∈ defaults) (hname : textOf? name = some key)
      (hnew : ∀ e ∈ before ++ after, textOf? e.1 ≠ some key) :
      Fills keys defaults (object (before ++ after)) (object (before ++ (name, value) :: after))
  | item {items : List JsonSyntax} {key : String} {value : JsonSyntax}
      (hdefault : (key, value) ∈ defaults) (hkey : keys[items.length]? = some key) :
      Fills keys defaults (array items) (array (items ++ [value]))

theorem mapM_congr {α β : Type} {f g : α → Option β} {xs : List α} (h : ∀ x ∈ xs, f x = g x) :
    xs.mapM f = xs.mapM g := by
  induction xs with
  | nil => rfl
  | cons x xs ih =>
    obtain ⟨hx, hxs⟩ := List.forall_mem_cons.1 h
    rw [List.mapM_cons, List.mapM_cons, hx, ih hxs]

/-- Where one key among others is answered otherwise than before, so is it in the list of all
answers. -/
theorem mapM_update {α : Type} {f g : String → Option (Option α)} {keys : List String}
    (hkeys : keys.Nodup) {key : String} (hkey : key ∈ keys) {value : α}
    (hf : f key = some none) (hg : g key = some (some value))
    (hother : ∀ k, k ≠ key → g k = f k) :
    keys.mapM g = (keys.mapM f).map (·.set (keys.idxOf key) (some value)) ∧
      ∀ fields, keys.mapM f = some fields → fields[keys.idxOf key]? = some none := by
  induction keys with
  | nil => cases hkey
  | cons k keys ih =>
    obtain ⟨hk, hkeys⟩ := List.nodup_cons.1 hkeys
    by_cases heq : k = key
    · subst heq
      have hrest : keys.mapM g = keys.mapM f :=
        mapM_congr fun k' hk' => hother k' (ne_of_mem_of_not_mem hk' hk)
      rw [List.mapM_cons, List.mapM_cons, hf, hg, hrest, List.idxOf_cons_self]
      cases keys.mapM f with
      | none => exact ⟨rfl, nofun⟩
      | some fields => exact ⟨rfl, by rintro _ ⟨⟩; rfl⟩
    · obtain ⟨hset, hnone⟩ := ih hkeys ((List.mem_cons.1 hkey).resolve_left (Ne.symm heq))
      rw [List.mapM_cons, List.mapM_cons, hother k heq, hset, List.idxOf_cons_ne _ heq]
      cases f k with
      | none => exact ⟨rfl, nofun⟩
      | some field =>
        cases hfields : keys.mapM f with
        | none => exact ⟨rfl, nofun⟩
        | some fields => exact ⟨rfl, by rintro _ ⟨⟩; exact hnone fields hfields⟩

theorem keyed?_append (es ds : List (List Piece × JsonSyntax)) :
    keyed? (es ++ ds) = (keyed? es).bind fun a => (keyed? ds).map (a ++ ·) := by
  induction es with
  | nil =>
    rw [List.nil_append]
    cases keyed? ds <;> rfl
  | cons e es ih =>
    obtain ⟨name, v⟩ := e
    rw [List.cons_append, keyed?_cons, keyed?_cons, ih]
    cases textOf? name <;> cases keyed? es <;> cases keyed? ds <;> rfl

theorem textOf?_of_mem_keyed? {es : List (List Piece × JsonSyntax)}
    {ks : List (String × JsonSyntax)} (h : keyed? es = some ks) {k : String × JsonSyntax}
    (hk : k ∈ ks) : ∃ e ∈ es, textOf? e.1 = some k.1 := by
  obtain ⟨e, he, hread⟩ := exists_of_mem_mapM h hk
  obtain ⟨key, hkey, rfl⟩ := Option.map_eq_some_iff.1 hread
  exact ⟨e, he, hkey⟩

section

variable {before after : List (String × JsonSyntax)} {key : String}

/-- An entry under another key does not matter. -/
theorem soleValue?_insert_of_ne {k : String} (hne : k ≠ key) (value : JsonSyntax) :
    soleValue? (before ++ (key, value) :: after) k = soleValue? (before ++ after) k := by
  have hkey : ((key, value) :: after).filter (·.1 == k) = after.filter (·.1 == k) :=
    List.filter_cons_of_neg (by simpa using Ne.symm hne)
  rw [soleValue?, soleValue?, List.filter_append, List.filter_append, hkey]

theorem soleValue?_of_new (hnew : ∀ e ∈ before ++ after, e.1 ≠ key) :
    soleValue? (before ++ after) key = some none := by
  have hnil : (before ++ after).filter (·.1 == key) = [] :=
    List.filter_eq_nil_iff.2 fun e he heq => hnew e he (eq_of_beq heq)
  rw [soleValue?, hnil]
  rfl

/-- An entry under a new key is the only one there. -/
theorem soleValue?_insert (hnew : ∀ e ∈ before ++ after, e.1 ≠ key) (value : JsonSyntax) :
    soleValue? (before ++ (key, value) :: after) key = some (some value) := by
  have hnil : (before ++ after).filter (·.1 == key) = [] :=
    List.filter_eq_nil_iff.2 fun e he heq => hnew e he (eq_of_beq heq)
  rw [List.filter_append, List.append_eq_nil_iff] at hnil
  have hkey : ((key, value) :: after).filter (·.1 == key) =
      (key, value) :: after.filter (·.1 == key) :=
    List.filter_cons_of_pos (beq_self_eq_true key)
  rw [soleValue?, List.filter_append, hkey, hnil.1, hnil.2]
  rfl

end

section

variable {keys : List String} {key : String} {value : JsonSyntax}

/-- The fields of an object with an entry more, under a key that is new. -/
theorem record?_insert (hkeys : keys.Nodup) (hkey : key ∈ keys)
    {before after : List (List Piece × JsonSyntax)} {name : List Piece}
    (hname : textOf? name = some key)
    (hnew : ∀ e ∈ before ++ after, textOf? e.1 ≠ some key) :
    record? keys (object (before ++ (name, value) :: after)) =
        (record? keys (object (before ++ after))).map (·.set (keys.idxOf key) (some value)) ∧
      ∀ fields, record? keys (object (before ++ after)) = some fields →
        fields[keys.idxOf key]? = some none := by
  rw [record?, record?, keyed?_append, keyed?_append, keyed?_cons, hname]
  cases hb : keyed? before with
  | none => exact ⟨rfl, fun _ hfields => by cases hfields⟩
  | some bs =>
    cases ha : keyed? after with
    | none => exact ⟨rfl, fun _ hfields => by cases hfields⟩
    | some as =>
      have hfresh : ∀ e ∈ bs ++ as, e.1 ≠ key := by
        intro e he heq
        have htext : ∃ d ∈ before ++ after, textOf? d.1 = some e.1 :=
          textOf?_of_mem_keyed? (by rw [keyed?_append, hb, ha]; rfl) he
        obtain ⟨d, hd, htext⟩ := htext
        exact hnew d hd (by rw [htext, heq])
      exact mapM_update hkeys hkey (soleValue?_of_new hfresh) (soleValue?_insert hfresh value)
        fun k hk => soleValue?_insert_of_ne hk value

/-- The fields of an array with an item more, in the place of a key. -/
theorem record?_concat (hkeys : keys.Nodup) {items : List JsonSyntax}
    (hkey : keys[items.length]? = some key) :
    record? keys (array (items ++ [value])) =
        (record? keys (array items)).map (·.set (keys.idxOf key) (some value)) ∧
      ∀ fields, record? keys (array items) = some fields →
        fields[keys.idxOf key]? = some none := by
  obtain ⟨hlt, hget⟩ := List.getElem?_eq_some_iff.1 hkey
  have hidx : keys.idxOf key = items.length := by
    rw [← hget]
    exact hkeys.idxOf_getElem _ hlt
  have hle : items.length ≤ keys.length := Nat.le_of_lt hlt
  have hle' : items.length + 1 ≤ keys.length := hlt
  have hlength : (items ++ [value]).length = items.length + 1 := List.length_append
  have hlen : (items.map some).length = items.length := List.length_map some
  obtain ⟨more, hmore⟩ : ∃ more, keys.length = items.length + 1 + more :=
    ⟨keys.length - (items.length + 1), by omega⟩
  have hbefore : keys.length - items.length = more + 1 := by omega
  have hafter : keys.length - (items.length + 1) = more := by omega
  rw [record?, record?, if_pos hle, hlength, if_pos hle', hidx, hbefore, hafter,
    List.replicate_succ, Option.map_some, List.map_append, List.append_assoc]
  refine ⟨congrArg some ?_, ?_⟩
  · rw [List.set_append_right _ _ (Nat.le_of_eq hlen), hlen, Nat.sub_self]
    rfl
  · rintro _ ⟨⟩
    rw [List.getElem?_append_right (Nat.le_of_eq hlen), hlen, Nat.sub_self]
    rfl

end

/-- Both records are refused, or the second one has the default where the first one has nothing. -/
theorem record?_of_fills {keys : List String} (hkeys : keys.Nodup)
    {defaults : List (String × JsonSyntax)} (hdefaults : ∀ d ∈ defaults, d.1 ∈ keys)
    {s s' : JsonSyntax} (h : Fills keys defaults s s') :
    (record? keys s = none ∧ record? keys s' = none) ∨
      ∃ d ∈ defaults, ∃ fields, fields.length = keys.length ∧ record? keys s = some fields ∧
        fields[keys.idxOf d.1]? = some none ∧
        record? keys s' = some (fields.set (keys.idxOf d.1) (some d.2)) := by
  obtain ⟨d, hd, hset, hmissing⟩ : ∃ d ∈ defaults,
      record? keys s' = (record? keys s).map (·.set (keys.idxOf d.1) (some d.2)) ∧
      ∀ fields, record? keys s = some fields → fields[keys.idxOf d.1]? = some none := by
    cases h with
    | entry hdefault hname hnew =>
      exact ⟨_, hdefault, record?_insert hkeys (hdefaults _ hdefault) hname hnew⟩
    | item hdefault hkey => exact ⟨_, hdefault, record?_concat hkeys hkey⟩
  cases hfields : record? keys s with
  | none => exact .inl ⟨rfl, by rw [hset, hfields]; rfl⟩
  | some fields =>
    refine .inr ⟨d, hd, fields, length_of_record? hfields, rfl, hmissing fields hfields, ?_⟩
    rw [hset, hfields]
    rfl

end QueryBatch.JsonSyntax
