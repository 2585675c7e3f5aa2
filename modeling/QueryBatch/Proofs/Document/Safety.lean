import QueryBatch.Operation.Template
import QueryBatch.Proofs.Document.Alike
import QueryBatch.Proofs.Token.Delimiters
import QueryBatch.Proofs.Token.Tiling

/-!
# Reading a source never fails

Where a place in the source or a counter might run out of range, it does not: all places fit into
32 bits, nothing is cut inside a character, and no brace is closed that has not been opened. Main
statements:

* `countBraces?_zero`: the counter of open braces never goes below zero;
* `Document.span_of_mem_reports`: a report is about a token or about the end of the source;
* `isBoundary_of_mem_diagnostics`, `mapM_render?_errors`: so every diagnostic has a position, and no
  error is lost where they are rendered;
* `readsSafely`: all of this, and that the scanner of bytes gives the tokens that are read.
-/

namespace QueryBatch

open Text

/-! ## Counting braces -/

/-- Leaves out the tokens up to the end of a group, with a counter of the braces that are open.
There is no result where the counter would go below zero. -/
def countBraces? : Nat → List Token → Option (List Token)
  | _, [] => some []
  | count, t :: ts =>
    if t.kind = .punctuator .braceOpen then countBraces? (count + 1) ts
    else if t.kind = .punctuator .braceClose then
      match count with
      | 0 => none
      | count + 1 => if count = 0 then some ts else countBraces? count ts
    else countBraces? count ts

open Production in
theorem countBraces?_succ (depth : Nat) (ts : List Token) :
    countBraces? (depth + 1) ts = some (closeBraces depth ts) := by
  fun_induction closeBraces depth ts with
  | case1 => rfl
  | case2 depth t ts hopen ih => rw [countBraces?, if_pos hopen, ih]
  | case3 t ts hopen hclose => rw [countBraces?, if_neg hopen, if_pos hclose, if_pos rfl]
  | case4 t ts hopen hclose depth ih =>
    rw [countBraces?, if_neg hopen, if_pos hclose, if_neg (Nat.succ_ne_zero depth), ih]
  | case5 depth t ts hopen hclose ih => rw [countBraces?, if_neg hopen, if_neg hclose, ih]

open Production in
/-- Before a group in braces, the counter starts at zero and never goes below it. -/
theorem countBraces?_zero {ts : List Token} (h : headKind ts = .punctuator .braceOpen) :
    countBraces? 0 ts = some (skipBraces ts) := by
  cases ts with
  | nil => rfl
  | cons t ts =>
    have hopen : t.kind = .punctuator .braceOpen := h
    rw [countBraces?, if_pos hopen, countBraces?_succ, skipBraces, if_pos hopen]

/-! ## The places of reports -/

/-- Whether a place is in a source, and not inside a character. -/
def IsBoundary (source : String) (offset : Nat) : Prop :=
  offset ≤ utf8Length source.toList ∧ (splitAtByte? offset source.toList).isSome

theorem isBoundary_of_append {source : String} {before after : List Char}
    (h : source.toList = before ++ after) : IsBoundary source (utf8Length before) := by
  refine ⟨?_, ?_⟩
  · rw [h, utf8Length_append]
    exact Nat.le_add_right ..
  · rw [h, splitAtByte?_append]
    rfl

theorem isBoundary_end (source : String) : IsBoundary source (utf8Length source.toList) :=
  isBoundary_of_append (List.append_nil _).symm

/-- A report is about a token of the source or about its end. -/
theorem Document.span_of_mem_reports {source : String} {r : Report}
    (h : r ∈ (ofSource source).reports) :
    r.span = none ∨ ∃ t ∈ tokenize source, r.span = some t.span := by
  have hspelled : Production.Spelled fun t u => t = u ∧ t ∈ tokenize source := by
    rintro t _ ⟨rfl, -⟩
    rfl
  have htokens : List.Forall₂ (fun t u => t = u ∧ t ∈ tokenize source) (tokenize source)
      (tokenize source) := List.forall₂_same.2 fun t ht => ⟨rfl, ht⟩
  have hreports := (Production.uniform_document hspelled _ _ htokens).reports
  have hspan := (List.forall₂_same.1 hreports r h).span
  cases hr : r.span with
  | none => exact .inl rfl
  | some s =>
    rw [hr] at hspan
    cases hspan with
    | some hs =>
      obtain ⟨t, _, ⟨rfl, ht⟩, rfl, -⟩ := hs
      exact .inr ⟨t, ht, rfl⟩

theorem exists_of_mem_tokenize {source : String} {t : Token} (h : t ∈ tokenize source) :
    ∃ before after, source.toList = before ++ (t.text.toList ++ after) ∧
      utf8Length before = t.start :=
  (Cursor.standsIn_ofSource source).exists_of_mem_tokens h

theorem isBoundary_of_mem_diagnostics {source : String} {d : Diagnostic}
    (h : d ∈ (Document.diagnostics source).toList) :
    ∀ label ∈ d.labels, IsBoundary source label.span.start := by
  obtain ⟨r, hr, rfl⟩ := List.mem_map.1 h
  intro label hlabel
  rw [Report.diagnostic, List.mem_singleton] at hlabel
  subst hlabel
  rcases Document.span_of_mem_reports hr with hnone | ⟨t, ht, hsome⟩
  · rw [hnone]
    exact isBoundary_end source
  · obtain ⟨before, after, hsource, hstart⟩ := exists_of_mem_tokenize ht
    rw [hsome]
    show IsBoundary source t.start
    rw [← hstart]
    exact isBoundary_of_append hsource

theorem isSome_render? {source : String} {d : Diagnostic}
    (h : d ∈ (Document.diagnostics source).toList) : (d.render? source).isSome := by
  refine Diagnostic.isSome_render?_iff.2 fun label hlabel => ?_
  obtain ⟨hle, hsplit⟩ := isBoundary_of_mem_diagnostics h label hlabel
  rw [Position.ofOffset?, Nat.min_eq_left hle, Option.isSome_map]
  exact hsplit

theorem mapM_eq_some_filterMap {α β : Type} {f : α → Option β} {as : List α}
    (h : ∀ a ∈ as, (f a).isSome) : as.mapM f = some (as.filterMap f) := by
  induction as with
  | nil => rfl
  | cons a as ih =>
    obtain ⟨ha, has⟩ := List.forall_mem_cons.1 h
    obtain ⟨b, hb⟩ := Option.isSome_iff_exists.1 ha
    rw [List.mapM_cons, hb, ih has, List.filterMap_cons_some hb]
    rfl

/-- All errors are rendered where an operation cannot be read. -/
theorem mapM_render?_errors (source : String) :
    (Document.diagnostics source).errors.mapM (·.render? source) =
      some (Operation.renderedErrors source) :=
  mapM_eq_some_filterMap fun _ hd => isSome_render? (List.mem_of_mem_filter hd)

/-! ## Reading a source -/

/-- What has been scanned is a token at its place, and its bytes are the text of the token. -/
structure Bytes.Lexed.Shows (source : String) (l : Lexed) (t : Token) : Prop where
  kind : l.kind = t.kind
  start : l.start.toNat = t.span.start
  stop : l.stop.toNat = t.span.stop
  text : slice? l.start.toNat l.stop.toNat source.toList = some t.text.toList

/-- Where a source is read, the scanner does not fail and gives the tokens that are read, quotes
are cut off whole, the counter of open braces never goes below zero, and every diagnostic can be
rendered. -/
structure ReadsSafely (source : String) : Prop where
  calls : ∀ n, ∃ l place, Bytes.call source n = .ok (l, place) ∧
    l.Shows source ((tokenize source)[n]?.getD ⟨.eof, "", utf8Length source.toList⟩)
  strings : ∀ t ∈ tokenize source, t.kind = .string →
    slice? 1 (utf8Length t.text.toList - 1) t.text.toList = some (Literal.inner 1 t.text)
  blockStrings : ∀ t ∈ tokenize source, t.kind = .blockString →
    slice? 3 (utf8Length t.text.toList - 3) t.text.toList = some (Literal.inner 3 t.text)
  braces : ∀ ts, ts <:+ tokenize source → Production.headKind ts = .punctuator .braceOpen →
    countBraces? 0 ts = some (Production.skipBraces ts)
  labels : ∀ d ∈ (Document.diagnostics source).toList, ∀ label ∈ d.labels,
    IsBoundary source label.span.start
  diagnostics : ∀ d ∈ (Document.diagnostics source).toList, (d.render? source).isSome
  errors : (Document.diagnostics source).errors.mapM (·.render? source) =
    some (Operation.renderedErrors source)

theorem Bytes.shows_of_mem {source : String} (hfits : Fits source) {t : Token}
    (h : t ∈ tokenize source) : (ofToken t).Shows source t := by
  obtain ⟨before, after, hsource, hstart⟩ := exists_of_mem_tokenize h
  have hstop : t.stop = utf8Length before + utf8Length t.text.toList := by
    rw [hstart]
    rfl
  have hlength := congrArg utf8Length hsource
  rw [utf8Length_append, utf8Length_append] at hlength
  have hstartNat : (ofToken t).start.toNat = t.start := hfits.toNat_ofNat (by omega)
  have hstopNat : (ofToken t).stop.toNat = t.stop := hfits.toNat_ofNat (by omega)
  refine ⟨rfl, hstartNat, hstopNat, ?_⟩
  rw [hstartNat, hstopNat, hstop, ← hstart, hsource, slice?_append]

theorem Bytes.shows_eof {source : String} (hfits : Fits source) :
    Lexed.Shows source
      ⟨.eof, .ofNat (utf8Length source.toList), .ofNat (utf8Length source.toList)⟩
      ⟨.eof, "", utf8Length source.toList⟩ := by
  have hlast := hfits.toNat_ofNat (Nat.le_refl _)
  have hslice := slice?_append source.toList [] []
  simp only [utf8Length_nil, Nat.add_zero, List.append_nil] at hslice
  refine ⟨rfl, hlast, hlast, ?_⟩
  rw [hlast, hslice]
  rfl

theorem readsSafely {source : String} (h : utf8Length source.toList ≤ UInt32.size - 4) :
    ReadsSafely source := by
  have hfits := Bytes.fits_of_le h
  refine ⟨fun n => ?_, fun t ht hkind => ?_, fun t ht hkind => ?_,
    fun _ _ hopen => countBraces?_zero hopen, fun _ => isBoundary_of_mem_diagnostics,
    fun _ => isSome_render?, mapM_render?_errors source⟩
  · by_cases hn : n < (tokenize source).length
    · refine ⟨_, _, call_of_lt hfits hn, ?_⟩
      rw [List.getElem?_eq_getElem hn]
      exact Bytes.shows_of_mem hfits (List.getElem_mem hn)
    · refine ⟨_, _, call_of_le hfits (Nat.le_of_not_lt hn), ?_⟩
      rw [List.getElem?_eq_none (Nat.le_of_not_lt hn)]
      exact Bytes.shows_eof hfits
  · obtain ⟨body, hbody⟩ := exists_of_kind_string ht hkind
    exact Literal.slice?_inner hbody rfl
  · obtain ⟨body, hbody⟩ := exists_of_kind_blockString ht hkind
    exact Literal.slice?_inner hbody rfl

theorem readsSafely_of_query : ReadsSafely "\x7b é(n: \"ü\\é\") ...F \x7b a \x7d # ä" :=
  readsSafely (by decide)

end QueryBatch
