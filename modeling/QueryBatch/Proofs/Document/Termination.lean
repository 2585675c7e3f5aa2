import QueryBatch.Document.OfSource
import QueryBatch.Proofs.Document.Errorless
import QueryBatch.Proofs.Document.Nesting
import QueryBatch.Proofs.Token.Progress
import QueryBatch.Proofs.Token.Tiling

/-!
# Reading a source comes to an end

Steps of a loop may use no token where a mistake is reported. The loop then notices that its place
in the source is the same as before, and steps over a token. Main statements:

* `Production.Loops.unique`: if every turn of a loop uses a token, its equation has one solution;
* `Production.guardedBy_eq_forced`: comparing places finds out whether a step has used a token;
* `Production.loops_of_advances`, `Production.loops_guardedBy`, `Production.loops_selectionBy`: the
  loops of the language use a token in every turn;
* `Production.tellsUse_headStop`, `Production.tellsUse_headPlace`: places may be compared as
  numbers, and with 32 bits where they fit;
* `Production.call_eq_headPlace`: the place that is compared is that of the scanner of bytes;
* `Document.terminates`: every source is read to its end unless its places do not fit into 32 bits,
  and every turn of a loop and every nested phrase on the way has fewer tokens before it than the
  one before.
-/

namespace QueryBatch

open Text

namespace Production

variable {σ : Type} {source : String} {stop : Kind → Bool} {step : σ → Production σ}

/-! ## Loops of which each turn uses a token -/

/-- While tokens of a source follow, and not one where to stop, the loop takes a turn and goes on.
Each turn uses at least one token. -/
structure Loops (source : String) (stop : Kind → Bool) (turn loop : σ → Production σ) : Prop where
  ends : ∀ s ts, ts = [] ∨ stop (headKind ts) = true → loop s ts = ⟨s, ts, []⟩
  turns : ∀ s t ts, t :: ts <:+ tokenize source → stop t.kind = false →
    loop s (t :: ts) = (turn s >>= loop) (t :: ts)
  uses : ∀ s t ts, t :: ts <:+ tokenize source → stop t.kind = false →
    (turn s (t :: ts)).rest <:+ ts

theorem Loops.unique {turn loop loop' : σ → Production σ} (h : Loops source stop turn loop)
    (h' : Loops source stop turn loop') (s : σ) {ts : List Token} (hts : ts <:+ tokenize source) :
    loop s ts = loop' s ts := by
  induction hlen : ts.length using Nat.strongRecOn generalizing s ts with
  | ind length ih =>
    subst hlen
    cases ts with
    | nil => rw [h.ends s [] (.inl rfl), h'.ends s [] (.inl rfl)]
    | cons t ts =>
      cases hstop : stop t.kind with
      | true => rw [h.ends s (t :: ts) (.inr hstop), h'.ends s (t :: ts) (.inr hstop)]
      | false =>
        have huse := h.uses s t ts hts hstop
        have hmore := huse.trans ((List.suffix_cons t ts).trans hts)
        rw [h.turns s t ts hts hstop, h'.turns s t ts hts hstop, bind_apply, bind_apply,
          ih _ (Nat.lt_succ_of_le huse.length_le) _ hmore rfl]

/-! ## Steps that are made to use a token -/

/-- A step after which one token is stepped over if the step has used none. -/
def forced (step : σ → Production σ) (s : σ) : Production σ := fun ts =>
  let first := step s ts
  ⟨first.value, if first.rest.length ≤ ts.tail.length then first.rest else ts.tail, first.reports⟩

theorem iterate_eq_forced {t : Token} (h : stop t.kind = false) (s : σ) (ts : List Token) :
    iterate stop step s (t :: ts) = (forced step s >>= iterate stop step) (t :: ts) := by
  rw [iterate, if_neg (by rw [h]; exact Bool.false_ne_true)]
  rfl

theorem forced_suffix (h : ∀ s, (step s).Consumes) (s : σ) (t : Token) (ts : List Token) :
    (forced step s (t :: ts)).rest <:+ ts := by
  show (if (step s (t :: ts)).rest.length ≤ ts.length then (step s (t :: ts)).rest else ts) <:+ ts
  split
  · rename_i hlen
    rcases List.suffix_cons_iff.1 (h s (t :: ts)) with hall | hshort
    · rw [hall, List.length_cons] at hlen
      omega
    · exact hshort
  · exact List.suffix_rfl

theorem forced_of_suffix {s : σ} {t : Token} {ts : List Token}
    (h : (step s (t :: ts)).rest <:+ ts) : forced step s (t :: ts) = step s (t :: ts) := by
  show (⟨_, if (step s (t :: ts)).rest.length ≤ ts.length then _ else _, _⟩ : Reading σ) = _
  rw [if_pos h.length_le]

/-- A loop whose turns do what its steps do, but use at least one token. -/
theorem loops_of_forced {turn : σ → Production σ} (h : ∀ s, (step s).Consumes)
    (hturn : ∀ s t ts, t :: ts <:+ tokenize source → stop t.kind = false →
      turn s (t :: ts) = forced step s (t :: ts)) :
    Loops source stop turn (iterate stop step) where
  ends s ts hend := by
    cases ts with
    | nil => exact iterate_nil stop step s
    | cons t ts => exact iterate_of_stop (hend.resolve_left (List.cons_ne_nil t ts)) step s ts
  turns s t ts hts hstop := by
    rw [iterate_eq_forced hstop, bind_apply, bind_apply, hturn s t ts hts hstop]
  uses s t ts hts hstop := by
    rw [hturn s t ts hts hstop]
    exact forced_suffix h s t ts

theorem loops_of_advances (h : ∀ s, (step s).Advances) :
    Loops source stop step (iterate stop step) :=
  loops_of_forced (fun s => (h s).consumes) fun s t ts _ _ =>
    (forced_of_suffix (h s (t :: ts))).symm

/-! ## Comparing places -/

section Places

variable {P : Type} [DecidableEq P] {place : List Token → P}

/-- Looks at a place that is known from the tokens that are left. -/
def lookAt (place : List Token → P) : Production P := fun ts => ⟨place ts, ts, []⟩

/-- A step after which one token is stepped over if the place is still the same. -/
def guardedBy (place : List Token → P) (step : σ → Production σ) (s : σ) : Production σ := do
  let before ← lookAt place
  let next ← step s
  if (← lookAt place) = before then advance
  return next

/-- A turn of the loop over a selection. A fragment selection is stepped over without comparing
places. -/
def selectionTurnBy (place : List Token → P) (selection : Production (List Field))
    (kept : List Field) : Production (List Field) := do
  if (← peek) = .punctuator .spread then do
    reportHere [.fragmentSelection]
    skipFragmentSelection
    pure kept
  else guardedBy place (keeping (field selection)) kept

/-- Where tokens of a source have been used and others are left, the place is another one. -/
def TellsUse (source : String) (place : List Token → P) : Prop :=
  ∀ t ts u us, t :: ts <:+ tokenize source → u :: us <:+ ts → place (u :: us) ≠ place (t :: ts)

theorem guardedBy_apply (place : List Token → P) (step : σ → Production σ) (s : σ)
    (ts : List Token) :
    guardedBy place step s ts =
      ⟨(step s ts).value,
        if place (step s ts).rest = place ts then (step s ts).rest.tail else (step s ts).rest,
        (step s ts).reports⟩ := by
  have hplace : ∀ {α : Type} (f : P → Production α) (us : List Token),
      (lookAt place >>= f) us = f (place us) us := fun _ _ => rfl
  rw [guardedBy, hplace, bind_apply, hplace]
  split <;> simp [advance_bind, pure_apply]

/-- Comparing places finds out whether a step has used a token. -/
theorem guardedBy_eq_forced (hplace : TellsUse source place) (h : ∀ s, (step s).Consumes) (s : σ)
    {t : Token} {ts : List Token} (hts : t :: ts <:+ tokenize source) :
    guardedBy place step s (t :: ts) = forced step s (t :: ts) := by
  rw [guardedBy_apply]
  rcases List.suffix_cons_iff.1 (h s (t :: ts)) with hall | hshort
  · rw [hall, if_pos rfl]
    simp [forced, hall]
  · -- A later token has a later place; without one, there is nothing to step over.
    have hkeep : ∀ rest, rest <:+ ts →
        (if place rest = place (t :: ts) then rest.tail else rest) = rest := by
      intro rest hrest
      cases rest with
      | nil => exact ite_self _
      | cons u us => rw [if_neg (hplace t ts u us hts hrest)]
    rw [forced_of_suffix hshort, hkeep _ hshort]

theorem loops_guardedBy (hplace : TellsUse source place) (h : ∀ s, (step s).Consumes) :
    Loops source stop (guardedBy place step) (iterate stop step) :=
  loops_of_forced h fun s _ _ hts _ => guardedBy_eq_forced hplace h s hts

theorem loops_selectionBy (hplace : TellsUse source place) {selection : Production (List Field)}
    (h : selection.Consumes) :
    Loops source stop (selectionTurnBy place selection)
      (iterate stop (selectionStep selection)) := by
  refine loops_of_forced (consumes_selectionStep h) fun kept t ts hts _ => ?_
  by_cases hspread : headKind (t :: ts) = .punctuator .spread
  · rw [forced_of_suffix (selectionStep_suffix_of_spread hspread kept), selectionTurnBy,
      selectionStep, peek_bind, peek_bind, if_pos hspread, if_pos hspread]
  · have hfield : selectionStep selection kept (t :: ts) =
        keeping (field selection) kept (t :: ts) := by
      rw [selectionStep, peek_bind, if_neg hspread]
      rfl
    have hforced : forced (selectionStep selection) kept (t :: ts) =
        forced (keeping (field selection)) kept (t :: ts) := by
      rw [forced, forced, hfield]
    rw [hforced, ← guardedBy_eq_forced hplace (consumes_keeping (consumes_field h)) kept hts,
      selectionTurnBy, peek_bind, if_neg hspread]

end Places

/-! ## Places as numbers -/

/-- The place in a source behind the next token, where the source ends with the tokens. -/
def position (source : String) : Production Nat := lookAt (headStop (utf8Length source.toList))

/-- A step after which one token is stepped over if the place is still the same. -/
def guarded (source : String) (step : σ → Production σ) (s : σ) : Production σ :=
  guardedBy (headStop (utf8Length source.toList)) step s

/-- A turn of the loop over a selection, in which places of a source are compared. -/
def selectionTurn (source : String) (selection : Production (List Field)) (kept : List Field) :
    Production (List Field) :=
  selectionTurnBy (headStop (utf8Length source.toList)) selection kept

theorem tellsUse_headStop (source : String) :
    TellsUse source (headStop (utf8Length source.toList)) := by
  intro t ts u us hts hus
  have hlater := Cursor.headStop_lt hts hus
  rw [Cursor.stop_ofSource] at hlater
  exact Nat.ne_of_gt hlater

theorem guarded_eq_forced (h : ∀ s, (step s).Consumes) (s : σ) {t : Token} {ts : List Token}
    (hts : t :: ts <:+ tokenize source) :
    guarded source step s (t :: ts) = forced step s (t :: ts) :=
  guardedBy_eq_forced (tellsUse_headStop source) h s hts

theorem loops_guarded (h : ∀ s, (step s).Consumes) :
    Loops source stop (guarded source step) (iterate stop step) :=
  loops_guardedBy (tellsUse_headStop source) h

theorem loops_selection {selection : Production (List Field)} (h : selection.Consumes) :
    Loops source stop (selectionTurn source selection) (iterate stop (selectionStep selection)) :=
  loops_selectionBy (tellsUse_headStop source) h

/-! ## Places of 32 bits -/

/-- The place behind the next token, as the scanner of bytes keeps it. -/
def headPlace (source : String) (ts : List Token) : UInt32 :=
  .ofNat (headStop (utf8Length source.toList) ts)

/-- Where `n` tokens have been used, the scanner has been called once more than that: it has given
the next token, and stands behind it. -/
theorem call_eq_headPlace (hfits : Bytes.Fits source) (n : Nat) :
    ∃ t, Bytes.call source n = .ok (t, headPlace source ((tokenize source).drop n)) ∧
      t.kind = headKind ((tokenize source).drop n) := by
  by_cases hn : n < (tokenize source).length
  · rw [call_of_lt hfits hn, List.drop_eq_getElem_cons hn]
    exact ⟨Bytes.ofToken (tokenize source)[n], rfl, rfl⟩
  · rw [call_of_le hfits (Nat.le_of_not_lt hn), List.drop_eq_nil_of_le (Nat.le_of_not_lt hn)]
    exact ⟨⟨.eof, _, _⟩, rfl, rfl⟩

/-- No place of a source is behind its end. -/
theorem headStop_le {ts : List Token} (h : ts <:+ tokenize source) :
    headStop (utf8Length source.toList) ts ≤ utf8Length source.toList := by
  cases ts with
  | nil => exact Nat.le_refl _
  | cons t ts =>
    have hmem := (Cursor.stop_of_mem_tokens (h.subset List.mem_cons_self)).2
    rwa [Cursor.stop_ofSource] at hmem

/-- Where all places fit into 32 bits, these tell the same as the places themselves. -/
theorem tellsUse_headPlace (hfits : Bytes.Fits source) : TellsUse source (headPlace source) := by
  intro t ts u us hts hus hsame
  have hmore : u :: us <:+ tokenize source := hus.trans ((List.suffix_cons t ts).trans hts)
  have hnat := congrArg UInt32.toNat hsame
  rw [headPlace, headPlace, hfits.toNat_ofNat (headStop_le hmore),
    hfits.toNat_ofNat (headStop_le hts)] at hnat
  exact tellsUse_headStop source t ts u us hts hus hnat

/-! ## Loops over braces -/

/-- The loop that looks for the next group in braces. -/
theorem loops_definition : Loops source (isMark .braceOpen) (fun _ : Unit => advance)
    (fun _ => skip (List.dropWhile fun t => t.kind != .punctuator .braceOpen)) where
  ends s ts hend := by
    cases ts with
    | nil => rfl
    | cons t ts =>
      have hopen := hend.resolve_left (List.cons_ne_nil t ts)
      rw [skip, List.dropWhile_cons_of_neg (by simpa [isMark, headKind] using hopen)]
  turns s t ts _ hstop := by
    rw [advance_bind, skip, List.dropWhile_cons_of_pos (by simpa [isMark] using hstop)]
    rfl
  uses _ _ _ _ _ := List.suffix_rfl

/-- How many groups inside the current one are open behind a token, or none if the current group is
closed by it. -/
def depthAfter (depth : Nat) (kind : Kind) : Option Nat :=
  if kind = .punctuator .braceOpen then some (depth + 1)
  else if kind = .punctuator .braceClose then
    match depth with
    | 0 => none
    | depth + 1 => some depth
  else some depth

/-- The loop over the tokens of a group takes one token in each turn. -/
theorem closeBraces_cons (depth : Nat) (t : Token) (ts : List Token) :
    closeBraces depth (t :: ts) =
      match depthAfter depth t.kind with
      | none => ts
      | some inner => closeBraces inner ts := by
  rw [closeBraces.eq_def, depthAfter.eq_def]
  by_cases hopen : t.kind = .punctuator .braceOpen
  · simp only [if_pos hopen]
  · by_cases hclose : t.kind = .punctuator .braceClose
    · simp only [if_neg hopen, if_pos hclose]
      cases depth <;> rfl
    · simp only [if_neg hopen, if_neg hclose]

end Production

namespace Document

open Production

/-- The ways in which reading a source goes on, each of which comes to an end. Places are those of
the scanner of bytes. -/
structure ReadsToEnd (source : String) : Prop where
  /-- Where `n` tokens have been used, the scanner's call gives the next one, or the end of the
  source, and the place that is compared. -/
  current : ∀ n, ∃ t, Bytes.call source n =
    .ok (t, headPlace source ((tokenize source).drop n)) ∧
      t.kind = headKind ((tokenize source).drop n)
  /-- Behind the document there is no token, -/
  finished : (ofSource source).rest = []
  /-- and there the scanner gives the end of the source, whenever it is called. -/
  atEnd : ∃ last : UInt32, last.toNat = utf8Length source.toList ∧
    ∀ n, (tokenize source).length ≤ n → Bytes.call source n = .ok (⟨.eof, last, last⟩, last)
  /-- No phrase is read back, so that every loop has tokens before it with which the source ends. -/
  suffixes : operation.Consumes ∧ type.Consumes ∧ (∀ constant, (value constant).Consumes) ∧
    Production.arguments.Consumes ∧ Production.directives.Consumes ∧ selection.Consumes
  document : Loops source (fun _ => false) definitionStep (iterate (fun _ => false) definitionStep)
  variableDefinitions : Loops source (isMark .parenClose)
    (guardedBy (headPlace source) variableStep) (iterate (isMark .parenClose) variableStep)
  arguments : Loops source (isMark .parenClose)
    (guardedBy (headPlace source) (keeping argument))
    (iterate (isMark .parenClose) (keeping argument))
  directives : Loops source (fun kind => !isMark .at kind) (keeping directive)
    (iterate (fun kind => !isMark .at kind) (keeping directive))
  list : ∀ constant, Loops source (isMark .bracketClose)
    (guardedBy (headPlace source) (keeping (value constant)))
    (iterate (isMark .bracketClose) (keeping (value constant)))
  object : ∀ constant, Loops source (isMark .braceClose)
    (guardedBy (headPlace source) (keeping (entry (value constant))))
    (iterate (isMark .braceClose) (keeping (entry (value constant))))
  selectionSet : Loops source (isMark .braceClose)
    (selectionTurnBy (headPlace source) selection)
    (iterate (isMark .braceClose) (selectionStep selection))
  skipDefinition : Loops source (isMark .braceOpen) (fun _ : Unit => advance)
    (fun _ => skip (List.dropWhile fun t => t.kind != .punctuator .braceOpen))
  skipBraces : ∀ depth t ts, closeBraces depth (t :: ts) =
    match depthAfter depth t.kind with
    | none => ts
    | some inner => closeBraces inner ts
  type : Recurs type typeOf
  value : ∀ constant, Recurs (value constant) (valueOf constant)
  selection : Recurs selection selectionOf

theorem readsToEnd (hfits : Bytes.Fits source) : ReadsToEnd source where
  current := call_eq_headPlace hfits
  finished := (rest_iterate (fun _ => false) definitionStep [] _).resolve_right Bool.false_ne_true
  atEnd := ⟨_, hfits.toNat_ofNat (Nat.le_refl _), fun _ => call_of_le hfits⟩
  suffixes := ⟨advances_operation.consumes, consumes_type, consumes_value, consumes_arguments,
    consumes_directives, consumes_selection⟩
  document := loops_of_advances advances_definitionStep
  variableDefinitions := loops_guardedBy (tellsUse_headPlace hfits) consumes_variableStep
  arguments := loops_guardedBy (tellsUse_headPlace hfits) (consumes_keeping consumes_argument)
  directives := loops_of_advances fun _ => advances_directive.bind fun _ => consumes_pure _
  list constant := loops_guardedBy (tellsUse_headPlace hfits)
    (consumes_keeping (consumes_value constant))
  object constant := loops_guardedBy (tellsUse_headPlace hfits)
    (consumes_keeping (consumes_entry (consumes_value constant)))
  selectionSet := loops_selectionBy (tellsUse_headPlace hfits) consumes_selection
  skipDefinition := loops_definition
  skipBraces := closeBraces_cons
  type := recurs_type
  value := recurs_value
  selection := recurs_selection

/-- How the scanner of bytes and the reader come to an end. -/
structure Terminates (source : String) : Prop where
  /-- A call of the scanner fails, uses at least one byte, or gives the end of the source. -/
  lexes : ∀ place t stop, Bytes.next source place = .ok (t, stop) →
    t.kind = .eof ∧ utf8Length source.toList ≤ stop.toNat ∨ t.kind ≠ .eof ∧ place < stop
  /-- So some call gives the end of the source, unless the source is too long for its places and a
  call fails. -/
  ends : ∃ n, (∃ t place, Bytes.call source n = .ok (t, place) ∧ t.kind = .eof) ∨
    UInt32.size - 4 < utf8Length source.toList ∧ ∃ fault, Bytes.call source n = .error fault
  /-- A source that is not too long is read to its end. -/
  reads : utf8Length source.toList ≤ UInt32.size - 4 → ReadsToEnd source

theorem terminates (source : String) : Terminates source where
  lexes _ _ _ := Bytes.next_progress
  ends := by
    obtain ⟨n, hend | ⟨fault, hfault⟩⟩ := Bytes.call_ends source
    · exact ⟨n, .inl hend⟩
    · refine ⟨n, .inr ⟨?_, fault, hfault⟩⟩
      refine Nat.lt_of_not_le fun hle => ?_
      rw [Bytes.call_eq (Bytes.fits_of_le hle)] at hfault
      cases hfault
  reads h := readsToEnd (Bytes.fits_of_le h)

/-- A source with mistakes, which ends inside two groups. -/
theorem terminates_unclosed :
    utf8Length "query ü(x: [1) \x7bf(x:[1 2".toList ≤ UInt32.size - 4 ∧
      ReadsToEnd "query ü(x: [1) \x7bf(x:[1 2" :=
  ⟨by decide, (terminates _).reads (by decide)⟩

end Document

end QueryBatch
