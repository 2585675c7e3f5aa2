import QueryBatch.Proofs.Document.Consumption
import QueryBatch.Proofs.Document.Readable
import QueryBatch.Proofs.Operation.Rewriting

/-!
# What is read from any source

Where a source has mistakes, a document is read nevertheless: names may be missing from it, but what
is there are names, numbers are finite, and no variable is declared twice. Main statements:

* `Production.Ensures.bind`, `Production.ensures_iterate`: what productions in sequence and loops
  ensure;
* `Production.ensures_value`, `Production.ensures_selection`, `Production.ensures_operation`: what
  the phrases of the language ensure;
* `Document.recovered_ofSource`: so a document can be relied on whatever its source is, and if
  there was no error, it can be written.
-/

namespace QueryBatch

/-! ## What a document can be relied on for -/

/-- A name of the language, or the empty name, which stands for a missing one. -/
def isNameOrMissing (name : String) : Bool := name.isEmpty || isWord name

/-- Whether the name may be missing, and no mark that excludes null follows another. -/
def TypeRef.isRecovered : TypeRef → Bool
  | named name => isNameOrMissing name
  | list element => element.isRecovered
  | nonNull inner => !inner.isNonNull && inner.isRecovered

namespace Value

mutual

/-- Whether at most names are missing from a value: its numbers are finite, and its enumeration
values have names of their own. -/
def isRecovered : Value → Bool
  | var name => isNameOrMissing name
  | float value => value.isFinite
  | enum name => isWord name && isEnumName name
  | list items => areRecovered items
  | object entries => areEntriesRecovered entries
  | _ => true

def areRecovered : List Value → Bool
  | [] => true
  | v :: vs => v.isRecovered && areRecovered vs

def areEntriesRecovered : List (String × Value) → Bool
  | [] => true
  | (key, v) :: es => isNameOrMissing key && v.isRecovered && areEntriesRecovered es

end

/-- Whether a list of values can be relied on is decided value by value. -/
theorem areRecovered_eq_all (vs : List Value) : areRecovered vs = vs.all (·.isRecovered) := by
  induction vs with
  | nil => rfl
  | cons v vs ih => rw [areRecovered, ih, List.all_cons]

theorem areEntriesRecovered_eq_all (es : List (String × Value)) :
    areEntriesRecovered es = es.all fun e => isNameOrMissing e.1 && e.2.isRecovered := by
  induction es with
  | nil => rfl
  | cons e es ih => rw [areEntriesRecovered, ih, List.all_cons]

end Value

def Argument.isRecovered (a : Argument) : Bool := isNameOrMissing a.name && a.value.isRecovered

def Directive.isRecovered (d : Directive) : Bool :=
  isNameOrMissing d.name && d.arguments.all (·.isRecovered)

namespace Field

mutual

/-- Whether at most names and fields are missing from a field. -/
def isRecovered : Field → Bool
  | ⟨alias?, name, arguments, directives, selection⟩ =>
    alias?.all isNameOrMissing && isNameOrMissing name && arguments.all (·.isRecovered) &&
      directives.all (·.isRecovered) && isSelectionRecovered selection

def isSelectionRecovered : Option (List Field) → Bool
  | none => true
  | some fields => areRecovered fields

def areRecovered : List Field → Bool
  | [] => true
  | f :: fs => f.isRecovered && areRecovered fs

end

theorem areRecovered_eq_all (fields : List Field) :
    areRecovered fields = fields.all (·.isRecovered) := by
  induction fields with
  | nil => rfl
  | cons q qs ih => rw [areRecovered, ih, List.all_cons]

/-- A field can be relied on if its names may only be missing, and its parts can be relied on. -/
theorem isRecovered_iff {q : Field} :
    q.isRecovered = true ↔ (q.alias?.all isNameOrMissing = true ∧ isNameOrMissing q.name = true) ∧
      q.arguments.all (·.isRecovered) = true ∧ q.directives.all (·.isRecovered) = true ∧
        isSelectionRecovered q.selection = true := by
  obtain ⟨alias?, name, arguments, directives, selection⟩ := q
  simp only [isRecovered, Bool.and_eq_true, and_assoc]

end Field

def VariableDefinition.isRecovered (v : VariableDefinition) : Bool :=
  isNameOrMissing v.name && v.type.isRecovered && v.default.all (·.isRecovered)

/-- Whether at most names and fields are missing from an operation. -/
def Operation.isRecovered (op : Operation) : Bool :=
  op.name.all isNameOrMissing && op.definitions.all (·.isRecovered) && Field.areRecovered op.fields

/-- What a literal stands for has no names, and is finite if it is a number. -/
theorem Literal.isRecovered_of_ofToken? {t : Token} {literal : Literal}
    (h : ofToken? t = some literal) : literal.value.isRecovered = true := by
  unfold ofToken? at h
  split at h
  · cases Option.some.inj h
    unfold ofInt
    split <;> rfl
  · cases Option.some.inj h
    unfold ofFloat
    split
    · rename_i x hx
      exact (Option.filter_eq_some_iff.1 hx).2
    · rfl
  all_goals cases h
  all_goals rfl

/-! ## Productions with a postcondition -/

/-- Where tokens may stand for names, their texts are words. -/
def NameWords (ts : List Token) : Prop := ∀ t ∈ ts, t.NamesWord

namespace Production

variable {α β σ : Type} {P Q : α → Prop} {R : β → Prop}

/-- Before tokens that are fit to be names where they may be, a production gives a value with a
property, and leaves such tokens. -/
def Ensures (p : Production α) (Q : α → Prop) : Prop :=
  ∀ ts, NameWords ts → NameWords (p ts).rest ∧ Q (p ts).value

/-- Of a production about which nothing else is known, nothing else is ensured. -/
theorem Consumes.ensures {p : Production α} (h : p.Consumes) : p.Ensures fun _ => True :=
  fun ts hts => ⟨fun t ht => hts t ((h ts).subset ht), trivial⟩

theorem ensures_pure {a : α} (h : Q a) : (pure a : Production α).Ensures Q := fun _ hts => ⟨hts, h⟩

namespace Ensures

variable {p q : Production α}

/-- What the first part ensures is there for the second one. -/
theorem bind {f : α → Production β} (hp : p.Ensures P) (hf : ∀ a, P a → (f a).Ensures R) :
    (p >>= f).Ensures R := by
  intro ts hts
  obtain ⟨hrest, hvalue⟩ := hp ts hts
  exact hf _ hvalue _ hrest

theorem map {f : α → β} (hp : p.Ensures P) (hf : ∀ a, P a → R (f a)) : (f <$> p).Ensures R := by
  rw [map_eq_pure_bind]
  exact hp.bind fun a ha => ensures_pure (hf a ha)

theorem ite {c : Prop} [Decidable c] (hp : p.Ensures Q) (hq : q.Ensures Q) :
    (if c then p else q).Ensures Q := by
  split
  · exact hp
  · exact hq

end Ensures

/-- What comes after a production whose value does not matter. -/
theorem Consumes.bind_ensures {p : Production α} {f : α → Production β} (hp : p.Consumes)
    (hf : ∀ a, (f a).Ensures R) : (p >>= f).Ensures R := hp.ensures.bind fun a _ => hf a

theorem Consumes.seqRight_ensures {p : Production α} {q : Production β} (hp : p.Consumes)
    (hq : q.Ensures R) : (p *> q).Ensures R := by
  rw [seqRight_eq_bind]
  exact hp.bind_ensures fun _ => hq

/-- A loop keeps what its steps keep. -/
theorem ensures_iterate {I : σ → Prop} {stop : Kind → Bool} {step : σ → Production σ}
    (h : ∀ s, I s → (step s).Ensures I) {s : σ} (hs : I s) : (iterate stop step s).Ensures I := by
  intro ts hts
  fun_induction iterate stop step s ts with
  | case1 s => exact ⟨hts, hs⟩
  | case2 s t ts hstop => exact ⟨hts, hs⟩
  | case3 s t ts hstop first rest more ih =>
    obtain ⟨hfirst, hvalue⟩ := h s hs (t :: ts) hts
    have hrest : NameWords rest := by
      show NameWords (if first.rest.length ≤ ts.length then first.rest else ts)
      split
      · exact hfirst
      · exact fun u hu => hts u (List.mem_cons_of_mem t hu)
    exact ih hvalue hrest

/-- Each item that is collected satisfies what an item ensures. -/
theorem ensures_many {stop : Kind → Bool} {item : Production α} (h : item.Ensures Q) :
    (many stop item).Ensures fun as => ∀ a ∈ as, Q a := by
  refine ensures_iterate (fun kept hkept => h.bind fun a ha => ensures_pure ?_) nofun
  exact List.forall_mem_append.2 ⟨hkept, List.forall_mem_singleton.2 ha⟩

/-- What each item in brackets ensures is true of all of them. -/
theorem ensures_group {stop : Kind → Bool} {item : Production α} {kind : Kind} {f : List α → β}
    (h : item.Ensures Q) (hf : ∀ as, (∀ a ∈ as, Q a) → R (f as)) :
    (do
      advance
      let items ← many stop item
      expect kind
      pure (f items) : Production β).Ensures R :=
  consumes_advance.bind_ensures fun _ => (ensures_many h).bind fun as has =>
    (consumes_expect kind).bind_ensures fun _ => ensures_pure (hf as has)

/-- A nested phrase ensures what it ensures at each depth. -/
theorem ensures_nested {p : Nat → Production α} (h : ∀ depth, (p depth).Ensures Q) :
    (nested p).Ensures Q := fun ts hts => h _ ts hts

/-! ## Names -/

/-- The tokens of a source that are names have the texts of names. -/
theorem ensures_current : current.Ensures fun t? => ∀ t, t? = some t → t.NamesWord :=
  fun _ hts => ⟨hts, fun t ht => hts t (List.mem_of_mem_head? ht)⟩

theorem isNameOrMissing_of_isWord {name : String} (h : isWord name = true) :
    isNameOrMissing name = true := by
  rw [isNameOrMissing, h, Bool.or_true]

/-- What is read for a name is a name, or empty where none was there. -/
theorem ensures_name : name.Ensures fun n => isNameOrMissing n = true := by
  have hmissing : (expected "a name" *> pure "" : Production String).Ensures
      fun n => isNameOrMissing n = true :=
    (consumes_expected _).seqRight_ensures (ensures_pure rfl)
  refine ensures_current.bind fun t? ht => ?_
  cases t? with
  | none => exact hmissing
  | some t =>
    show (if t.kind.isName then _ else _ : Production String).Ensures _
    split
    · rename_i hname
      have hword := isNameOrMissing_of_isWord (ht t rfl hname).1
      exact consumes_advance.seqRight_ensures (ensures_pure hword)
    · exact hmissing

/-! ## Types -/

theorem ensures_typeOf {element : Production TypeRef}
    (h : element.Ensures fun t => t.isRecovered = true) :
    (typeOf element).Ensures fun t => t.isRecovered = true := by
  have hclose : ∀ t : TypeRef, t.isNonNull = false ∧ t.isRecovered = true → (do
      if (← peek) = .punctuator .bang then do
        advance
        pure (.nonNull t)
      else pure t : Production TypeRef).Ensures fun t => t.isRecovered = true := by
    rintro t ⟨hnull, ht⟩
    refine consumes_peek.bind_ensures fun _ => .ite ?_ (ensures_pure ht)
    refine consumes_advance.bind_ensures fun _ => ensures_pure ?_
    rw [TypeRef.isRecovered, hnull, ht]
    rfl
  refine consumes_peek.bind_ensures fun _ => .ite ?_ ?_
  · exact consumes_advance.bind_ensures fun _ => h.bind fun t ht =>
      (consumes_expect _).bind_ensures fun _ => (ensures_pure ⟨rfl, ht⟩).bind hclose
  · exact ensures_name.bind fun name hname => (ensures_pure ⟨rfl, hname⟩).bind hclose

theorem ensures_typeWithin (depth : Nat) :
    (typeWithin depth).Ensures fun t => t.isRecovered = true := by
  induction depth with
  | zero => exact ensures_pure rfl
  | succ depth ih => exact ensures_typeOf ih

theorem ensures_type : type.Ensures fun t => t.isRecovered = true :=
  ensures_nested ensures_typeWithin

/-! ## Values -/

theorem ensures_entry {value : Production Value} (h : value.Ensures fun v => v.isRecovered = true) :
    (entry value).Ensures fun e => (isNameOrMissing e.1 && e.2.isRecovered) = true :=
  ensures_name.bind fun _ hkey => (consumes_expect _).bind_ensures fun _ =>
    h.bind fun _ hv => ensures_pure (Bool.and_eq_true_iff.2 ⟨hkey, hv⟩)

theorem ensures_variableOf (constant : Bool) (mark : Token) :
    (variableOf constant mark).Ensures fun v => v.isRecovered = true :=
  consumes_advance.bind_ensures fun _ => ensures_name.bind fun _ hname =>
    .ite ((consumes_report _ _).bind_ensures fun _ => ensures_pure hname) (ensures_pure hname)

/-- What is true of the items of a value is true of the value. -/
theorem ensures_valueOf {constant : Bool} {item : Production Value}
    (h : item.Ensures fun v => v.isRecovered = true) :
    (valueOf constant item).Ensures fun v => v.isRecovered = true := by
  refine ensures_current.bind fun t? ht => ?_
  cases t? with
  | none => exact (consumes_expected _).seqRight_ensures (ensures_pure rfl)
  | some t =>
    cases hliteral : Literal.ofToken? t with
    | some literal =>
      simp only [hliteral]
      exact ((consumes_reportHere _).seqRight consumes_advance).seqRight_ensures
        (ensures_pure (Literal.isRecovered_of_ofToken? hliteral))
    | none =>
      simp only [hliteral]
      split
      · exact ensures_variableOf constant t
      · refine ensures_group h fun vs hvs => ?_
        rw [Value.isRecovered, Value.areRecovered_eq_all, List.all_eq_true]
        exact hvs
      · refine ensures_group (ensures_entry h) fun es hes => ?_
        rw [Value.isRecovered, Value.areEntriesRecovered_eq_all, List.all_eq_true]
        exact hes
      · split
        · rename_i hname
          obtain ⟨hword, hkind⟩ := ht t rfl hname
          have henum := Literal.isEnumName_of_ofToken? hkind hliteral
          exact consumes_advance.seqRight_ensures
            (ensures_pure (Bool.and_eq_true_iff.2 ⟨hword, henum⟩))
        · exact ((consumes_expected _).seqRight consumes_advance).seqRight_ensures
            (ensures_pure rfl)

theorem ensures_valueWithin (constant : Bool) (depth : Nat) :
    (valueWithin constant depth).Ensures fun v => v.isRecovered = true := by
  induction depth with
  | zero => exact ensures_pure rfl
  | succ depth ih => exact ensures_valueOf ih

theorem ensures_value (constant : Bool) :
    (value constant).Ensures fun v => v.isRecovered = true :=
  ensures_nested (ensures_valueWithin constant)

/-! ## Arguments and directives -/

theorem ensures_argument : argument.Ensures fun a => a.isRecovered = true :=
  (ensures_entry (ensures_value false)).bind fun _ he => ensures_pure he

theorem ensures_arguments : arguments.Ensures fun args => ∀ a ∈ args, a.isRecovered = true :=
  consumes_peek.bind_ensures fun _ =>
    .ite (ensures_group ensures_argument fun _ hargs => hargs) (ensures_pure nofun)

theorem ensures_directive : directive.Ensures fun d => d.isRecovered = true :=
  consumes_advance.bind_ensures fun _ => ensures_name.bind fun _ hname =>
    ensures_arguments.bind fun _ hargs =>
      ensures_pure (Bool.and_eq_true_iff.2 ⟨hname, List.all_eq_true.2 hargs⟩)

theorem ensures_directives : directives.Ensures fun ds => ∀ d ∈ ds, d.isRecovered = true :=
  ensures_many ensures_directive

/-! ## Selections -/

theorem ensures_field {selection : Production (List Field)}
    (h : selection.Ensures fun fields => ∀ q ∈ fields, q.isRecovered = true) :
    (field selection).Ensures fun q => q.isRecovered = true := by
  have hrest : ∀ head : Option String × String,
      head.1.all isNameOrMissing = true ∧ isNameOrMissing head.2 = true → (do
        let args ← arguments
        let dirs ← directives
        let fields ← if (← peek) = .punctuator .braceOpen then some <$> selection else pure none
        pure ⟨head.1, head.2, args, dirs, fields⟩ : Production Field).Ensures
          fun q => q.isRecovered = true := by
    intro head hhead
    refine ensures_arguments.bind fun args hargs => ensures_directives.bind fun dirs hdirs =>
      consumes_peek.bind_ensures fun _ => ?_
    have hfield : ∀ fields, Field.isSelectionRecovered fields = true →
        (⟨head.1, head.2, args, dirs, fields⟩ : Field).isRecovered = true := fun fields hfields =>
      Field.isRecovered_iff.2 ⟨hhead, List.all_eq_true.2 hargs, List.all_eq_true.2 hdirs, hfields⟩
    refine .ite ?_ ?_
    · refine (h.map (R := fun fields => Field.isSelectionRecovered fields = true) ?_).bind
        fun fields hfields => ensures_pure (hfield fields hfields)
      intro fields hfields
      rw [Field.isSelectionRecovered, Field.areRecovered_eq_all, List.all_eq_true]
      exact hfields
    · rw [pure_bind]
      exact ensures_pure (hfield none rfl)
  refine ensures_name.bind fun first hfirst => consumes_peek.bind_ensures fun _ => .ite ?_ ?_
  · exact consumes_advance.bind_ensures fun _ => ensures_name.bind fun second hsecond =>
      (ensures_pure ⟨hfirst, hsecond⟩).bind hrest
  · exact (ensures_pure ⟨rfl, hfirst⟩).bind hrest

theorem ensures_selectionStep {selection : Production (List Field)}
    (h : selection.Ensures fun fields => ∀ q ∈ fields, q.isRecovered = true) {kept : List Field}
    (hkept : ∀ q ∈ kept, q.isRecovered = true) :
    (selectionStep selection kept).Ensures fun fields => ∀ q ∈ fields, q.isRecovered = true := by
  refine consumes_peek.bind_ensures fun _ => .ite ?_ ?_
  · exact (consumes_reportHere _).bind_ensures fun _ =>
      advances_skipFragmentSelection.consumes.bind_ensures fun _ => ensures_pure hkept
  · exact (ensures_field h).bind fun q hq =>
      ensures_pure (List.forall_mem_append.2 ⟨hkept, List.forall_mem_singleton.2 hq⟩)

/-- What is true of nested selections is true of the selection around them. -/
theorem ensures_selectionOf {inner : Production (List Field)}
    (h : inner.Ensures fun fields => ∀ q ∈ fields, q.isRecovered = true) :
    (selectionOf inner).Ensures fun fields => ∀ q ∈ fields, q.isRecovered = true := by
  refine consumes_peek.bind_ensures fun _ => .ite ?_ ?_
  · exact consumes_advance.bind_ensures fun _ =>
      (ensures_iterate (fun _ hkept => ensures_selectionStep h hkept)
        (List.forall_mem_nil _)).bind fun _ hfields =>
        (consumes_expect _).bind_ensures fun _ =>
          .ite ((consumes_reportHere _).bind_ensures fun _ => ensures_pure hfields)
            (ensures_pure hfields)
  · exact (consumes_expected _).seqRight_ensures (ensures_pure nofun)

theorem ensures_selectionWithin (depth : Nat) :
    (selectionWithin depth).Ensures fun fields => ∀ q ∈ fields, q.isRecovered = true := by
  induction depth with
  | zero => exact ensures_pure nofun
  | succ depth ih => exact ensures_selectionOf ih

theorem ensures_selection :
    selection.Ensures fun fields => ∀ q ∈ fields, q.isRecovered = true :=
  ensures_nested ensures_selectionWithin

/-! ## Operations -/

theorem ensures_variableDefinition : variableDefinition.Ensures fun v => v.isRecovered = true := by
  refine (consumes_expect _).bind_ensures fun _ => ensures_name.bind fun name hname =>
    (consumes_expect _).bind_ensures fun _ => ensures_type.bind fun t ht =>
      consumes_peek.bind_ensures fun _ => ?_
  have hdefinition : ∀ default : Option Value, default.all (·.isRecovered) = true →
      (⟨name, t, default⟩ : VariableDefinition).isRecovered = true := by
    intro default hdefault
    simp only [VariableDefinition.isRecovered, Bool.and_eq_true]
    exact ⟨⟨hname, ht⟩, hdefault⟩
  refine .ite ?_ ?_
  · refine (consumes_advance.seqRight_ensures ((ensures_value true).map
      (R := fun default => default.all (·.isRecovered) = true) fun _ hv => hv)).bind ?_
    exact fun default hdefault => ensures_pure (hdefinition default hdefault)
  · rw [pure_bind]
    exact ensures_pure (hdefinition none rfl)

/-- What is true of the definitions that were kept. -/
def DefinitionsKept (kept : List VariableDefinition) : Prop :=
  (kept.map (·.name)).Nodup ∧ ∀ v ∈ kept, v.isRecovered = true

/-- A variable that is declared again is not kept. -/
theorem ensures_variableStep {kept : List VariableDefinition} (h : DefinitionsKept kept) :
    (variableStep kept).Ensures DefinitionsKept := by
  refine consumes_here.bind_ensures fun _ => ensures_variableDefinition.bind fun v hv => ?_
  split
  · exact (consumes_report _ _).seqRight_ensures (ensures_pure h)
  · rename_i hnew
    refine ensures_pure ⟨?_, List.forall_mem_append.2 ⟨h.2, List.forall_mem_singleton.2 hv⟩⟩
    have hfresh : v.name ∉ kept.map (·.name) := by simpa using hnew
    rw [List.map_append]
    exact h.1.append (List.nodup_singleton _) (List.disjoint_singleton.2 hfresh)

theorem ensures_variableDefinitions : variableDefinitions.Ensures DefinitionsKept := by
  have hnone : DefinitionsKept [] := ⟨List.nodup_nil, nofun⟩
  refine consumes_peek.bind_ensures fun _ => .ite ?_ (ensures_pure hnone)
  exact consumes_advance.bind_ensures fun _ =>
    (ensures_iterate (fun _ hkept => ensures_variableStep hkept) hnone).bind fun _ hkept =>
      (consumes_expect _).bind_ensures fun _ => ensures_pure hkept

theorem ensures_optionalName : optionalName.Ensures fun n => n.all isNameOrMissing = true :=
  consumes_peek.bind_ensures fun _ => .ite (ensures_name.map fun _ hn => hn) (ensures_pure rfl)

/-- What is true of an operation wherever it is read. -/
def OperationRead (op : Operation) : Prop := op.variableNames.Nodup ∧ op.isRecovered = true

theorem ensures_plainOperation : plainOperation.Ensures OperationRead := by
  have hoperation : ∀ kind name definitions fields, name.all isNameOrMissing = true →
      DefinitionsKept definitions → (∀ q ∈ fields, q.isRecovered = true) →
      OperationRead ⟨kind, name, definitions, fields⟩ := by
    intro kind name definitions fields hname hdefs hfields
    refine ⟨hdefs.1, ?_⟩
    simp only [Operation.isRecovered, Field.areRecovered_eq_all, Bool.and_eq_true,
      List.all_eq_true]
    exact ⟨⟨hname, hdefs.2⟩, hfields⟩
  refine consumes_peek.bind_ensures fun start => .ite ?_ ?_
  · exact ensures_selection.bind fun fields hfields =>
      ensures_pure (hoperation _ none [] fields rfl ⟨List.nodup_nil, nofun⟩ hfields)
  · exact consumes_advance.bind_ensures fun _ => ensures_optionalName.bind fun name hname =>
      ensures_variableDefinitions.bind fun definitions hdefs =>
        consumes_operationDirectives.bind_ensures fun _ => ensures_selection.bind
          fun fields hfields => ensures_pure (hoperation _ _ _ _ hname hdefs hfields)

/-- An operation can be relied on, whatever was reported about it. -/
theorem ensures_operation : operation.Ensures OperationRead :=
  ensures_plainOperation.bind fun _ hop => (consumes_reportHere _).bind_ensures fun _ =>
    ensures_pure hop

theorem ensures_definitionStep {kept : List Operation} (h : ∀ op ∈ kept, OperationRead op) :
    (definitionStep kept).Ensures fun ops => ∀ op ∈ ops, OperationRead op := by
  refine consumes_peek.bind_ensures fun _ => .ite ?_ (.ite ?_ ?_)
  · exact ensures_operation.bind fun op hop =>
      ensures_pure (List.forall_mem_append.2 ⟨h, List.forall_mem_singleton.2 hop⟩)
  · exact (consumes_reportHere _).bind_ensures fun _ =>
      (consumes_skip skipDefinition_suffix).bind_ensures fun _ => ensures_pure h
  · exact (consumes_expected _).bind_ensures fun _ => consumes_advance.bind_ensures fun _ =>
      ensures_pure h

/-- Every operation of a document can be relied on, by induction on the loop over the document. -/
theorem ensures_document : document.Ensures fun d => ∀ op ∈ d.operations, OperationRead op :=
  (ensures_iterate (fun _ hkept => ensures_definitionStep hkept) (List.forall_mem_nil _)).bind
    fun _ hops => ensures_pure hops

end Production

namespace Document

open Rewrite (ping valid_ping)

/-- Whatever a source is, the operations that are read from it declare no variable twice, and at
most names and fields are missing from them. If no error was found, nothing is missing, no selection
is empty, and no default has a variable. The tokens that are read are those of the scanner of bytes
where its places suffice (`call_of_lt`, `call_of_le`). -/
theorem recovered_ofSource (source : String) :
    (∀ op ∈ (ofSource source).value.operations,
      op.variableNames.Nodup ∧ op.isRecovered = true) ∧
    ((diagnostics source).hasErrors = false → ∀ op ∈ (ofSource source).value.operations,
      op.isSpellable = true ∧ op.isGrammatical = true) := by
  have hwords : NameWords (tokenize source) := fun _ ht => namesWord_of_mem_tokenize ht
  refine ⟨(Production.ensures_document _ hwords).2, fun herrorless op hop => ?_⟩
  obtain ⟨hspellable, hgrammatical⟩ := writable_of_hasErrors herrorless
  exact ⟨List.all_eq_true.1 hspellable op hop, List.all_eq_true.1 hgrammatical op hop⟩

theorem recovered_ofSource_ping :
    (diagnostics ping.compactText).hasErrors = false ∧
      (ofSource ping.compactText).value.operations = [ping] ∧
      (ping.variableNames.Nodup ∧ ping.isRecovered = true) ∧
      ping.isSpellable = true ∧ ping.isGrammatical = true := by
  have hread : ofSource ping.compactText = ⟨⟨[ping]⟩, [], []⟩ := valid_ping.ofSource_eq .compact
  have herrorless : (diagnostics ping.compactText).hasErrors = false := by
    rw [diagnostics, hread]
    rfl
  have hping : ping ∈ (ofSource ping.compactText).value.operations := by
    rw [hread]
    exact List.mem_singleton_self ping
  obtain ⟨hall, hclean⟩ := recovered_ofSource ping.compactText
  exact ⟨herrorless, congrArg (·.value.operations) hread, hall ping hping,
    hclean herrorless ping hping⟩

end Document

end QueryBatch
