import QueryBatch.Proofs.Document.Layout

/-!
# What a source is warned about

The only thing that is warned about is an undeclared variable, and only the end of an operation is a
place where that happens: whatever else is reported on the way is an error. Main statements:

* `Production.NeverWarns.bind`, `Production.neverWarns_iterate`: productions in sequence and loops
  never warn if their parts do not;
* `Production.neverWarns_selection`, `Production.neverWarns_plainOperation`: the phrases of the
  language never warn, operations up to their end included;
* `Document.undeclaredNames_reports`: what is warned about are the undeclared variables of the
  operations that are read, one operation after the other;
* `Operation.listsUndeclared`, `Operation.head?_undeclared`: these are listed in the order of their
  first references, so that the first one is the first reference without a declaration.
-/

namespace QueryBatch

/-! ## Undeclared variables in reports -/

/-- The undeclared variable that an issue is about. -/
def Issue.undeclaredName? : Issue → Option String
  | undeclaredVariable name => some name
  | _ => none

theorem Issue.undeclaredName?_of_severity {issue : Issue} (h : issue.severity = .error) :
    issue.undeclaredName? = none := by
  cases issue <;> first | rfl | cases h

/-- The code of undeclared variables is that of no other issue. -/
theorem Issue.code_eq_iff {issue : Issue} :
    issue.code = "W0001" ↔ issue.undeclaredName?.isSome := by
  cases issue with
  | unexpected expected found => cases found <;> simp [code, undeclaredName?]
  | _ => simp [code, undeclaredName?]

def Report.undeclaredName? (r : Report) : Option String := r.issue.undeclaredName?

theorem Report.code_diagnostic_eq_iff {r : Report} {stop : Nat} :
    (r.diagnostic stop).code = "W0001" ↔ r.undeclaredName?.isSome := Issue.code_eq_iff

/-- The undeclared variables that some reports are about. -/
def undeclaredNames (rs : List Report) : List String := rs.filterMap Report.undeclaredName?

theorem undeclaredNames_append (rs ss : List Report) :
    undeclaredNames (rs ++ ss) = undeclaredNames rs ++ undeclaredNames ss :=
  List.filterMap_append

namespace Production

variable {α β σ : Type}

/-- Whatever a production reports is an error. -/
def NeverWarns (p : Production α) : Prop :=
  ∀ ts, ∀ r ∈ (p ts).reports, r.issue.severity = .error

/-- Where nothing is warned about, no variable is reported as undeclared. -/
theorem NeverWarns.undeclaredNames {p : Production α} (h : p.NeverWarns) (ts : List Token) :
    undeclaredNames (p ts).reports = [] :=
  List.filterMap_eq_nil_iff.2 fun r hr => Issue.undeclaredName?_of_severity (h ts r hr)

/-! ## Putting productions together -/

/-- A production that reports nothing. -/
theorem neverWarns_of_silent {p : Production α} (h : ∀ ts, (p ts).reports = []) :
    p.NeverWarns := by
  intro ts r hr
  rw [h ts] at hr
  cases hr

theorem neverWarns_pure (a : α) : (pure a : Production α).NeverWarns :=
  neverWarns_of_silent fun _ => rfl

namespace NeverWarns

variable {p q : Production α}

/-- Two productions that never warn never warn one behind the other. -/
theorem bind {f : α → Production β} (hp : p.NeverWarns) (hf : ∀ a, (f a).NeverWarns) :
    (p >>= f).NeverWarns :=
  fun ts r hr => (List.mem_append.1 hr).elim (hp ts r) (hf _ _ r)

theorem map (hp : p.NeverWarns) (f : α → β) : (f <$> p).NeverWarns := by
  rw [map_eq_pure_bind]
  exact hp.bind fun a => neverWarns_pure (f a)

theorem seqRight {q : Production β} (hp : p.NeverWarns) (hq : q.NeverWarns) :
    (p *> q).NeverWarns := by
  rw [seqRight_eq_bind]
  exact hp.bind fun _ => hq

theorem ite {c : Prop} [Decidable c] (hp : p.NeverWarns) (hq : q.NeverWarns) :
    (if c then p else q).NeverWarns := by
  split
  · exact hp
  · exact hq

end NeverWarns

/-! ## Single tokens -/

theorem neverWarns_peek : peek.NeverWarns := neverWarns_of_silent fun _ => rfl

theorem neverWarns_current : current.NeverWarns := neverWarns_of_silent fun _ => rfl

theorem neverWarns_here : here.NeverWarns := neverWarns_of_silent fun _ => rfl

theorem neverWarns_advance : advance.NeverWarns := neverWarns_of_silent fun _ => rfl

theorem neverWarns_skip (f : List Token → List Token) : (skip f).NeverWarns :=
  neverWarns_of_silent fun _ => rfl

/-- Reporting an error is no warning. -/
theorem neverWarns_report {issue : Issue} (h : issue.severity = .error) (span : Option Span) :
    (report issue span).NeverWarns := by
  intro ts r hr
  rw [List.mem_singleton.1 hr]
  exact h

theorem neverWarns_reportHere {issues : List Issue}
    (h : ∀ issue ∈ issues, issue.severity = .error) : (reportHere issues).NeverWarns := by
  intro ts r hr
  obtain ⟨issue, hissue, rfl⟩ := List.mem_map.1 hr
  exact h issue hissue

theorem neverWarns_expected (what : String) : (expected what).NeverWarns := by
  intro ts r hr
  rw [List.mem_singleton.1 hr]
  rfl

theorem neverWarns_expect (kind : Kind) : (expect kind).NeverWarns :=
  neverWarns_peek.bind fun _ => neverWarns_advance.ite (neverWarns_expected _)

theorem neverWarns_name : name.NeverWarns := by
  have hmissing : (expected "a name" *> pure "" : Production String).NeverWarns :=
    (neverWarns_expected _).seqRight (neverWarns_pure _)
  refine neverWarns_current.bind fun t? => ?_
  cases t? with
  | none => exact hmissing
  | some t => exact (neverWarns_advance.seqRight (neverWarns_pure _)).ite hmissing

/-! ## Loops and nesting -/

/-- A loop never warns if its steps never do. -/
theorem neverWarns_iterate {stop : Kind → Bool} {step : σ → Production σ}
    (h : ∀ s, (step s).NeverWarns) (s : σ) : (iterate stop step s).NeverWarns := by
  intro ts
  fun_induction iterate stop step s ts with
  | case1 | case2 =>
    intro r hr
    cases hr
  | case3 s t ts hstop first rest more ih =>
    intro r hr
    exact (List.mem_append.1 hr).elim (h s (t :: ts) r) (ih r)

theorem neverWarns_many {stop : Kind → Bool} {item : Production α} (h : item.NeverWarns) :
    (many stop item).NeverWarns :=
  neverWarns_iterate (fun _ => h.bind fun _ => neverWarns_pure _) []

theorem neverWarns_nested {p : Nat → Production α} (h : ∀ depth, (p depth).NeverWarns) :
    (nested p).NeverWarns := fun ts => h _ ts

theorem neverWarns_group {stop : Kind → Bool} {item : Production α} {kind : Kind}
    {f : List α → β} (h : item.NeverWarns) :
    (do
      advance
      let items ← many stop item
      expect kind
      pure (f items) : Production β).NeverWarns :=
  neverWarns_advance.bind fun _ => (neverWarns_many h).bind fun _ =>
    (neverWarns_expect _).bind fun _ => neverWarns_pure _

/-! ## Types -/

theorem neverWarns_typeOf {element : Production TypeRef} (h : element.NeverWarns) :
    (typeOf element).NeverWarns := by
  have hclose : ∀ t : TypeRef, (do
      if (← peek) = .punctuator .bang then do
        advance
        pure (.nonNull t)
      else pure t : Production TypeRef).NeverWarns := fun t =>
    neverWarns_peek.bind fun _ =>
      (neverWarns_advance.bind fun _ => neverWarns_pure _).ite (neverWarns_pure _)
  refine neverWarns_peek.bind fun _ => .ite ?_ ?_
  · exact neverWarns_advance.bind fun _ => h.bind fun _ => (neverWarns_expect _).bind fun _ =>
      (neverWarns_pure _).bind hclose
  · exact neverWarns_name.bind fun _ => (neverWarns_pure _).bind hclose

theorem neverWarns_typeWithin (depth : Nat) : (typeWithin depth).NeverWarns := by
  induction depth with
  | zero => exact neverWarns_pure _
  | succ depth ih => exact neverWarns_typeOf ih

theorem neverWarns_type : type.NeverWarns := neverWarns_nested neverWarns_typeWithin

/-! ## Values -/

/-- What can be wrong with a literal is an error. -/
theorem severity_of_ofToken? {t : Token} {literal : Literal}
    (h : Literal.ofToken? t = some literal) :
    ∀ issue ∈ literal.issues, issue.severity = .error := by
  unfold Literal.ofToken? at h
  split at h
  · cases Option.some.inj h
    unfold Literal.ofInt
    split
    · nofun
    · exact List.forall_mem_singleton.2 rfl
  · cases Option.some.inj h
    unfold Literal.ofFloat
    split
    · nofun
    · exact List.forall_mem_singleton.2 rfl
  · cases Option.some.inj h
    intro issue hissue
    obtain ⟨fault, -, rfl⟩ := List.mem_map.1 hissue
    rfl
  all_goals cases h
  all_goals nofun

theorem neverWarns_entry {value : Production Value} (h : value.NeverWarns) :
    (entry value).NeverWarns :=
  neverWarns_name.bind fun _ => (neverWarns_expect _).bind fun _ => h.bind fun _ =>
    neverWarns_pure _

theorem neverWarns_variableOf (constant : Bool) (mark : Token) :
    (variableOf constant mark).NeverWarns :=
  neverWarns_advance.bind fun _ => neverWarns_name.bind fun _ =>
    .ite ((neverWarns_report rfl _).bind fun _ => neverWarns_pure _) (neverWarns_pure _)

/-- A value never warns if the values inside it never do. -/
theorem neverWarns_valueOf {constant : Bool} {item : Production Value} (h : item.NeverWarns) :
    (valueOf constant item).NeverWarns := by
  have hother : ∀ v : Value, (expected "a value" *> advance *> pure v).NeverWarns := fun v =>
    ((neverWarns_expected _).seqRight neverWarns_advance).seqRight (neverWarns_pure v)
  refine neverWarns_current.bind fun t? => ?_
  cases t? with
  | none => exact (neverWarns_expected _).seqRight (neverWarns_pure _)
  | some t =>
    cases hliteral : Literal.ofToken? t with
    | some literal =>
      simp only [hliteral]
      have hissues := neverWarns_reportHere (severity_of_ofToken? hliteral)
      exact (hissues.seqRight neverWarns_advance).seqRight (neverWarns_pure _)
    | none =>
      simp only [hliteral]
      split
      · exact neverWarns_variableOf constant t
      · exact neverWarns_group h
      · exact neverWarns_group (neverWarns_entry h)
      · exact (neverWarns_advance.seqRight (neverWarns_pure _)).ite (hother _)

theorem neverWarns_valueWithin (constant : Bool) (depth : Nat) :
    (valueWithin constant depth).NeverWarns := by
  induction depth with
  | zero => exact neverWarns_pure _
  | succ depth ih => exact neverWarns_valueOf ih

theorem neverWarns_value (constant : Bool) : (value constant).NeverWarns :=
  neverWarns_nested (neverWarns_valueWithin constant)

/-! ## Arguments and directives -/

theorem neverWarns_arguments : arguments.NeverWarns :=
  neverWarns_peek.bind fun _ => .ite
    (neverWarns_group ((neverWarns_entry (neverWarns_value false)).bind fun _ =>
      neverWarns_pure _))
    (neverWarns_pure _)

theorem neverWarns_directives : directives.NeverWarns :=
  neverWarns_many (neverWarns_advance.bind fun _ => neverWarns_name.bind fun _ =>
    neverWarns_arguments.bind fun _ => neverWarns_pure _)

/-! ## Selections -/

theorem neverWarns_field {selection : Production (List Field)} (h : selection.NeverWarns) :
    (field selection).NeverWarns := by
  have hrest : ∀ head : Option String × String, (do
      let args ← arguments
      let dirs ← directives
      let fields ← if (← peek) = .punctuator .braceOpen then some <$> selection else pure none
      pure ⟨head.1, head.2, args, dirs, fields⟩ : Production Field).NeverWarns := fun head =>
    neverWarns_arguments.bind fun _ => neverWarns_directives.bind fun _ =>
      neverWarns_peek.bind fun _ => .ite ((h.map _).bind fun _ => neverWarns_pure _)
        ((neverWarns_pure _).bind fun _ => neverWarns_pure _)
  refine neverWarns_name.bind fun _ => neverWarns_peek.bind fun _ => .ite ?_ ?_
  · exact neverWarns_advance.bind fun _ => neverWarns_name.bind fun _ =>
      (neverWarns_pure _).bind hrest
  · exact (neverWarns_pure _).bind hrest

theorem neverWarns_skipFragmentSelection : skipFragmentSelection.NeverWarns := by
  have hafter : (do
      let _ ← directives
      skip skipBraces : Production Unit).NeverWarns :=
    neverWarns_directives.bind fun _ => neverWarns_skip _
  refine neverWarns_advance.bind fun _ => neverWarns_peek.bind fun _ => .ite ?_ (.ite ?_ ?_)
  · exact (neverWarns_advance.seqRight (neverWarns_name.map _)).bind fun _ => hafter
  · exact neverWarns_advance.bind fun _ => hafter
  · exact hafter

theorem neverWarns_selectionStep {selection : Production (List Field)} (h : selection.NeverWarns)
    (kept : List Field) : (selectionStep selection kept).NeverWarns := by
  refine neverWarns_peek.bind fun _ => .ite ?_ ?_
  · exact (neverWarns_reportHere (List.forall_mem_singleton.2 rfl)).bind fun _ =>
      neverWarns_skipFragmentSelection.bind fun _ => neverWarns_pure kept
  · exact (neverWarns_field h).bind fun _ => neverWarns_pure _

theorem neverWarns_selectionOf {inner : Production (List Field)} (h : inner.NeverWarns) :
    (selectionOf inner).NeverWarns := by
  refine neverWarns_peek.bind fun _ => .ite ?_ ?_
  · exact neverWarns_advance.bind fun _ =>
      (neverWarns_iterate (neverWarns_selectionStep h) []).bind fun _ =>
        (neverWarns_expect _).bind fun _ => .ite
          ((neverWarns_reportHere (List.forall_mem_singleton.2 rfl)).bind fun _ =>
            neverWarns_pure _)
          (neverWarns_pure _)
  · exact (neverWarns_expected _).seqRight (neverWarns_pure _)

theorem neverWarns_selectionWithin (depth : Nat) : (selectionWithin depth).NeverWarns := by
  induction depth with
  | zero => exact neverWarns_pure _
  | succ depth ih => exact neverWarns_selectionOf ih

/-- Selections are read without warnings; variables are looked at where an operation ends. -/
theorem neverWarns_selection : selection.NeverWarns := neverWarns_nested neverWarns_selectionWithin

/-! ## Operations -/

theorem neverWarns_variableDefinition : variableDefinition.NeverWarns := by
  refine (neverWarns_expect _).bind fun _ => neverWarns_name.bind fun _ =>
    (neverWarns_expect _).bind fun _ => neverWarns_type.bind fun _ =>
      neverWarns_peek.bind fun _ => .ite ?_ ?_
  · exact (neverWarns_advance.seqRight ((neverWarns_value true).map some)).bind fun _ =>
      neverWarns_pure _
  · exact (neverWarns_pure _).bind fun _ => neverWarns_pure _

theorem neverWarns_variableStep (kept : List VariableDefinition) :
    (variableStep kept).NeverWarns :=
  neverWarns_here.bind fun _ => neverWarns_variableDefinition.bind fun _ =>
    .ite ((neverWarns_report rfl _).seqRight (neverWarns_pure _)) (neverWarns_pure _)

theorem neverWarns_variableDefinitions : variableDefinitions.NeverWarns :=
  neverWarns_peek.bind fun _ => .ite
    (neverWarns_advance.bind fun _ => (neverWarns_iterate neverWarns_variableStep []).bind fun _ =>
      (neverWarns_expect _).bind fun _ => neverWarns_pure _)
    (neverWarns_pure _)

theorem neverWarns_operationDirectives : operationDirectives.NeverWarns :=
  neverWarns_peek.bind fun _ => .ite
    (neverWarns_here.bind fun _ => neverWarns_directives.bind fun _ => neverWarns_report rfl _)
    (neverWarns_pure _)

/-- What an operation is made of never warns, so that all warnings come from the check behind it. -/
theorem neverWarns_plainOperation : plainOperation.NeverWarns := by
  have hname : optionalName.NeverWarns :=
    neverWarns_peek.bind fun _ => (neverWarns_name.map some).ite (neverWarns_pure _)
  refine neverWarns_peek.bind fun _ => .ite ?_ ?_
  · exact neverWarns_selection.bind fun _ => neverWarns_pure _
  · exact neverWarns_advance.bind fun _ => hname.bind fun _ =>
      neverWarns_variableDefinitions.bind fun _ => neverWarns_operationDirectives.bind fun _ =>
        neverWarns_selection.bind fun _ => neverWarns_pure _

/-- Behind an operation, its undeclared variables are warned about. -/
theorem undeclaredNames_operation (ts : List Token) :
    undeclaredNames (operation ts).reports = (operation ts).value.undeclared := by
  have hnames : ∀ (names : List String) (span : Option Span),
      undeclaredNames ((names.map Issue.undeclaredVariable).map (⟨·, span⟩)) = names := by
    intro names span
    simp [undeclaredNames, List.filterMap_map, Function.comp_def, Report.undeclaredName?,
      Issue.undeclaredName?]
  show undeclaredNames ((plainOperation ts).reports ++
    (((plainOperation ts).value.undeclared.map Issue.undeclaredVariable).map _ ++ [])) = _
  rw [List.append_nil, undeclaredNames_append, neverWarns_plainOperation.undeclaredNames, hnames]
  rfl

/-- A step of a document reads some operations, and warns about their undeclared variables. -/
theorem definitionStep_warns (kept : List Operation) (ts : List Token) :
    ∃ ops, (definitionStep kept ts).value = kept ++ ops ∧
      undeclaredNames (definitionStep kept ts).reports = ops.flatMap Operation.undeclared := by
  have hnone {p : Production (List Operation)} (h : p.NeverWarns) (hkept : (p ts).value = kept) :
      ∃ ops, (p ts).value = kept ++ ops ∧
        undeclaredNames (p ts).reports = ops.flatMap Operation.undeclared :=
    ⟨[], hkept.trans (List.append_nil kept).symm, h.undeclaredNames ts⟩
  rw [definitionStep, peek_bind]
  split
  · refine ⟨[(operation ts).value], rfl, ?_⟩
    show undeclaredNames ((operation ts).reports ++ []) = _
    rw [List.append_nil, undeclaredNames_operation, List.flatMap_singleton]
  · split
    · exact hnone ((neverWarns_reportHere (List.forall_mem_singleton.2 rfl)).bind fun _ =>
        (neverWarns_skip skipDefinition).bind fun _ => neverWarns_pure kept) rfl
    · exact hnone ((neverWarns_expected _).bind fun _ => neverWarns_advance.bind fun _ =>
        neverWarns_pure kept) rfl

/-- Reading on from some operations, more of them are read and warned about. -/
theorem iterate_definitionStep_warns (kept : List Operation) (ts : List Token) :
    ∃ ops, (iterate (fun _ => false) definitionStep kept ts).value = kept ++ ops ∧
      undeclaredNames (iterate (fun _ => false) definitionStep kept ts).reports =
        ops.flatMap Operation.undeclared := by
  fun_induction iterate (fun _ => false) definitionStep kept ts with
  | case1 kept => exact ⟨[], (List.append_nil kept).symm, rfl⟩
  | case2 kept t ts hstop => cases hstop
  | case3 kept t ts hstop first rest more ih =>
    obtain ⟨ops, hvalue, hnames⟩ := definitionStep_warns kept (t :: ts)
    obtain ⟨later, hlater, hmore⟩ := ih
    refine ⟨ops ++ later, ?_, ?_⟩
    · show more.value = _
      rw [hlater, ← List.append_assoc]
      exact congrArg (· ++ later) hvalue
    · rw [undeclaredNames_append, hmore, List.flatMap_append]
      exact congrArg (· ++ _) hnames

end Production

/-! ## The order of undeclared variables -/

/-- What passes a test comes up in the order of its first places. -/
theorem pairwise_idxOf_eraseDups_filter (test : String → Bool) (names : List String) :
    ((names.filter test).eraseDups).Pairwise fun a b => names.idxOf a < names.idxOf b := by
  induction names generalizing test with
  | nil => exact .nil
  | cons name names ih =>
    -- Other names than the first one keep their order behind it.
    have hrest {wanted : String → Bool} (hwanted : ∀ other, wanted other = true → name ≠ other) :
        ((names.filter wanted).eraseDups).Pairwise fun a b =>
          (name :: names).idxOf a < (name :: names).idxOf b := by
      refine (ih wanted).imp_of_mem fun ha hb hlt => ?_
      simp only [List.mem_eraseDups, List.mem_filter] at ha hb
      rw [List.idxOf_cons_ne _ (hwanted _ ha.2), List.idxOf_cons_ne _ (hwanted _ hb.2)]
      exact Nat.succ_lt_succ hlt
    cases htest : test name with
    | false =>
      rw [List.filter_cons_of_neg (by simp [htest])]
      refine hrest fun other hother heq => ?_
      rw [← heq, htest] at hother
      cases hother
    | true =>
      rw [List.filter_cons_of_pos htest, List.eraseDups_cons, List.filter_filter]
      have hdistinct : ∀ other, (!other == name && test other) = true → name ≠ other := by
        intro other hother heq
        simp [heq] at hother
      refine List.pairwise_cons.2 ⟨fun other hother => ?_, hrest hdistinct⟩
      simp only [List.mem_eraseDups, List.mem_filter] at hother
      rw [List.idxOf_cons_self, List.idxOf_cons_ne _ (hdistinct other hother.2)]
      exact Nat.succ_pos _

namespace Operation

/-- Names are those that an operation references without declaring them, each of them once, in the
order of their first references. -/
structure ListsUndeclared (op : Operation) (names : List String) : Prop where
  nodup : names.Nodup
  mem_iff : ∀ name, name ∈ names ↔ name ∈ op.references ∧ name ∉ op.variableNames
  ordered : names.Pairwise fun a b => op.references.idxOf a < op.references.idxOf b

/-- The names that are warned about are those without a declaration, in the order of first
references. -/
theorem listsUndeclared (op : Operation) : op.ListsUndeclared op.undeclared where
  nodup := op.nodup_undeclared
  mem_iff _ := mem_undeclared
  ordered := pairwise_idxOf_eraseDups_filter _ op.references

/-- There is one such list only. -/
theorem listsUndeclared_iff {op : Operation} {names : List String} :
    op.ListsUndeclared names ↔ names = op.undeclared := by
  refine ⟨fun h => ?_, fun h => h ▸ op.listsUndeclared⟩
  have hperm : names.Perm op.undeclared :=
    (List.perm_ext_iff_of_nodup h.nodup op.nodup_undeclared).2 fun name =>
      (h.mem_iff name).trans mem_undeclared.symm
  refine hperm.eq_of_pairwise (fun a b _ _ hab hba => ?_) h.ordered op.listsUndeclared.ordered
  exact absurd hab (Nat.lt_asymm hba)

/-- The first one is the first reference to a variable that is not declared. -/
theorem head?_undeclared (op : Operation) :
    op.undeclared.head? = op.references.find? (!op.declares ·) := by
  rw [← List.head?_filter, undeclared]
  cases op.references.filter fun name => !op.declares name with
  | nil => rfl
  | cons name names => rw [List.eraseDups_cons]; rfl

end Operation

/-! ## Sources -/

/-- What is said about a variable that is used but not declared. -/
def undeclaredWording (name : String) : Diagnostic.Wording where
  severity := .warning
  code := "W0001"
  title := "undeclared variable"
  messages := ["`$" ++ name ++ "` is used but not declared"]

theorem Report.wording_of_undeclaredName? {r : Report} {name : String}
    (h : r.undeclaredName? = some name) (stop : Nat) :
    (r.diagnostic stop).wording = undeclaredWording name := by
  obtain ⟨issue, span⟩ := r
  cases issue with
  | undeclaredVariable other =>
    cases h
    rfl
  | _ => cases h

namespace Document

/-- What a source is warned about are the undeclared variables of its operations. -/
theorem undeclaredNames_reports (source : String) :
    undeclaredNames (ofSource source).reports =
      (ofSource source).value.operations.flatMap Operation.undeclared := by
  obtain ⟨ops, hvalue, hnames⟩ :=
    Production.iterate_definitionStep_warns [] (tokenize source)
  have hops : (ofSource source).value.operations = ops := hvalue
  rw [hops, ← hnames]
  show undeclaredNames (_ ++ []) = _
  rw [List.append_nil]

/-- The diagnostics with the code of undeclared variables, one after the other. -/
theorem wordings_undeclared (source : String) :
    ((diagnostics source).toList.filter (·.code == "W0001")).map Diagnostic.wording =
      ((ofSource source).value.operations.flatMap Operation.undeclared).map undeclaredWording := by
  rw [← undeclaredNames_reports, diagnostics, Reading.diagnostics]
  induction (ofSource source).reports with
  | nil => rfl
  | cons r rs ih =>
    rw [List.map_cons, List.filter_cons, undeclaredNames, List.filterMap_cons]
    cases hname : r.undeclaredName? with
    | none => rw [if_neg (by simp [Report.code_diagnostic_eq_iff, hname]), ih, undeclaredNames]
    | some name =>
      rw [if_pos (by simp [Report.code_diagnostic_eq_iff, hname]), List.map_cons, List.map_cons,
        ih, Report.wording_of_undeclaredName? hname, undeclaredNames]

end Document

end QueryBatch
