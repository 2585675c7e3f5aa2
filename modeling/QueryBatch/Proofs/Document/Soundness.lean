import QueryBatch.Proofs.Document.Completeness
import QueryBatch.Proofs.Document.Errorless

/-!
# What is read without an error is a phrase

A reading that reports no error has used the tokens of a derivation tree, and gives what the tree
stands for. Main statements:

* `Production.exists_typeTree`, `Production.exists_valueTree`, `Production.exists_selectionTree`,
  `Production.exists_operationTree`: what is read for a phrase has a derivation tree;
* `Document.exists_derivation`: so has a document that is read without an error.
-/

namespace QueryBatch

namespace Literal

/-- Whatever is wrong with a literal is an error. -/
theorem severity_of_mem {t : Token} {literal : Literal} (h : ofToken? t = some literal)
    {issue : Issue} (hissue : issue ∈ literal.issues) : issue.severity = .error := by
  unfold ofToken? at h
  split at h
  · obtain rfl := Option.some.inj h
    unfold ofInt at hissue
    split at hissue
    · cases hissue
    · obtain rfl := List.mem_singleton.1 hissue
      rfl
  · obtain rfl := Option.some.inj h
    unfold ofFloat at hissue
    split at hissue
    · cases hissue
    · obtain rfl := List.mem_singleton.1 hissue
      rfl
  · obtain rfl := Option.some.inj h
    obtain ⟨fault, -, rfl⟩ := List.mem_map.1 hissue
    rfl
  -- Nothing can be wrong with the other literals.
  all_goals cases h
  all_goals cases hissue

end Literal

namespace Production

open Grammar

variable {τ : Type} {ts rest : List Token} {leaves : τ → List Token}

/-! ## Types -/

/-- A mark for types without null stands behind a type, or does not. -/
theorem exists_bang {t b : TypeRef}
    (h : ((do if (← peek) = .punctuator .bang then do
                advance
                pure (.nonNull t)
              else pure t : Production TypeRef) ts).Gives b rest) :
    ∃ bang, ts = bangTokens bang ++ rest ∧ b = bangType t bang := by
  rw [closeType_apply] at h
  by_cases hbang : headKind ts = .punctuator .bang
  · obtain ⟨mark, us, rfl⟩ := exists_mark hbang
    rw [closeType, if_pos hbang] at h
    obtain rfl := h.rest
    exact ⟨some mark, rfl, h.value.symm⟩
  · rw [closeType_of_ne hbang] at h
    exact ⟨none, h.rest, h.value.symm⟩

/-- A type that is read without errors has a tree, by induction on the depth that is left. -/
theorem exists_typeTree_within {depth : Nat} {b : TypeRef} (hlen : ts.length < depth)
    (h : (typeWithin depth ts).Gives b rest) :
    ∃ tree : TypeTree, ts = tree.tokens ++ rest ∧ b = tree.type := by
  induction depth generalizing ts b rest with
  | zero => exact absurd hlen (Nat.not_lt_zero _)
  | succ depth ih =>
    rw [typeWithin, peek_bind] at h
    by_cases hopen : headKind ts = .punctuator .bracketOpen
    · obtain ⟨o, us, rfl⟩ := exists_mark hopen
      rw [if_pos hopen, advance_bind, List.tail_cons] at h
      obtain ⟨element, mid, helement, hmore⟩ := exists_of_bind h
      obtain ⟨tree, rfl, rfl⟩ := ih (Nat.lt_of_succ_lt_succ hlen) helement
      obtain ⟨c, vs, rfl, hlast⟩ := exists_of_expect hmore
      rw [pure_bind] at hlast
      obtain ⟨bang, rfl, rfl⟩ := exists_bang hlast
      exact ⟨.list o tree c bang, by simp [TypeTree.tokens], rfl⟩
    · rw [if_neg hopen] at h
      obtain ⟨n, us, rfl, hlast⟩ := exists_of_name h
      rw [pure_bind] at hlast
      obtain ⟨bang, rfl, rfl⟩ := exists_bang hlast
      exact ⟨.named n bang, rfl, rfl⟩

theorem exists_typeTree {b : TypeRef} (h : (type ts).Gives b rest) :
    ∃ tree : TypeTree, ts = tree.tokens ++ rest ∧ b = tree.type :=
  exists_typeTree_within (Nat.lt_succ_self _) h

/-! ## Values -/

theorem length_entryTree_pos (e : EntryTree τ) : 0 < (e.tokens leaves).length := Nat.succ_pos _

/-- An entry that is read without errors is a key, a colon and a value. -/
theorem exists_entryTree {p : Production Value} {value : τ → Value} {n : Nat}
    (hvalue : ∀ ts v rest, ts.length ≤ n → (p ts).Gives v rest →
      ∃ t, ts = leaves t ++ rest ∧ v = value t)
    (hlen : ts.length ≤ n) {e : String × Value} (h : (entry p ts).Gives e rest) :
    ∃ tree : EntryTree τ, ts = tree.tokens leaves ++ rest ∧ e = tree.entry value := by
  rw [entry] at h
  obtain ⟨key, us, rfl, hcolon⟩ := exists_of_name h
  obtain ⟨colon, us, rfl, hbody⟩ := exists_of_expect hcolon
  obtain ⟨v, mid, hv, hpure⟩ := exists_of_bind hbody
  obtain ⟨rfl, rfl⟩ := eq_of_pure hpure
  simp only [List.length_cons] at hlen
  obtain ⟨tree, rfl, rfl⟩ := hvalue us v _ (by omega) hv
  exact ⟨⟨key, colon, tree⟩, rfl, rfl⟩

/-- A literal whose escapes are sound is a leaf of the grammar. -/
theorem exists_literalToken {t : Token} {us : List Token} {literal : Literal} {v : Value}
    (hliteral : Literal.ofToken? t = some literal)
    (h : ((reportHere literal.issues *> advance *> pure literal.value) (t :: us)).Gives v rest) :
    ∃ l : LiteralToken, t :: us = l.token :: rest ∧ v = l.value := by
  rw [seqRight_eq_bind, seqRight_eq_bind, bind_assoc] at h
  have hnone : literal.issues = [] := List.eq_nil_iff_forall_not_mem.2 fun issue hissue =>
    severity_of_reportHere h issue hissue (Literal.severity_of_mem hliteral hissue)
  obtain ⟨value, issues⟩ := literal
  subst hnone
  obtain rfl := h.rest
  exact ⟨⟨t, value, hliteral⟩, rfl, h.value.symm⟩

theorem exists_enumTree {constant : Bool} {t : Token} {us : List Token} {v : Value}
    (ht : t.kind.isName = true) (hliteral : Literal.ofToken? t = none)
    (h : ((advance *> pure (Value.enum t.text)) (t :: us)).Gives v rest) :
    ∃ tree : ValueTree constant, t :: us = tree.tokens ++ rest ∧ v = tree.value := by
  obtain rfl := h.rest
  obtain rfl := h.value
  exact ⟨.enum ⟨t, ht, hliteral⟩, by rw [ValueTree.tokens]; rfl, by rw [ValueTree.value]; rfl⟩

/-- Where no value starts, an error is reported. -/
theorem not_gives_of_not_isName {β : Type} {b : β} {kind : Kind} {what : String}
    {p q : Production β} (hkind : kind.isName = false) :
    ¬ ((if kind.isName then p else expected what *> advance *> q) ts).Gives b rest := by
  rw [hkind, if_neg Bool.false_ne_true, seqRight_eq_bind, seqRight_eq_bind, bind_assoc]
  exact not_gives_expected

/-- A variable that is read without errors does not stand in a constant. -/
theorem exists_variable {constant : Bool} {t : Token} {us : List Token} {v : Value}
    (ht : t.kind = .punctuator .dollar)
    (h : ((do
      advance
      let variableName ← name
      if constant then report (.variableInConstant variableName) (some t.span)
      pure (Value.var variableName)) (t :: us)).Gives v rest) :
    ∃ tree : ValueTree constant, t :: us = tree.tokens ++ rest ∧ v = tree.value := by
  rw [advance_bind, List.tail_cons] at h
  obtain ⟨n, us, rfl, hlast⟩ := exists_of_name h
  cases hconstant : constant with
  | true =>
    rw [if_pos hconstant] at hlast
    exact absurd rfl (severity_of_report hlast)
  | false =>
    subst hconstant
    rw [if_neg Bool.false_ne_true] at hlast
    obtain ⟨rfl, rfl⟩ := eq_of_pure hlast
    exact ⟨.var rfl ⟨t, ht⟩ n, by simp [ValueTree.tokens], by simp [ValueTree.value]⟩

/-- A value that is read without errors has a tree. The induction is on the depth that is left. -/
theorem exists_valueTree_within {constant : Bool} {depth : Nat} {v : Value}
    (hlen : ts.length < depth) (h : (valueWithin constant depth ts).Gives v rest) :
    ∃ tree : ValueTree constant, ts = tree.tokens ++ rest ∧ v = tree.value := by
  induction depth generalizing ts v rest with
  | zero => exact absurd hlen (Nat.not_lt_zero _)
  | succ depth ih =>
    rw [valueWithin, current_bind] at h
    cases ts with
    | nil =>
      simp only [List.head?_nil, seqRight_eq_bind] at h
      exact absurd h not_gives_expected
    | cons t us =>
      have hshort : us.length < depth := Nat.lt_of_succ_lt_succ hlen
      have hitem : ∀ ts v rest, ts.length ≤ us.length →
          (valueWithin constant depth ts).Gives v rest →
            ∃ tree : ValueTree constant, ts = tree.tokens ++ rest ∧ v = tree.value :=
        fun ts v rest hn hv => ih (Nat.lt_of_le_of_lt hn hshort) hv
      simp only [List.head?_cons] at h
      cases hliteral : Literal.ofToken? t with
      | some literal =>
        simp only [hliteral] at h
        obtain ⟨l, hts, rfl⟩ := exists_literalToken hliteral h
        exact ⟨.literal l, by rw [hts, ValueTree.tokens]; rfl, by rw [ValueTree.value]⟩
      | none =>
        simp only [hliteral] at h
        cases hkind : t.kind with
        | punctuator m =>
          cases m with
          | dollar =>
            simp only [hkind] at h
            exact exists_variable hkind h
          | bracketOpen =>
            simp only [hkind] at h
            obtain ⟨e, hts, rfl⟩ := exists_of_group ⟨t, hkind⟩
              (fun v => v.isValue.starts.length_pos)
              (fun ts v rest hn _ hv => hitem ts v rest hn hv) h
            exact ⟨.list e, by rw [hts, ValueTree.tokens_list], by rw [ValueTree.value_list]⟩
          | braceOpen =>
            simp only [hkind] at h
            obtain ⟨e, hts, rfl⟩ := exists_of_group ⟨t, hkind⟩ length_entryTree_pos
              (fun ts v rest hn _ hv => exists_entryTree hitem hn hv) h
            exact ⟨.object e, by rw [hts, ValueTree.tokens_object], by rw [ValueTree.value_object]⟩
          | _ =>
            simp only [hkind] at h
            exact absurd h (not_gives_of_not_isName rfl)
        | name =>
          simp only [hkind] at h
          exact exists_enumTree (by rw [hkind]; rfl) hliteral h
        | keyword =>
          simp only [hkind] at h
          exact exists_enumTree (by rw [hkind]; rfl) hliteral h
        | _ =>
          simp only [hkind] at h
          exact absurd h (not_gives_of_not_isName rfl)

theorem exists_valueTree {constant : Bool} {v : Value} (h : (value constant ts).Gives v rest) :
    ∃ tree : ValueTree constant, ts = tree.tokens ++ rest ∧ v = tree.value :=
  exists_valueTree_within (Nat.lt_succ_self _) h

/-! ## Arguments and directives -/

theorem exists_argumentTree {a : Argument} (h : (argument ts).Gives a rest) :
    ∃ tree : ArgumentTree, ts = tree.tokens ++ rest ∧ a = tree.argument := by
  obtain ⟨e, mid, he, hpure⟩ := exists_of_bind h
  obtain ⟨rfl, rfl⟩ := eq_of_pure hpure
  obtain ⟨tree, hts, rfl⟩ :=
    exists_entryTree (fun _ _ _ _ hv => exists_valueTree hv) (Nat.le_refl _) he
  exact ⟨tree, hts, rfl⟩

/-- Arguments that are read without errors have a tree, or none where no parenthesis opens. -/
theorem exists_argumentsTree {args : List Argument} (h : (arguments ts).Gives args rest) :
    ∃ tree : ArgumentsTree, ts = tree.tokens ++ rest ∧ args = tree.arguments := by
  rw [arguments, peek_bind] at h
  by_cases hopen : headKind ts = .punctuator .parenOpen
  · obtain ⟨o, us, rfl⟩ := exists_mark hopen
    rw [if_pos hopen] at h
    obtain ⟨e, hts, rfl⟩ := exists_of_group o length_entryTree_pos
      (fun ts a rest _ _ ha => exists_argumentTree ha) h
    exact ⟨some e, hts, rfl⟩
  · rw [if_neg hopen] at h
    obtain ⟨rfl, rfl⟩ := eq_of_pure h
    exact ⟨none, rfl, rfl⟩

theorem exists_directiveTree (hat : headKind ts = .punctuator .at) {d : Directive}
    (h : (directive ts).Gives d rest) :
    ∃ tree : DirectiveTree, ts = tree.tokens ++ rest ∧ d = tree.directive := by
  obtain ⟨a, us, rfl⟩ := exists_mark hat
  rw [directive, advance_bind, List.tail_cons] at h
  obtain ⟨n, us, rfl, hbody⟩ := exists_of_name h
  obtain ⟨args, mid, hargs, hpure⟩ := exists_of_bind hbody
  obtain ⟨rfl, rfl⟩ := eq_of_pure hpure
  obtain ⟨tree, rfl, rfl⟩ := exists_argumentsTree hargs
  exact ⟨⟨a, n, tree⟩, rfl, rfl⟩

theorem exists_directiveTrees {ds : List Directive} (h : (directives ts).Gives ds rest) :
    ∃ trees : List DirectiveTree, ts = trees.flatMap DirectiveTree.tokens ++ rest ∧
      ds = trees.map DirectiveTree.directive := by
  refine exists_of_many (fun d : DirectiveTree => d.isDirective.starts.length_pos)
    (fun ts d rest _ hstop hd => ?_) (Nat.le_refl _) h
  refine exists_directiveTree ?_ hd
  simpa [isMark] using hstop

/-! ## Fields -/

/-- A field starts with its name, or with an alias and a colon before it. -/
theorem exists_headTree {selection : Production (List Field)} {f : Field}
    (h : (field selection ts).Gives f rest) :
    ∃ (head : HeadTree) (us : List Token), ts = head.tokens ++ us ∧
      (fieldAfter selection head.alias? head.name us).Gives f rest := by
  obtain ⟨n, us, rfl, hbody⟩ := exists_of_name h
  rw [peek_bind] at hbody
  by_cases hcolon : headKind us = .punctuator .colon
  · obtain ⟨c, us, rfl⟩ := exists_mark hcolon
    rw [if_pos hcolon, advance_bind, List.tail_cons] at hbody
    obtain ⟨m, us, rfl, hafter⟩ := exists_of_name hbody
    rw [pure_bind] at hafter
    exact ⟨⟨n, some (c, m)⟩, us, rfl, hafter⟩
  · rw [if_neg hcolon, pure_bind] at hbody
    exact ⟨⟨n, none⟩, us, rfl, hbody⟩

/-- A field that is read without errors has a tree if its selection has one. -/
theorem exists_fieldTree {selection : Production (List Field)} {f : Field}
    (hselection : ∀ us fields rest, us.length ≤ ts.length → (selection us).Gives fields rest →
      ∃ s : SelectionTree FieldTree, us = s.tokens FieldTree.tokens ++ rest ∧
        fields = s.items.map FieldTree.field)
    (h : (field selection ts).Gives f rest) :
    ∃ tree : FieldTree, ts = tree.tokens ++ rest ∧ f = tree.field := by
  obtain ⟨head, us, rfl, hafter⟩ := exists_headTree h
  rw [fieldAfter] at hafter
  obtain ⟨args, mid, hargs, hafter'⟩ := exists_of_bind hafter
  obtain ⟨args, rfl, rfl⟩ := exists_argumentsTree hargs
  obtain ⟨dirs, mid, hdirs, hend⟩ := exists_of_bind hafter'
  obtain ⟨dirs, rfl, rfl⟩ := exists_directiveTrees hdirs
  rw [fieldEnd, peek_bind] at hend
  by_cases hopen : headKind mid = .punctuator .braceOpen
  · rw [if_pos hopen] at hend
    obtain ⟨fields?, mid', hfields?, hpure⟩ := exists_of_bind hend
    obtain ⟨rfl, rfl⟩ := eq_of_pure hpure
    obtain ⟨fields, hfields, rfl⟩ := exists_of_map hfields?
    obtain ⟨s, rfl, rfl⟩ := hselection mid fields _
      (by simp only [List.length_append]; omega) hfields
    refine ⟨⟨head, args, dirs, some s⟩, ?_, by rw [FieldTree.field_eq]; rfl⟩
    rw [FieldTree.tokens_eq]
    simp [perhaps]
  · rw [if_neg hopen, pure_bind] at hend
    obtain ⟨rfl, rfl⟩ := eq_of_pure hend
    refine ⟨⟨head, args, dirs, none⟩, ?_, by rw [FieldTree.field_eq]; rfl⟩
    rw [FieldTree.tokens_eq]
    simp [perhaps]

/-- A fragment selection is an error, so a step keeps one more field. -/
theorem exists_of_selectionStep {selection : Production (List Field)} {kept kept' : List Field}
    (hselection : ∀ us fields rest, us.length ≤ ts.length → (selection us).Gives fields rest →
      ∃ s : SelectionTree FieldTree, us = s.tokens FieldTree.tokens ++ rest ∧
        fields = s.items.map FieldTree.field)
    (h : (selectionStep selection kept ts).Gives kept' rest) :
    ∃ tree : FieldTree, ts = tree.tokens ++ rest ∧ kept' = kept ++ [tree.field] := by
  rw [selectionStep, peek_bind] at h
  by_cases hspread : headKind ts = .punctuator .spread
  · rw [if_pos hspread] at h
    exact absurd rfl (severity_of_reportHere h _ (List.mem_singleton_self _))
  · rw [if_neg hspread] at h
    obtain ⟨f, mid, hf, hpure⟩ := exists_of_bind h
    obtain ⟨rfl, rfl⟩ := eq_of_pure hpure
    obtain ⟨tree, hts, rfl⟩ := exists_fieldTree hselection hf
    exact ⟨tree, hts, rfl⟩

/-- A selection that is read without errors has a tree, by induction on the depth that is left. -/
theorem exists_selectionTree_within {depth : Nat} {fields : List Field} (hlen : ts.length < depth)
    (h : (selectionWithin depth ts).Gives fields rest) :
    ∃ s : SelectionTree FieldTree, ts = s.tokens FieldTree.tokens ++ rest ∧
      fields = s.items.map FieldTree.field := by
  induction depth generalizing ts fields rest with
  | zero => exact absurd hlen (Nat.not_lt_zero _)
  | succ depth ih =>
    rw [selectionWithin, peek_bind] at h
    by_cases hopen : headKind ts = .punctuator .braceOpen
    · obtain ⟨o, us, rfl⟩ := exists_mark hopen
      rw [if_pos hopen, advance_bind, List.tail_cons] at h
      have hshort : us.length < depth := Nat.lt_of_succ_lt_succ hlen
      obtain ⟨fields', mid, hfields, hmore⟩ := exists_of_bind h
      obtain ⟨trees, rfl, rfl⟩ := exists_of_steps
        (fun f : FieldTree => f.isField.starts.length_pos)
        (fun kept vs kept' rest hn _ hstep => exists_of_selectionStep
          (fun ws fields rest hws hfields => ih (by omega) hfields) hstep)
        (Nat.le_refl _) hfields
      obtain ⟨c, vs, rfl, hend⟩ := exists_of_expect hmore
      cases trees with
      | nil => exact absurd rfl (severity_of_reportHere hend _ (List.mem_singleton_self _))
      | cons first more =>
        obtain ⟨rfl, rfl⟩ := eq_of_pure hend
        exact ⟨⟨o, first, more, c⟩, by simp [SelectionTree.tokens, SelectionTree.enclosed,
          SelectionTree.items, Enclosed.tokens], rfl⟩
    · rw [if_neg hopen, seqRight_eq_bind] at h
      exact absurd h not_gives_expected

theorem exists_selectionTree {fields : List Field} (h : (selection ts).Gives fields rest) :
    ∃ s : SelectionTree FieldTree, ts = s.tokens FieldTree.tokens ++ rest ∧
      fields = s.items.map FieldTree.field :=
  exists_selectionTree_within (Nat.lt_succ_self _) h

/-! ## Operations -/

/-- A default that is read without errors is constant. -/
theorem exists_definitionTree {v : VariableDefinition}
    (h : (variableDefinition ts).Gives v rest) :
    ∃ tree : DefinitionTree, ts = tree.tokens ++ rest ∧ v = tree.definition := by
  obtain ⟨d, us, rfl, hname⟩ := exists_of_expect h
  obtain ⟨n, us, rfl, hcolon⟩ := exists_of_name hname
  obtain ⟨c, us, rfl, htype⟩ := exists_of_expect hcolon
  obtain ⟨t, mid, ht, hdefault⟩ := exists_of_bind htype
  obtain ⟨t, rfl, rfl⟩ := exists_typeTree ht
  rw [peek_bind] at hdefault
  by_cases hequals : headKind mid = .punctuator .equals
  · obtain ⟨e, us, rfl⟩ := exists_mark hequals
    rw [if_pos hequals] at hdefault
    obtain ⟨value?, mid', hvalue?, hpure⟩ := exists_of_bind hdefault
    obtain ⟨rfl, rfl⟩ := eq_of_pure hpure
    rw [seqRight_apply, advance_bind, List.tail_cons] at hvalue?
    obtain ⟨v, hv, rfl⟩ := exists_of_map hvalue?
    obtain ⟨v, rfl, rfl⟩ := exists_valueTree hv
    exact ⟨⟨d, n, c, t, some (e, v)⟩, by simp [DefinitionTree.tokens, perhaps], rfl⟩
  · rw [if_neg hequals, pure_bind] at hdefault
    obtain ⟨rfl, rfl⟩ := eq_of_pure hdefault
    exact ⟨⟨d, n, c, t, none⟩, by simp [DefinitionTree.tokens, perhaps], rfl⟩

/-- A repeated variable is an error, so a step keeps one more definition, under a new name. -/
theorem exists_of_variableStep {kept kept' : List VariableDefinition}
    (hnodup : (kept.map (·.name)).Nodup) (h : (variableStep kept ts).Gives kept' rest) :
    ∃ tree : DefinitionTree, ts = tree.tokens ++ rest ∧ kept' = kept ++ [tree.definition] ∧
      (kept'.map (·.name)).Nodup := by
  rw [variableStep, here_bind] at h
  obtain ⟨v, mid, hv, hkeep⟩ := exists_of_bind h
  obtain ⟨tree, hts, rfl⟩ := exists_definitionTree hv
  by_cases hany : (kept.any (·.name == tree.definition.name)) = true
  · rw [if_pos hany, seqRight_eq_bind] at hkeep
    exact absurd rfl (severity_of_report hkeep)
  · rw [if_neg hany] at hkeep
    obtain ⟨rfl, rfl⟩ := eq_of_pure hkeep
    refine ⟨tree, hts, rfl, ?_⟩
    rw [List.map_append, List.map_singleton]
    refine List.nodup_append.2 ⟨hnodup, List.pairwise_singleton _ _, fun name hkept new hnew => ?_⟩
    obtain ⟨w, hw, rfl⟩ := List.mem_map.1 hkept
    rintro rfl
    exact hany (List.any_eq_true.2 ⟨w, hw, beq_iff_eq.2 (List.mem_singleton.1 hnew)⟩)

theorem exists_definitionsTree {vs : List VariableDefinition}
    (h : (variableDefinitions ts).Gives vs rest) :
    ∃ tree : Option DefinitionsTree, ts = perhaps DefinitionsTree.tokens tree ++ rest ∧
      vs = definitionsOf tree := by
  rw [variableDefinitions, peek_bind] at h
  by_cases hopen : headKind ts = .punctuator .parenOpen
  · obtain ⟨o, us, rfl⟩ := exists_mark hopen
    rw [if_pos hopen, advance_bind, List.tail_cons] at h
    obtain ⟨vs', mid, hvs, hmore⟩ := exists_of_bind h
    have hnone : (List.map VariableDefinition.name []).Nodup := List.nodup_nil
    obtain ⟨trees, rfl, rfl, hnodup⟩ :=
      exists_of_iterate (fun kept => (kept.map VariableDefinition.name).Nodup)
        (fun d : DefinitionTree => d.isDefinition.starts.length_pos)
        (fun kept ts kept' rest _ hkept _ hstep => exists_of_variableStep hkept hstep)
        (Nat.le_refl _) hnone hvs
    obtain ⟨c, us, rfl, hpure⟩ := exists_of_expect hmore
    obtain ⟨rfl, rfl⟩ := eq_of_pure hpure
    rw [List.nil_append, List.map_map] at hnodup
    refine ⟨some ⟨⟨o, trees, c⟩, hnodup⟩, ?_, rfl⟩
    simp [perhaps, DefinitionsTree.tokens, Enclosed.tokens]
  · rw [if_neg hopen] at h
    obtain ⟨rfl, rfl⟩ := eq_of_pure h
    exact ⟨none, rfl, rfl⟩

theorem exists_optionalName {name? : Option String} (h : (optionalName ts).Gives name? rest) :
    ∃ n : Option NameToken, ts = perhaps (fun n => [n.1]) n ++ rest ∧
      name? = n.map (·.1.text) := by
  rw [optionalName, peek_bind] at h
  by_cases hname : (headKind ts).isName = true
  · rw [if_pos hname, map_eq_pure_bind] at h
    obtain ⟨n, us, rfl, hpure⟩ := exists_of_name h
    obtain ⟨rfl, rfl⟩ := eq_of_pure hpure
    exact ⟨some n, rfl, rfl⟩
  · rw [if_neg hname] at h
    obtain ⟨rfl, rfl⟩ := eq_of_pure h
    exact ⟨none, rfl, rfl⟩

/-- Directives on an operation are an error. -/
theorem eq_of_operationDirectives {a : Unit} (h : (operationDirectives ts).Gives a rest) :
    rest = ts := by
  rw [operationDirectives, peek_bind] at h
  by_cases hat : headKind ts = .punctuator .at
  · rw [if_pos hat, here_bind] at h
    obtain ⟨_, mid, -, hreport⟩ := exists_of_bind h
    cases hreport.errorless _ List.mem_cons_self
  · rw [if_neg hat] at h
    exact (eq_of_pure h).2

/-- An operation that does not start with its selection starts with the word for its kind. -/
theorem exists_keyword (h : startsOperation (headKind ts) = true)
    (hopen : headKind ts ≠ .punctuator .braceOpen) :
    ∃ (kind : OperationKind) (t : { t : Token // t.kind = .keyword (keywordOf kind) })
      (us : List Token), ts = t.1 :: us := by
  cases ts with
  | nil => cases h
  | cons t us =>
    simp only [startsOperation, Bool.or_eq_true, beq_iff_eq] at h
    rcases h with ((h | h) | h) | h
    · exact ⟨.query, ⟨t, h⟩, us, rfl⟩
    · exact ⟨.mutation, ⟨t, h⟩, us, rfl⟩
    · exact ⟨.subscription, ⟨t, h⟩, us, rfl⟩
    · exact absurd h hopen

theorem exists_plainOperationTree {op : Operation} (hstart : startsOperation (headKind ts) = true)
    (h : (plainOperation ts).Gives op rest) :
    ∃ tree : OperationTree, ts = tree.tokens ++ rest ∧ op = tree.operation := by
  rw [plainOperation, peek_bind] at h
  by_cases hopen : headKind ts = .punctuator .braceOpen
  · rw [if_pos hopen] at h
    obtain ⟨fields, mid, hfields, hpure⟩ := exists_of_bind h
    obtain ⟨rfl, rfl⟩ := eq_of_pure hpure
    obtain ⟨s, hts, rfl⟩ := exists_selectionTree hfields
    exact ⟨.short s, hts, rfl⟩
  · obtain ⟨kind, k, us, rfl⟩ := exists_keyword hstart hopen
    rw [if_neg hopen, advance_bind, List.tail_cons] at h
    obtain ⟨name?, mid, hname, hdefs⟩ := exists_of_bind h
    obtain ⟨n, rfl, rfl⟩ := exists_optionalName hname
    obtain ⟨vs, mid, hvs, hdirs⟩ := exists_of_bind hdefs
    obtain ⟨d, rfl, rfl⟩ := exists_definitionsTree hvs
    obtain ⟨_, mid', hnone, hsel⟩ := exists_of_bind hdirs
    obtain rfl := eq_of_operationDirectives hnone
    obtain ⟨fields, mid'', hfields, hpure⟩ := exists_of_bind hsel
    obtain ⟨rfl, rfl⟩ := eq_of_pure hpure
    obtain ⟨s, rfl, rfl⟩ := exists_selectionTree hfields
    refine ⟨.long kind k n d s, by simp [OperationTree.tokens], ?_⟩
    rw [headKind, k.2, operationKind_keywordOf]
    rfl

/-- An operation that is read without errors has no directives, and a tree of the grammar. -/
theorem exists_operationTree {op : Operation} (hstart : startsOperation (headKind ts) = true)
    (h : (operation ts).Gives op rest) :
    ∃ tree : OperationTree, ts = tree.tokens ++ rest ∧ op = tree.operation := by
  obtain ⟨op, mid, hop, hwarn⟩ := exists_of_bind h
  obtain ⟨_, mid', hreport, hpure⟩ := exists_of_bind hwarn
  obtain ⟨rfl, rfl⟩ := eq_of_pure hpure
  obtain rfl := hreport.rest
  exact exists_plainOperationTree hstart hop

/-! ## Documents -/

/-- What is no operation is an error, so a step keeps one more operation. -/
theorem exists_of_definitionStep {kept kept' : List Operation}
    (h : (definitionStep kept ts).Gives kept' rest) :
    ∃ tree : OperationTree, ts = tree.tokens ++ rest ∧ kept' = kept ++ [tree.operation] := by
  rw [definitionStep, peek_bind] at h
  by_cases hstart : startsOperation (headKind ts) = true
  · rw [if_pos hstart] at h
    obtain ⟨op, mid, hop, hpure⟩ := exists_of_bind h
    obtain ⟨rfl, rfl⟩ := eq_of_pure hpure
    obtain ⟨tree, hts, rfl⟩ := exists_operationTree hstart hop
    exact ⟨tree, hts, rfl⟩
  · rw [if_neg hstart] at h
    by_cases hfragment : headKind ts = .keyword .fragment
    · rw [if_pos hfragment] at h
      exact absurd rfl (severity_of_reportHere h _ (List.mem_singleton_self _))
    · rw [if_neg hfragment] at h
      exact absurd h not_gives_expected

end Production

namespace Document

/-- A document that is read without an error has a derivation. -/
theorem exists_derivation {ts : List Token} (h : ∀ r ∈ (ofTokens ts).reports, r.isError = false) :
    ∃ d : Grammar.Derivation ts, (ofTokens ts).value = d.1.document := by
  have hread : (Production.document ts).Gives (ofTokens ts).value (ofTokens ts).rest :=
    ⟨rfl, rfl, h⟩
  obtain ⟨ops, rest, hops, hpure⟩ := Production.exists_of_bind hread
  obtain ⟨trees, hts, rfl⟩ := Production.exists_of_steps
    (fun o : Grammar.OperationTree => o.isOperation.starts.length_pos)
    (fun _ _ _ _ _ _ hstep => Production.exists_of_definitionStep hstep) (Nat.le_refl _) hops
  -- Nothing stops the loop over the operations before the end of the tokens.
  have hrest : rest = [] := by
    have hstop := Production.rest_iterate (fun _ => false) Production.definitionStep [] ts
    rw [← hops.rest]
    exact hstop.resolve_right Bool.false_ne_true
  subst hrest
  exact ⟨⟨⟨trees⟩, by rw [hts, List.append_nil]; rfl⟩, (Production.eq_of_pure hpure).1⟩

end Document

end QueryBatch
