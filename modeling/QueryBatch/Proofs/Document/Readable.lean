import QueryBatch.Proofs.Document.Acceptance
import QueryBatch.Proofs.Document.Writable
import QueryBatch.Proofs.Token.Words

/-!
# What was read can be written

A document that is read from a source without an error can be written: its names are words, its
numbers are finite, and it keeps the rules of the grammar. Main statements:

* `Grammar.ValueTree.writable`, `Grammar.FieldTree.writable`, `Grammar.OperationTree.writable`: what
  a tree stands for can be written if its tokens are those of a source;
* `Document.writable_of_hasErrors`: so can a document that is read without an error.
-/

namespace QueryBatch

/-! ## Literals and enumeration values -/

namespace Literal

variable {t : Token} {v : Value}

/-- What a literal stands for has no names, and is finite if it is a number. -/
theorem writable_of_ofToken? (h : ofToken? t = some ⟨v, []⟩) :
    v.isSpellable = true ∧ v.isGrammatical = true ∧ v.references = [] := by
  unfold ofToken? at h
  split at h
  · unfold ofInt at h
    split at h
    · cases h
      exact ⟨rfl, rfl, rfl⟩
    · cases h
  · unfold ofFloat at h
    split at h
    · rename_i x hx
      cases h
      exact ⟨(Option.filter_eq_some_iff.1 hx).2, rfl, rfl⟩
    · cases h
  · cases congrArg Literal.value (Option.some.inj h)
    exact ⟨rfl, rfl, rfl⟩
  all_goals cases h
  all_goals exact ⟨rfl, rfl, rfl⟩

/-- A word that is no literal is none of those that stand for a value of their own. -/
theorem isEnumName_of_ofToken? (hkind : t.kind = .ofWord t.text) (h : ofToken? t = none) :
    Value.isEnumName t.text = true := by
  have hne : ∀ word : String, t.text = word → ofToken? ⟨.ofWord word, word, t.start⟩ = none := by
    rintro word rfl
    rw [← hkind]
    exact h
  simp only [Value.isEnumName, Bool.and_eq_true, bne_iff_ne]
  refine ⟨⟨fun hword => ?_, fun hword => ?_⟩, fun hword => ?_⟩
  · cases hne _ hword
  · cases hne _ hword
  · cases hne _ hword

end Literal

namespace Grammar

variable {τ : Type} {m n : Punctuator} {leaves : τ → List Token}

theorem isWord_of_namesWord {t : NameToken} (h : t.1.NamesWord) : isWord t.1.text = true :=
  (h t.2).1

/-! ## Tokens of the parts of a tree -/

theorem Enclosed.mem_tokens {e : Enclosed m n τ} {x : τ} (hx : x ∈ e.items) {t : Token}
    (ht : t ∈ leaves x) : t ∈ e.tokens leaves :=
  List.mem_cons_of_mem _ (List.mem_append_left _ (List.mem_flatMap.2 ⟨x, hx, ht⟩))

theorem EntryTree.mem_tokens {e : EntryTree τ} {t : Token} (ht : t ∈ leaves e.value) :
    t ∈ e.tokens leaves :=
  List.mem_cons_of_mem _ (List.mem_cons_of_mem _ ht)

/-! ## Values -/

namespace ValueTree

variable {constant : Bool}

/-- The value of a tree can be written, since its names are words and its enum values are not
reserved. -/
theorem writable (v : ValueTree constant) (h : ∀ t ∈ v.tokens, t.NamesWord) :
    v.value.isSpellable = true ∧ v.value.isGrammatical = true := by
  induction v with
  | literal l =>
    obtain ⟨hspellable, hgrammatical, -⟩ := Literal.writable_of_ofToken? l.ofToken?
    rw [value]
    exact ⟨hspellable, hgrammatical⟩
  | enum t =>
    rw [tokens, List.forall_mem_singleton] at h
    obtain ⟨hword, hkind⟩ := h t.2.1
    rw [value]
    exact ⟨hword, Literal.isEnumName_of_ofToken? hkind t.2.2⟩
  | var hconstant dollar name =>
    rw [tokens] at h
    rw [value]
    exact ⟨isWord_of_namesWord (h _ (.tail _ (.head _))), rfl⟩
  | list items ih =>
    rw [tokens_list] at h
    have hitem := fun v hv => ih v hv fun t ht => h t (Enclosed.mem_tokens hv ht)
    rw [value_list, Value.isSpellable, Value.isGrammatical, Value.areSpellable_eq_all,
      Value.areGrammatical_eq_all, List.all_map, List.all_map, List.all_eq_true, List.all_eq_true]
    exact ⟨fun v hv => (hitem v hv).1, fun v hv => (hitem v hv).2⟩
  | object entries ih =>
    rw [tokens_object] at h
    have hentry := fun e he =>
      ih e he fun t ht => h t (Enclosed.mem_tokens he (EntryTree.mem_tokens ht))
    have hkey : ∀ e ∈ entries.items, isWord e.key.1.text = true := fun e he =>
      isWord_of_namesWord (h _ (Enclosed.mem_tokens he (.head _)))
    rw [value_object, Value.isSpellable, Value.isGrammatical, Value.areEntriesSpellable_eq_all,
      Value.areEntriesGrammatical_eq_all, List.all_map, List.all_map, List.all_eq_true,
      List.all_eq_true]
    exact ⟨fun e he => Bool.and_eq_true_iff.2 ⟨hkey e he, (hentry e he).1⟩,
      fun e he => (hentry e he).2⟩

/-- A constant value has no variable. -/
theorem references_eq_nil (v : ValueTree true) : v.value.references = [] := by
  induction v with
  | literal l =>
    rw [value]
    exact (Literal.writable_of_ofToken? l.ofToken?).2.2
  | enum t =>
    rw [value]
    rfl
  | var hconstant => cases hconstant
  | list items ih =>
    rw [value_list, Value.references, Value.referencesInItems_eq_flatMap, List.flatMap_map]
    exact List.flatMap_eq_nil_iff.2 ih
  | object entries ih =>
    rw [value_object, Value.references, Value.referencesInEntries_eq_flatMap, List.flatMap_map]
    exact List.flatMap_eq_nil_iff.2 ih

theorem isConstant (v : ValueTree true) : v.value.isConstant = true := by
  rw [Value.isConstant, Value.mentions_eq_any, references_eq_nil]
  rfl

end ValueTree

/-! ## Arguments and directives -/

theorem ArgumentsTree.writable (args : ArgumentsTree) (h : ∀ t ∈ args.tokens, t.NamesWord) :
    args.arguments.all (·.isSpellable) = true ∧ Argument.areGrammatical args.arguments = true := by
  cases args with
  | none => exact ⟨rfl, rfl⟩
  | some args =>
    have hvalue : ∀ a ∈ args.items, a.value.value.isSpellable = true ∧
        a.value.value.isGrammatical = true := fun a ha =>
      a.value.writable fun t ht => h t (Enclosed.mem_tokens ha (EntryTree.mem_tokens ht))
    have hkey : ∀ a ∈ args.items, isWord a.key.1.text = true := fun a ha =>
      isWord_of_namesWord (h _ (Enclosed.mem_tokens ha (.head _)))
    simp only [ArgumentsTree.arguments, Argument.areGrammatical, List.all_map, List.all_eq_true]
    exact ⟨fun a ha => Bool.and_eq_true_iff.2 ⟨hkey a ha, (hvalue a ha).1⟩,
      fun a ha => (hvalue a ha).2⟩

theorem DirectiveTree.writable (d : DirectiveTree) (h : ∀ t ∈ d.tokens, t.NamesWord) :
    d.directive.isSpellable = true ∧ Argument.areGrammatical d.directive.arguments = true := by
  obtain ⟨hspellable, hgrammatical⟩ :=
    d.arguments.writable fun t ht => h t (.tail _ (.tail _ ht))
  exact ⟨Bool.and_eq_true_iff.2
    ⟨isWord_of_namesWord (h _ (.tail _ (.head _))), hspellable⟩, hgrammatical⟩

/-! ## Fields -/

theorem HeadTree.writable (head : HeadTree) (h : ∀ t ∈ head.tokens, t.NamesWord) :
    head.alias?.all isWord = true ∧ isWord head.name = true := by
  obtain ⟨first, _ | ⟨colon, second⟩⟩ := head
  · exact ⟨rfl, isWord_of_namesWord (h _ (.head _))⟩
  · exact ⟨isWord_of_namesWord (h _ (.head _)),
      isWord_of_namesWord (h _ (.tail _ (.tail _ (.head _))))⟩

theorem SelectionTree.writable {s : SelectionTree FieldTree}
    (h : ∀ f ∈ s.items, f.field.isSpellable = true ∧ f.field.isGrammatical = true) :
    Field.areSpellable (s.items.map FieldTree.field) = true ∧
      Field.isSelectionGrammatical (some (s.items.map FieldTree.field)) = true := by
  rw [Field.isSelectionGrammatical, Field.areSpellable_eq_all, Field.areGrammatical_eq_all,
    List.all_map, List.all_map, List.all_eq_true, Bool.and_eq_true, List.all_eq_true]
  exact ⟨fun f hf => (h f hf).1, rfl, fun f hf => (h f hf).2⟩

/-- What stands before the selection of a field. -/
theorem FieldTree.writable_parts (f : FieldTree) (h : ∀ t ∈ f.tokens, t.NamesWord) :
    (f.head.alias?.all isWord = true ∧ isWord f.head.name = true) ∧
      (f.arguments.arguments.all (·.isSpellable) = true ∧
        Argument.areGrammatical f.arguments.arguments = true) ∧
      (f.directives.map DirectiveTree.directive).all (·.isSpellable) = true ∧
        Directive.areGrammatical (f.directives.map DirectiveTree.directive) = true := by
  rw [tokens_eq] at h
  simp only [List.forall_mem_append] at h
  obtain ⟨hhead, hargs, hdirs, -⟩ := h
  refine ⟨f.head.writable hhead, f.arguments.writable hargs, ?_⟩
  have hdir := fun d hd => DirectiveTree.writable d fun t ht =>
    hdirs t (List.mem_flatMap.2 ⟨d, hd, ht⟩)
  simp only [Directive.areGrammatical, List.all_map, List.all_eq_true]
  exact ⟨fun d hd => (hdir d hd).1, fun d hd => (hdir d hd).2⟩

/-- The field of a tree can be written, by induction on the nested fields. -/
theorem FieldTree.writable (f : FieldTree) (h : ∀ t ∈ f.tokens, t.NamesWord) :
    f.field.isSpellable = true ∧ f.field.isGrammatical = true := by
  induction f with
  | leaf head args dirs =>
    obtain ⟨hhead, hargs, hdirs⟩ := writable_parts _ h
    rw [Field.isSpellable_iff, Field.isGrammatical_iff, field_eq]
    exact ⟨⟨hhead, hargs.1, hdirs.1, rfl⟩, hargs.2, hdirs.2, rfl⟩
  | branch head args dirs s ih =>
    obtain ⟨hhead, hargs, hdirs⟩ := writable_parts _ h
    rw [tokens_eq] at h
    obtain ⟨hspellable, hgrammatical⟩ := SelectionTree.writable fun f hf =>
      ih f hf fun t ht => h t (List.mem_append_right _ (List.mem_append_right _
        (List.mem_append_right _ (Enclosed.mem_tokens (e := s.enclosed) hf ht))))
    rw [Field.isSpellable_iff, Field.isGrammatical_iff, field_eq]
    exact ⟨⟨hhead, hargs.1, hdirs.1, hspellable⟩, hargs.2, hdirs.2, hgrammatical⟩

/-- What a selection of an operation stands for. -/
theorem SelectionTree.writable_fields (s : SelectionTree FieldTree)
    (h : ∀ t ∈ s.tokens FieldTree.tokens, t.NamesWord) :
    Field.areSpellable (s.items.map FieldTree.field) = true ∧
      Field.isSelectionGrammatical (some (s.items.map FieldTree.field)) = true :=
  SelectionTree.writable fun f hf => f.writable fun t ht =>
    h t (Enclosed.mem_tokens (e := s.enclosed) hf ht)

/-! ## Operations -/

theorem TypeTree.writable (type : TypeTree) (h : ∀ t ∈ type.tokens, t.NamesWord) :
    type.type.isSpellable = true ∧ type.type.isGrammatical = true := by
  induction type with
  | named name bang =>
    have hname := isWord_of_namesWord (h _ (.head _))
    cases bang <;> exact ⟨hname, rfl⟩
  | list o element c bang ih =>
    obtain ⟨hspellable, hgrammatical⟩ := ih fun t ht => h t (.tail _ (List.mem_append_left _ ht))
    cases bang <;> exact ⟨hspellable, hgrammatical⟩

theorem DefinitionTree.writable (d : DefinitionTree) (h : ∀ t ∈ d.tokens, t.NamesWord) :
    d.definition.isSpellable = true ∧ d.definition.isGrammatical = true := by
  obtain ⟨dollar, name, colon, type, default⟩ := d
  simp only [tokens, List.forall_mem_cons, List.forall_mem_append] at h
  obtain ⟨-, hname, -, htype, hdefault⟩ := h
  obtain ⟨hspellable, hgrammatical⟩ := type.writable htype
  simp only [definition, VariableDefinition.isSpellable, VariableDefinition.isGrammatical,
    Bool.and_eq_true]
  cases default with
  | none => exact ⟨⟨⟨isWord_of_namesWord hname, hspellable⟩, rfl⟩, hgrammatical, rfl⟩
  | some default =>
    obtain ⟨equals, v⟩ := default
    obtain ⟨hvspellable, hvgrammatical⟩ := v.writable fun t ht => hdefault t (.tail _ ht)
    exact ⟨⟨⟨isWord_of_namesWord hname, hspellable⟩, hvspellable⟩, hgrammatical,
      Bool.and_eq_true_iff.2 ⟨hvgrammatical, v.isConstant⟩⟩

theorem writable_definitionsOf (d : Option DefinitionsTree)
    (h : ∀ t ∈ perhaps DefinitionsTree.tokens d, t.NamesWord) :
    (definitionsOf d).all (·.isSpellable) = true ∧ (definitionsOf d).all (·.isGrammatical) = true ∧
      ((definitionsOf d).map (·.name)).Nodup := by
  cases d with
  | none => exact ⟨rfl, rfl, List.nodup_nil⟩
  | some d =>
    have hdef := fun v hv => DefinitionTree.writable v fun t ht => h t (Enclosed.mem_tokens hv ht)
    simp only [definitionsOf, List.all_map, List.all_eq_true, List.map_map]
    exact ⟨fun v hv => (hdef v hv).1, fun v hv => (hdef v hv).2, d.nodup⟩

/-- The operation of a tree can be written. -/
theorem OperationTree.writable (o : OperationTree) (h : ∀ t ∈ o.tokens, t.NamesWord) :
    o.operation.isSpellable = true ∧ o.operation.isGrammatical = true := by
  cases o with
  | short s =>
    obtain ⟨hspellable, hgrammatical⟩ := s.writable_fields h
    exact ⟨hspellable, hgrammatical⟩
  | long kind keyword name definitions s =>
    simp only [tokens, List.forall_mem_cons, List.forall_mem_append] at h
    obtain ⟨-, hname, hdefs, hsel⟩ := h
    have hword : (name.map (·.1.text)).all isWord = true := by
      cases name with
      | none => rfl
      | some n => exact isWord_of_namesWord (hname _ (.head _))
    obtain ⟨hsdefs, hgdefs, hnodup⟩ := writable_definitionsOf definitions hdefs
    obtain ⟨hspellable, hgrammatical⟩ := s.writable_fields hsel
    simp only [operation, Operation.isSpellable, Operation.isGrammatical, Bool.and_eq_true]
    exact ⟨⟨⟨hword, hsdefs⟩, hspellable⟩, ⟨hgdefs, decide_eq_true hnodup⟩, hgrammatical⟩

end Grammar

namespace Document

/-- A document that is read without an error can be written. -/
theorem writable_of_hasErrors {source : String} (h : (diagnostics source).hasErrors = false) :
    (ofSource source).value.isSpellable = true ∧ (ofSource source).value.isGrammatical = true := by
  have herrorless : ∀ r ∈ (ofTokens (tokenize source)).reports, r.isError = false := by
    rw [diagnostics, Reading.hasErrors_diagnostics, List.any_eq_false] at h
    exact fun r hr => Bool.eq_false_iff.2 (h r hr)
  obtain ⟨⟨d, hd⟩, hvalue⟩ := exists_derivation herrorless
  have hop : ∀ o ∈ d.operations,
      o.operation.isSpellable = true ∧ o.operation.isGrammatical = true := by
    intro o ho
    refine o.writable fun t ht => ?_
    have hmem : t ∈ tokenize source := by
      rw [← hd]
      exact List.mem_flatMap.2 ⟨o, ho, ht⟩
    exact namesWord_of_mem_tokenize hmem
  rw [ofSource, hvalue]
  simp only [isSpellable, isGrammatical, Grammar.DocumentTree.document, List.all_map,
    List.all_eq_true]
  exact ⟨fun o ho => (hop o ho).1, fun o ho => (hop o ho).2⟩

end Document

end QueryBatch
