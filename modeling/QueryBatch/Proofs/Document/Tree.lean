import QueryBatch.Proofs.Document.Grammar

/-!
# Derivation trees

A derivation tree has the tokens of a phrase at its leaves, and the parts of the phrase as its
branches. Each tree stands for what the phrase means. Main statements:

* `Grammar.ValueTree.induction`, `Grammar.FieldTree.induction`: what holds of a tree if it holds of
  the trees nested in it;
* `Grammar.ValueTree.isValue`, `Grammar.FieldTree.isField`, `Grammar.OperationTree.isOperation`: the
  tokens of a tree are a phrase with the meaning of the tree.
-/

namespace QueryBatch

namespace Grammar

variable {τ α : Type} {m n : Punctuator}

/-! ## Leaves -/

/-- A token that is a given punctuator. -/
abbrev Mark (m : Punctuator) := { t : Token // t.kind = .punctuator m }

/-- A token that may stand where a name is asked for. -/
abbrev NameToken := { t : Token // t.kind.isName = true }

/-- A name that is no literal. -/
abbrev EnumToken := { t : Token // t.kind.isName = true ∧ Literal.ofToken? t = none }

/-- A literal with its value, which is read without an issue. -/
structure LiteralToken where
  token : Token
  value : Value
  ofToken? : Literal.ofToken? token = some ⟨value, []⟩

/-! ## Parts that several phrases share -/

/-- The tokens of a part that may be missing. -/
def perhaps (tokens : τ → List Token) : Option τ → List Token
  | none => []
  | some t => tokens t

/-- Phrases between two punctuators. -/
structure Enclosed (m n : Punctuator) (τ : Type) where
  opening : Mark m
  items : List τ
  closing : Mark n

def Enclosed.tokens (tokens : τ → List Token) (e : Enclosed m n τ) : List Token :=
  e.opening.1 :: (e.items.flatMap tokens ++ [e.closing.1])

/-- A name, a colon and what the name stands for. -/
structure EntryTree (τ : Type) where
  key : NameToken
  colon : Mark .colon
  value : τ

namespace EntryTree

def tokens (tokens : τ → List Token) (e : EntryTree τ) : List Token :=
  e.key.1 :: e.colon.1 :: tokens e.value

def entry (value : τ → α) (e : EntryTree τ) : String × α := (e.key.1.text, value e.value)

theorem sizeOf_value_lt [SizeOf τ] {e : EntryTree τ} {es : List (EntryTree τ)} (h : e ∈ es) :
    sizeOf e.value < sizeOf es := by
  have hlt := List.sizeOf_lt_of_mem h
  obtain ⟨key, colon, value⟩ := e
  rw [mk.sizeOf_spec] at hlt
  show sizeOf value < sizeOf es
  omega

end EntryTree

/-! ## Types -/

/-- A type is a name or the type of elements in brackets, with or without a mark behind it. -/
inductive TypeTree
  | named (name : NameToken) (bang : Option (Mark .bang))
  | list (opening : Mark .bracketOpen) (element : TypeTree) (closing : Mark .bracketClose)
    (bang : Option (Mark .bang))

/-- The token that excludes null from a type, or none. -/
def bangTokens : Option (Mark .bang) → List Token := perhaps fun b => [b.1]

/-- A type, from which null is excluded if the mark for that is there. -/
def bangType (t : TypeRef) : Option (Mark .bang) → TypeRef
  | none => t
  | some _ => .nonNull t

namespace TypeTree

def tokens : TypeTree → List Token
  | named name bang => name.1 :: bangTokens bang
  | list o element c bang => o.1 :: (element.tokens ++ c.1 :: bangTokens bang)

def type : TypeTree → TypeRef
  | named name bang => bangType (.named name.1.text) bang
  | list _ element _ bang => bangType (.list element.type) bang

end TypeTree

/-! ## Values -/

/-- A value. A constant has no variables, in lists and objects as well. -/
inductive ValueTree (constant : Bool)
  | literal (t : LiteralToken)
  | enum (t : EnumToken)
  | var (hconstant : constant = false) (dollar : Mark .dollar) (name : NameToken)
  | list (items : Enclosed .bracketOpen .bracketClose (ValueTree constant))
  | object (entries : Enclosed .braceOpen .braceClose (EntryTree (ValueTree constant)))

namespace ValueTree

variable {constant : Bool}

def tokens : ValueTree constant → List Token
  | literal t => [t.token]
  | enum t => [t.1]
  | var _ dollar name => [dollar.1, name.1]
  | list ⟨o, items, c⟩ => o.1 :: (items.flatMap (fun v => v.tokens) ++ [c.1])
  | object ⟨o, entries, c⟩ =>
    o.1 :: (entries.flatMap (fun e => e.key.1 :: e.colon.1 :: e.value.tokens) ++ [c.1])
decreasing_by
  · decreasing_tactic
  · have := EntryTree.sizeOf_value_lt ‹_›
    decreasing_tactic

def value : ValueTree constant → Value
  | literal t => t.value
  | enum t => .enum t.1.text
  | var _ _ name => .var name.1.text
  | list ⟨_, items, _⟩ => .list (items.map fun v => v.value)
  | object ⟨_, entries, _⟩ => .object (entries.map fun e => (e.key.1.text, e.value.value))
decreasing_by
  · decreasing_tactic
  · have := EntryTree.sizeOf_value_lt ‹_›
    decreasing_tactic

/-- Induction over the values inside lists and objects. -/
@[elab_as_elim, induction_eliminator]
theorem induction {motive : ValueTree constant → Prop} (literal : ∀ t, motive (.literal t))
    (enum : ∀ t, motive (.enum t))
    (var : ∀ hconstant dollar name, motive (.var hconstant dollar name))
    (list : ∀ items : Enclosed .bracketOpen .bracketClose (ValueTree constant),
      (∀ v ∈ items.items, motive v) → motive (.list items))
    (object : ∀ entries : Enclosed .braceOpen .braceClose (EntryTree (ValueTree constant)),
      (∀ e ∈ entries.items, motive e.value) → motive (.object entries))
    (v : ValueTree constant) : motive v :=
  tokens.induct motive literal enum var (fun o items c => list ⟨o, items, c⟩)
    (fun o entries c => object ⟨o, entries, c⟩) v

/-- The recursion over the items is a map over them. -/
@[simp] theorem tokens_list (items : Enclosed .bracketOpen .bracketClose (ValueTree constant)) :
    (list items).tokens = items.tokens tokens := by
  obtain ⟨o, items, c⟩ := items
  rw [tokens, Enclosed.tokens]

@[simp] theorem tokens_object
    (entries : Enclosed .braceOpen .braceClose (EntryTree (ValueTree constant))) :
    (object entries).tokens = entries.tokens (EntryTree.tokens tokens) := by
  obtain ⟨o, entries, c⟩ := entries
  rw [tokens, Enclosed.tokens]
  rfl

@[simp] theorem value_list (items : Enclosed .bracketOpen .bracketClose (ValueTree constant)) :
    (list items).value = .list (items.items.map value) := by
  obtain ⟨o, items, c⟩ := items
  rw [value]

@[simp] theorem value_object
    (entries : Enclosed .braceOpen .braceClose (EntryTree (ValueTree constant))) :
    (object entries).value = .object (entries.items.map (EntryTree.entry value)) := by
  obtain ⟨o, entries, c⟩ := entries
  rw [value]
  rfl

end ValueTree

/-! ## Arguments and directives -/

abbrev ArgumentTree := EntryTree (ValueTree false)

namespace ArgumentTree

def tokens (a : ArgumentTree) : List Token := EntryTree.tokens ValueTree.tokens a

def argument (a : ArgumentTree) : Argument := ⟨a.key.1.text, a.value.value⟩

end ArgumentTree

/-- Arguments in parentheses, or nothing. -/
abbrev ArgumentsTree := Option (Enclosed .parenOpen .parenClose ArgumentTree)

namespace ArgumentsTree

def tokens : ArgumentsTree → List Token := perhaps (Enclosed.tokens ArgumentTree.tokens)

def arguments : ArgumentsTree → List Argument
  | none => []
  | some args => args.items.map ArgumentTree.argument

end ArgumentsTree

/-- A directive is a mark, a name and arguments. -/
structure DirectiveTree where
  at_ : Mark .at
  name : NameToken
  arguments : ArgumentsTree

namespace DirectiveTree

def tokens (d : DirectiveTree) : List Token := d.at_.1 :: d.name.1 :: d.arguments.tokens

def directive (d : DirectiveTree) : Directive := ⟨d.name.1.text, d.arguments.arguments⟩

end DirectiveTree

/-! ## Fields -/

/-- A name, and perhaps a colon and another name; then the first one is an alias. -/
structure HeadTree where
  first : NameToken
  second : Option (Mark .colon × NameToken)

namespace HeadTree

def tokens (h : HeadTree) : List Token :=
  h.first.1 :: perhaps (fun (c, n) => [c.1, n.1]) h.second

def alias? (h : HeadTree) : Option String := h.second.map fun _ => h.first.1.text

def name (h : HeadTree) : String := (h.second.map (·.2.1.text)).getD h.first.1.text

end HeadTree

/-- Fields in braces, of which there is one. -/
structure SelectionTree (τ : Type) where
  opening : Mark .braceOpen
  first : τ
  more : List τ
  closing : Mark .braceClose

namespace SelectionTree

def items (s : SelectionTree τ) : List τ := s.first :: s.more

def enclosed (s : SelectionTree τ) : Enclosed .braceOpen .braceClose τ :=
  ⟨s.opening, s.items, s.closing⟩

def tokens (tokens : τ → List Token) (s : SelectionTree τ) : List Token :=
  s.enclosed.tokens tokens

end SelectionTree

/-- A field has a head, arguments, directives and perhaps a selection. -/
structure FieldTree where
  head : HeadTree
  arguments : ArgumentsTree
  directives : List DirectiveTree
  selection : Option (SelectionTree FieldTree)

namespace FieldTree

def tokens : FieldTree → List Token
  | ⟨head, args, dirs, none⟩ =>
    head.tokens ++ (args.tokens ++ dirs.flatMap DirectiveTree.tokens)
  | ⟨head, args, dirs, some ⟨o, first, more, c⟩⟩ =>
    head.tokens ++ (args.tokens ++ (dirs.flatMap DirectiveTree.tokens ++
      o.1 :: (first.tokens ++ more.flatMap (fun f => f.tokens) ++ [c.1])))

def field : FieldTree → Field
  | ⟨head, args, dirs, none⟩ =>
    ⟨head.alias?, head.name, args.arguments, dirs.map DirectiveTree.directive, none⟩
  | ⟨head, args, dirs, some ⟨_, first, more, _⟩⟩ =>
    ⟨head.alias?, head.name, args.arguments, dirs.map DirectiveTree.directive,
      some (first.field :: more.map fun f => f.field)⟩

/-- Induction over the fields of a selection. -/
@[elab_as_elim, induction_eliminator]
theorem induction {motive : FieldTree → Prop}
    (leaf : ∀ head args dirs, motive ⟨head, args, dirs, none⟩)
    (branch : ∀ head args dirs (s : SelectionTree FieldTree), (∀ f ∈ s.items, motive f) →
      motive ⟨head, args, dirs, some s⟩) (f : FieldTree) : motive f :=
  tokens.induct motive leaf (fun head args dirs o first more c hfirst hmore =>
    branch head args dirs ⟨o, first, more, c⟩ (List.forall_mem_cons.2 ⟨hfirst, hmore⟩)) f

theorem tokens_eq (f : FieldTree) :
    f.tokens = f.head.tokens ++ (f.arguments.tokens ++
      (f.directives.flatMap DirectiveTree.tokens ++
        perhaps (SelectionTree.tokens tokens) f.selection)) := by
  obtain ⟨head, args, dirs, _ | ⟨o, first, more, c⟩⟩ := f
  · rw [tokens, perhaps, List.append_nil]
  · rw [tokens]
    rfl

theorem field_eq (f : FieldTree) :
    f.field = ⟨f.head.alias?, f.head.name, f.arguments.arguments,
      f.directives.map DirectiveTree.directive, f.selection.map (·.items.map field)⟩ := by
  obtain ⟨head, args, dirs, _ | ⟨o, first, more, c⟩⟩ := f
  · rw [field, Option.map_none]
  · rw [field]
    rfl

end FieldTree

/-! ## Operations -/

/-- A variable with its type and perhaps a default, which is constant. -/
structure DefinitionTree where
  dollar : Mark .dollar
  name : NameToken
  colon : Mark .colon
  type : TypeTree
  default : Option (Mark .equals × ValueTree true)

namespace DefinitionTree

def tokens (d : DefinitionTree) : List Token :=
  d.dollar.1 :: d.name.1 :: d.colon.1 :: (d.type.tokens ++
    perhaps (fun (e, v) => e.1 :: v.tokens) d.default)

def definition (d : DefinitionTree) : VariableDefinition :=
  ⟨d.name.1.text, d.type.type, d.default.map (·.2.value)⟩

end DefinitionTree

/-- Definitions with different names in parentheses. -/
structure DefinitionsTree where
  group : Enclosed .parenOpen .parenClose DefinitionTree
  nodup : (group.items.map (·.definition.name)).Nodup

def DefinitionsTree.tokens (d : DefinitionsTree) : List Token :=
  d.group.tokens DefinitionTree.tokens

/-- The variables that are defined where definitions may be missing. -/
def definitionsOf : Option DefinitionsTree → List VariableDefinition
  | none => []
  | some d => d.group.items.map DefinitionTree.definition

/-- An operation is a selection alone, which is a query, or starts with a word for its kind. -/
inductive OperationTree
  | short (selection : SelectionTree FieldTree)
  | long (kind : OperationKind)
    (keyword : { t : Token // t.kind = .keyword (keywordOf kind) }) (name : Option NameToken)
    (definitions : Option DefinitionsTree) (selection : SelectionTree FieldTree)

namespace OperationTree

def tokens : OperationTree → List Token
  | short selection => selection.tokens FieldTree.tokens
  | long _ keyword name definitions selection =>
    keyword.1 :: (perhaps (fun n => [n.1]) name ++
      (perhaps DefinitionsTree.tokens definitions ++ selection.tokens FieldTree.tokens))

def operation : OperationTree → Operation
  | short selection => ⟨.query, none, [], selection.items.map FieldTree.field⟩
  | long kind _ name definitions selection =>
    ⟨kind, name.map (·.1.text), definitionsOf definitions, selection.items.map FieldTree.field⟩

end OperationTree

/-- A document is a sequence of operations, which may be empty. -/
structure DocumentTree where
  operations : List OperationTree

namespace DocumentTree

def tokens (d : DocumentTree) : List Token := d.operations.flatMap OperationTree.tokens

def document (d : DocumentTree) : Document := ⟨d.operations.map OperationTree.operation⟩

end DocumentTree

/-- The derivations of a sequence of tokens. -/
abbrev Derivation (ts : List Token) := { d : DocumentTree // d.tokens = ts }

/-! ## Trees are phrases -/

theorem each_flatMap {R : List Token → α → Prop} {tokens : τ → List Token} {meaning : τ → α}
    {trees : List τ} (h : ∀ t ∈ trees, R (tokens t) (meaning t)) :
    Each R (trees.flatMap tokens) (trees.map meaning) := by
  induction trees with
  | nil => exact .nil
  | cons t ts ih =>
    exact .cons (h t List.mem_cons_self) (ih fun u hu => h u (List.mem_cons_of_mem _ hu))

/-- The tokens of a tree for types form the type that it stands for. -/
theorem TypeTree.isType (t : TypeTree) : IsType t.tokens t.type := by
  induction t with
  | named name bang =>
    cases bang with
    | none => exact .named name.2
    | some b => exact .nonNull (.named name.2) rfl b.2
  | list o element c bang ih =>
    have hlist := IsType.list o.2 ih c.2
    cases bang with
    | none => exact hlist
    | some b =>
      have hbang := IsType.nonNull hlist rfl b.2
      simpa [tokens, type, bangTokens, perhaps, bangType] using hbang

theorem EntryTree.isEntry {R : List Token → Value → Prop} {tokens : τ → List Token}
    {value : τ → Value} {e : EntryTree τ} (h : R (tokens e.value) (value e.value)) :
    IsEntry R (e.tokens tokens) (e.entry value) :=
  .mk e.key.2 e.colon.2 h

/-- The tokens of a tree for values form its value, by induction on the tree. -/
theorem ValueTree.isValue {constant : Bool} (v : ValueTree constant) :
    IsValue constant v.tokens v.value := by
  induction v with
  | literal t =>
    rw [tokens, value]
    exact .literal t.ofToken?
  | enum t =>
    rw [tokens, value]
    exact .enum t.2.1 t.2.2
  | var hconstant dollar name =>
    rw [tokens, value]
    exact .var hconstant dollar.2 name.2
  | list items ih =>
    rw [tokens_list, value_list]
    exact .list items.opening.2 (each_flatMap ih) items.closing.2
  | object entries ih =>
    rw [tokens_object, value_object]
    exact .object entries.opening.2 (each_flatMap fun e he => EntryTree.isEntry (ih e he))
      entries.closing.2

theorem ArgumentsTree.areArguments (args : ArgumentsTree) :
    AreArguments args.tokens args.arguments := by
  cases args with
  | none => exact .none
  | some args =>
    refine .some args.opening.2 (each_flatMap fun a _ => ?_) args.closing.2
    exact EntryTree.isEntry a.value.isValue

theorem DirectiveTree.isDirective (d : DirectiveTree) : IsDirective d.tokens d.directive :=
  .mk d.at_.2 d.name.2 d.arguments.areArguments

theorem DirectiveTree.each (dirs : List DirectiveTree) :
    Each IsDirective (dirs.flatMap tokens) (dirs.map directive) :=
  each_flatMap fun d _ => d.isDirective

theorem HeadTree.isHead (h : HeadTree) : IsHead h.tokens h.alias? h.name := by
  obtain ⟨first, _ | ⟨colon, second⟩⟩ := h
  · exact .plain first.2
  · exact .aliased first.2 colon.2 second.2

theorem SelectionTree.isSelection {R : List Token → Field → Prop} {tokens : τ → List Token}
    {field : τ → Field} {s : SelectionTree τ} (h : ∀ f ∈ s.items, R (tokens f) (field f)) :
    IsSelection R (s.tokens tokens) (s.items.map field) :=
  .mk s.opening.2 (each_flatMap h) (List.cons_ne_nil _ _) s.closing.2

/-- The tokens of a tree for fields form its field, by induction on the tree. -/
theorem FieldTree.isField (f : FieldTree) : IsField f.tokens f.field := by
  induction f with
  | leaf head args dirs =>
    rw [tokens, field]
    exact .leaf head.isHead args.areArguments (DirectiveTree.each dirs)
  | branch head args dirs s ih =>
    rw [tokens_eq, field_eq]
    exact .branch head.isHead args.areArguments (DirectiveTree.each dirs)
      (SelectionTree.isSelection ih)

theorem DefinitionTree.isDefinition (d : DefinitionTree) : IsDefinition d.tokens d.definition := by
  obtain ⟨dollar, name, colon, type, _ | ⟨equals, value⟩⟩ := d
  · exact .mk dollar.2 name.2 colon.2 type.isType .none
  · exact .mk dollar.2 name.2 colon.2 type.isType (.some equals.2 value.isValue)

theorem areDefinitions_definitionsOf (d : Option DefinitionsTree) :
    AreDefinitions (perhaps DefinitionsTree.tokens d) (definitionsOf d) := by
  cases d with
  | none => exact .none
  | some d =>
    have hnodup : ((d.group.items.map DefinitionTree.definition).map (·.name)).Nodup := by
      rw [List.map_map]
      exact d.nodup
    exact .some d.group.opening.2 (each_flatMap fun d _ => d.isDefinition) hnodup d.group.closing.2

theorem isOptionalName_perhaps (name : Option NameToken) :
    IsOptionalName (perhaps (fun n => [n.1]) name) (name.map (·.1.text)) := by
  cases name with
  | none => exact .none
  | some n => exact .some n.2

/-- The tokens of a tree for operations form its operation. -/
theorem OperationTree.isOperation (o : OperationTree) : IsOperation o.tokens o.operation := by
  cases o with
  | short selection => exact .short (SelectionTree.isSelection fun f _ => f.isField)
  | long kind keyword name definitions selection =>
    exact .long keyword.2 (isOptionalName_perhaps name) (areDefinitions_definitionsOf definitions)
      (SelectionTree.isSelection fun f _ => f.isField)

/-- A derivation is a proof that its tokens form its document. -/
theorem DocumentTree.isDocument (d : DocumentTree) : IsDocument d.tokens d.document :=
  each_flatMap fun o _ => o.isOperation

end Grammar

end QueryBatch
