import QueryBatch.Document.Literal
import QueryBatch.Document.OfTokens

/-!
# The grammar of documents

Each phrase of the language is a relation between the tokens of a phrase and what it stands for.
Main statements:

* `Grammar.IsValue.starts`, `Grammar.IsField.starts`, `Grammar.IsOperation.starts`: the kinds of the
  tokens with which phrases start.
-/

namespace QueryBatch

/-- Whether null is excluded from a type by a mark at its end. -/
def TypeRef.isNonNull : TypeRef → Bool
  | nonNull _ => true
  | _ => false

namespace Grammar

variable {α : Type}

/-- Phrases of a kind, one after the other. -/
inductive Each (R : List Token → α → Prop) : List Token → List α → Prop
  | nil : Each R [] []
  | cons {ts us : List Token} {a : α} {as : List α} (ha : R ts a) (has : Each R us as) :
    Each R (ts ++ us) (a :: as)

inductive IsType : List Token → TypeRef → Prop
  | named {t : Token} (ht : t.kind.isName = true) : IsType [t] (.named t.text)
  | list {o c : Token} {ts : List Token} {element : TypeRef}
    (ho : o.kind = .punctuator .bracketOpen) (h : IsType ts element)
    (hc : c.kind = .punctuator .bracketClose) : IsType (o :: (ts ++ [c])) (.list element)
  | nonNull {b : Token} {ts : List Token} {inner : TypeRef} (h : IsType ts inner)
    (hinner : inner.isNonNull = false) (hb : b.kind = .punctuator .bang) :
    IsType (ts ++ [b]) (.nonNull inner)

/-- A name, a colon and a value. -/
inductive IsEntry (R : List Token → Value → Prop) : List Token → String × Value → Prop
  | mk {k c : Token} {ts : List Token} {v : Value} (hk : k.kind.isName = true)
    (hc : c.kind = .punctuator .colon) (hv : R ts v) : IsEntry R (k :: c :: ts) (k.text, v)

/-- A value; where it must be constant, it has no variable. -/
inductive IsValue (constant : Bool) : List Token → Value → Prop
  | literal {t : Token} {v : Value} (h : Literal.ofToken? t = some ⟨v, []⟩) :
    IsValue constant [t] v
  | enum {t : Token} (ht : t.kind.isName = true) (hliteral : Literal.ofToken? t = none) :
    IsValue constant [t] (.enum t.text)
  | var {d n : Token} (hconstant : constant = false) (hd : d.kind = .punctuator .dollar)
    (hn : n.kind.isName = true) : IsValue constant [d, n] (.var n.text)
  | list {o c : Token} {ts : List Token} {items : List Value}
    (ho : o.kind = .punctuator .bracketOpen) (h : Each (IsValue constant) ts items)
    (hc : c.kind = .punctuator .bracketClose) : IsValue constant (o :: (ts ++ [c])) (.list items)
  | object {o c : Token} {ts : List Token} {entries : List (String × Value)}
    (ho : o.kind = .punctuator .braceOpen) (h : Each (IsEntry (IsValue constant)) ts entries)
    (hc : c.kind = .punctuator .braceClose) : IsValue constant (o :: (ts ++ [c])) (.object entries)

def IsArgument (ts : List Token) (a : Argument) : Prop :=
  IsEntry (IsValue false) ts (a.name, a.value)

/-- Arguments in parentheses, or nothing. -/
inductive AreArguments : List Token → List Argument → Prop
  | none : AreArguments [] []
  | some {o c : Token} {ts : List Token} {args : List Argument}
    (ho : o.kind = .punctuator .parenOpen) (h : Each IsArgument ts args)
    (hc : c.kind = .punctuator .parenClose) : AreArguments (o :: (ts ++ [c])) args

inductive IsDirective : List Token → Directive → Prop
  | mk {a n : Token} {ts : List Token} {args : List Argument} (ha : a.kind = .punctuator .at)
    (hn : n.kind.isName = true) (hargs : AreArguments ts args) :
    IsDirective (a :: n :: ts) ⟨n.text, args⟩

/-- The name of a field, perhaps behind an alias and a colon. -/
inductive IsHead : List Token → Option String → String → Prop
  | plain {n : Token} (hn : n.kind.isName = true) : IsHead [n] none n.text
  | aliased {a c n : Token} (ha : a.kind.isName = true) (hc : c.kind = .punctuator .colon)
    (hn : n.kind.isName = true) : IsHead [a, c, n] (some a.text) n.text

/-- Fields in braces, of which there is one. -/
inductive IsSelection (R : List Token → Field → Prop) : List Token → List Field → Prop
  | mk {o c : Token} {ts : List Token} {fields : List Field}
    (ho : o.kind = .punctuator .braceOpen) (h : Each R ts fields) (hne : fields ≠ [])
    (hc : c.kind = .punctuator .braceClose) : IsSelection R (o :: (ts ++ [c])) fields

inductive IsField : List Token → Field → Prop
  | leaf {ts us vs : List Token} {alias? : Option String} {name : String} {args : List Argument}
    {dirs : List Directive} (hhead : IsHead ts alias? name) (hargs : AreArguments us args)
    (hdirs : Each IsDirective vs dirs) :
    IsField (ts ++ (us ++ vs)) ⟨alias?, name, args, dirs, none⟩
  | branch {ts us vs ws : List Token} {alias? : Option String} {name : String}
    {args : List Argument} {dirs : List Directive} {fields : List Field}
    (hhead : IsHead ts alias? name) (hargs : AreArguments us args)
    (hdirs : Each IsDirective vs dirs) (hsel : IsSelection IsField ws fields) :
    IsField (ts ++ (us ++ (vs ++ ws))) ⟨alias?, name, args, dirs, some fields⟩

/-- A constant value behind an equals sign, or nothing. -/
inductive IsDefault : List Token → Option Value → Prop
  | none : IsDefault [] none
  | some {e : Token} {ts : List Token} {v : Value} (he : e.kind = .punctuator .equals)
    (hv : IsValue true ts v) : IsDefault (e :: ts) (some v)

inductive IsDefinition : List Token → VariableDefinition → Prop
  | mk {d n c : Token} {ts us : List Token} {t : TypeRef} {default : Option Value}
    (hd : d.kind = .punctuator .dollar) (hn : n.kind.isName = true)
    (hc : c.kind = .punctuator .colon) (ht : IsType ts t) (hdefault : IsDefault us default) :
    IsDefinition (d :: n :: c :: (ts ++ us)) ⟨n.text, t, default⟩

/-- Definitions with different names in parentheses, or nothing. -/
inductive AreDefinitions : List Token → List VariableDefinition → Prop
  | none : AreDefinitions [] []
  | some {o c : Token} {ts : List Token} {vs : List VariableDefinition}
    (ho : o.kind = .punctuator .parenOpen) (h : Each IsDefinition ts vs)
    (hnodup : (vs.map (·.name)).Nodup) (hc : c.kind = .punctuator .parenClose) :
    AreDefinitions (o :: (ts ++ [c])) vs

/-- A name, or nothing. -/
inductive IsOptionalName : List Token → Option String → Prop
  | none : IsOptionalName [] none
  | some {n : Token} (hn : n.kind.isName = true) : IsOptionalName [n] (some n.text)

/-- The keyword with which an operation of a kind starts. -/
def keywordOf : OperationKind → Keyword
  | .query => .query
  | .mutation => .mutation
  | .subscription => .subscription

inductive IsOperation : List Token → Operation → Prop
  | short {ts : List Token} {fields : List Field} (hsel : IsSelection IsField ts fields) :
    IsOperation ts ⟨.query, none, [], fields⟩
  | long {k : Token} {kind : OperationKind} {ts us vs : List Token} {name : Option String}
    {definitions : List VariableDefinition} {fields : List Field}
    (hk : k.kind = .keyword (keywordOf kind)) (hname : IsOptionalName ts name)
    (hdefs : AreDefinitions us definitions) (hsel : IsSelection IsField vs fields) :
    IsOperation (k :: (ts ++ (us ++ vs))) ⟨kind, name, definitions, fields⟩

def IsDocument (ts : List Token) (d : Document) : Prop := Each IsOperation ts d.operations

/-! ## How phrases start -/

/-- The first of some tokens is of a kind that passes a test. -/
def StartsWith (test : Kind → Prop) (ts : List Token) : Prop := ∃ t us, ts = t :: us ∧ test t.kind

namespace StartsWith

variable {test test' : Kind → Prop} {ts : List Token}

theorem imp (h : StartsWith test ts) (himp : ∀ kind, test kind → test' kind) :
    StartsWith test' ts := by
  obtain ⟨t, us, hts, ht⟩ := h
  exact ⟨t, us, hts, himp t.kind ht⟩

theorem append (h : StartsWith test ts) (rest : List Token) : StartsWith test (ts ++ rest) := by
  obtain ⟨t, us, rfl, ht⟩ := h
  exact ⟨t, us ++ rest, rfl, ht⟩

theorem headKind (h : StartsWith test ts) (rest : List Token) :
    test (Production.headKind (ts ++ rest)) := by
  obtain ⟨t, us, rfl, ht⟩ := h
  exact ht

theorem length_pos (h : StartsWith test ts) : 0 < ts.length := by
  obtain ⟨t, us, rfl, -⟩ := h
  exact Nat.succ_pos us.length

end StartsWith

/-- A value starts with no punctuator but a dollar sign or an opening bracket. -/
def startsValue (kind : Kind) : Bool :=
  match kind with
  | .punctuator mark => mark == .dollar || mark == .bracketOpen || mark == .braceOpen
  | _ => true

theorem startsValue_of_ne {kind : Kind} (h : ∀ mark, kind ≠ .punctuator mark) :
    startsValue kind = true := by
  cases kind with
  | punctuator mark => exact absurd rfl (h mark)
  | _ => rfl

theorem IsValue.starts {constant : Bool} {ts : List Token} {v : Value} (h : IsValue constant ts v) :
    StartsWith (startsValue · = true) ts := by
  cases h with
  | literal h =>
    refine ⟨_, _, rfl, startsValue_of_ne fun mark hmark => ?_⟩
    rw [Literal.ofToken?_of_punctuator hmark] at h
    cases h
  | enum ht =>
    refine ⟨_, _, rfl, startsValue_of_ne fun mark hmark => ?_⟩
    rw [hmark] at ht
    cases ht
  | var _ hd => exact ⟨_, _, rfl, by rw [hd]; rfl⟩
  | list ho => exact ⟨_, _, rfl, by rw [ho]; rfl⟩
  | object ho => exact ⟨_, _, rfl, by rw [ho]; rfl⟩

theorem IsEntry.starts {R : List Token → Value → Prop} {ts : List Token} {e : String × Value}
    (h : IsEntry R ts e) : StartsWith (·.isName = true) ts := by
  cases h with
  | mk hk => exact ⟨_, _, rfl, hk⟩

theorem IsDirective.starts {ts : List Token} {d : Directive} (h : IsDirective ts d) :
    StartsWith (· = .punctuator .at) ts := by
  cases h with
  | mk ha => exact ⟨_, _, rfl, ha⟩

theorem IsHead.starts {ts : List Token} {alias? : Option String} {name : String}
    (h : IsHead ts alias? name) : StartsWith (·.isName = true) ts := by
  cases h with
  | plain hn => exact ⟨_, _, rfl, hn⟩
  | aliased ha => exact ⟨_, _, rfl, ha⟩

theorem IsField.starts {ts : List Token} {f : Field} (h : IsField ts f) :
    StartsWith (·.isName = true) ts := by
  cases h with
  | leaf hhead => exact hhead.starts.append _
  | branch hhead => exact hhead.starts.append _

theorem IsDefinition.starts {ts : List Token} {v : VariableDefinition} (h : IsDefinition ts v) :
    StartsWith (· = .punctuator .dollar) ts := by
  cases h with
  | mk hd => exact ⟨_, _, rfl, hd⟩

theorem IsSelection.starts {R : List Token → Field → Prop} {ts : List Token} {fs : List Field}
    (h : IsSelection R ts fs) : StartsWith (· = .punctuator .braceOpen) ts := by
  cases h with
  | mk ho => exact ⟨_, _, rfl, ho⟩

theorem IsOperation.starts {ts : List Token} {op : Operation} (h : IsOperation ts op) :
    StartsWith (Production.startsOperation · = true) ts := by
  cases h with
  | short hsel => exact hsel.starts.imp fun _ hkind => by rw [hkind]; rfl
  | @long _ kind _ _ _ _ _ _ hk =>
    refine ⟨_, _, rfl, ?_⟩
    rw [hk]
    cases kind <;> rfl

end Grammar

end QueryBatch
