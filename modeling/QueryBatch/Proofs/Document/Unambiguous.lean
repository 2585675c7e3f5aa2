import QueryBatch.Proofs.Document.Completeness
import QueryBatch.Proofs.Document.Tree

/-!
# Derivations are unique

The tokens of a phrase tell what its parts are and where it ends, as long as what follows does not
look like more of it. Main statements:

* `Grammar.Delimited.flatMap`: phrases one after the other are told apart by how they start;
* `Grammar.ValueTree.delimited`, `Grammar.FieldTree.delimited`, `Grammar.OperationTree.delimited`:
  the phrases that may be nested, and those made of them;
* `Grammar.DocumentTree.tokens_injective`: a sequence of tokens has at most one derivation.
-/

namespace QueryBatch

namespace Grammar

open Production

variable {τ : Type} {m n : Punctuator} {ends opens : Kind → Prop} {leaves : τ → List Token}

/-- A phrase is told by its tokens from any other phrase, and from what follows it, where a token
follows of a kind that may end it. -/
def Delimited (leaves : τ → List Token) (ends : Kind → Prop) (t : τ) : Prop :=
  ∀ u rest rest', ends (headKind rest) → ends (headKind rest') →
    leaves t ++ rest = leaves u ++ rest' → t = u ∧ rest = rest'

/-! ## Sequences -/

/-- What stands at the start of some phrases is the first one, or else what follows them. -/
theorem headKind_flatMap (test : Kind → Prop) (hstarts : ∀ t, StartsWith opens (leaves t))
    (hnext : ∀ kind, opens kind → test kind) (ts : List τ) {rest : List Token}
    (hrest : test (headKind rest)) : test (headKind (ts.flatMap leaves ++ rest)) := by
  cases ts with
  | nil => exact hrest
  | cons t ts =>
    rw [List.flatMap_cons, List.append_assoc]
    exact hnext _ ((hstarts t).headKind _)

/-- A part that may be missing is a sequence of at most one phrase. -/
theorem perhaps_eq (o : Option τ) : perhaps leaves o = o.toList.flatMap leaves := by
  cases o with
  | none => rfl
  | some t => rw [perhaps, Option.toList_some, List.flatMap_singleton]

/-- Behind a phrase that may be left out there is its start, or what comes next. -/
theorem headKind_perhaps (test : Kind → Prop) (hstarts : ∀ t, StartsWith opens (leaves t))
    (hnext : ∀ kind, opens kind → test kind) (o : Option τ) {rest : List Token}
    (hrest : test (headKind rest)) : test (headKind (perhaps leaves o ++ rest)) := by
  rw [perhaps_eq]
  exact headKind_flatMap test hstarts hnext o.toList hrest

/-- Phrases one after the other, where no phrase starts with what may follow all of them, and each
ends where another one starts. -/
theorem Delimited.flatMap {ts : List τ} (hstarts : ∀ t, StartsWith opens (leaves t))
    (hnext : ∀ kind, opens kind → ends kind) (h : ∀ t ∈ ts, Delimited leaves ends t) :
    Delimited (List.flatMap leaves) (fun kind => ends kind ∧ ¬ opens kind) ts := by
  induction ts with
  | nil =>
    intro us rest rest' hrest _ heq
    cases us with
    | nil => exact ⟨rfl, heq⟩
    | cons u us =>
      rw [List.flatMap_nil, List.nil_append, List.flatMap_cons, List.append_assoc] at heq
      exact absurd (heq ▸ (hstarts u).headKind _) hrest.2
  | cons t ts ih =>
    intro us rest rest' hrest hrest' heq
    cases us with
    | nil =>
      rw [List.flatMap_nil, List.nil_append, List.flatMap_cons, List.append_assoc] at heq
      exact absurd (heq ▸ (hstarts t).headKind _) hrest'.2
    | cons u us =>
      rw [List.flatMap_cons, List.flatMap_cons, List.append_assoc, List.append_assoc] at heq
      obtain ⟨rfl, hmore⟩ := h t List.mem_cons_self u _ _
        (headKind_flatMap ends hstarts hnext ts hrest.1)
        (headKind_flatMap ends hstarts hnext us hrest'.1) heq
      obtain ⟨rfl, hend⟩ := ih (fun t ht => h t (List.mem_cons_of_mem _ ht)) us rest rest' hrest
        hrest' hmore
      exact ⟨rfl, hend⟩

/-- A part that may be missing, where nothing that follows it can be more of it. -/
theorem Delimited.perhaps {o : Option τ} (hstarts : ∀ t, StartsWith opens (leaves t))
    (h : ∀ t ∈ o, Delimited leaves (fun _ => True) t) :
    Delimited (perhaps leaves) (fun kind => ¬ opens kind) o := by
  intro u rest rest' hrest hrest' heq
  rw [perhaps_eq, perhaps_eq] at heq
  obtain ⟨hlist, hend⟩ := Delimited.flatMap hstarts (fun _ _ => trivial)
    (fun t ht => h t (Option.mem_toList.1 ht)) u.toList rest rest' ⟨trivial, hrest⟩
    ⟨trivial, hrest'⟩ heq
  refine ⟨?_, hend⟩
  cases o <;> cases u <;> simp_all

/-! ## Leaves and groups -/

/-- A token that meets a condition is told from what follows it. -/
theorem eq_of_cons {p : Token → Prop} {a b : { t : Token // p t }} {ts us : List Token}
    (h : a.1 :: ts = b.1 :: us) : a = b ∧ ts = us := by
  obtain ⟨hab, hts⟩ := List.cons.inj h
  exact ⟨Subtype.ext hab, hts⟩

theorem delimited_token {p : Token → Prop} (a : { t : Token // p t }) :
    Delimited (fun t : { t : Token // p t } => [t.1]) (fun _ => True) a :=
  fun _ _ _ _ _ heq => eq_of_cons heq

namespace Enclosed

theorem starts (leaves : τ → List Token) (e : Enclosed m n τ) :
    StartsWith (· = .punctuator m) (e.tokens leaves) := ⟨_, _, rfl, e.opening.2⟩

/-- The closing punctuator ends the phrases in a group, so anything may follow it. -/
theorem delimited {e : Enclosed m n τ}
    (hstarts : ∀ t, StartsWith opens (leaves t)) (hnext : ∀ kind, opens kind → ends kind)
    (hends : ends (.punctuator n)) (hclose : ¬ opens (.punctuator n))
    (h : ∀ t ∈ e.items, Delimited leaves ends t) :
    Delimited (Enclosed.tokens leaves) (fun _ => True) e := by
  obtain ⟨o, ts, c⟩ := e
  rintro ⟨o', us, c'⟩ rest rest' - - heq
  simp only [Enclosed.tokens, List.cons_append, List.append_assoc, List.nil_append] at heq
  obtain ⟨rfl, hitems⟩ := eq_of_cons heq
  have hend : ∀ (c : Mark n) (rest : List Token),
      ends (headKind (c.1 :: rest)) ∧ ¬ opens (headKind (c.1 :: rest)) :=
    fun c rest => by rw [headKind, c.2]; exact ⟨hends, hclose⟩
  obtain ⟨rfl, hclosing⟩ := Delimited.flatMap hstarts hnext h us _ _ (hend c rest) (hend c' rest')
    hitems
  obtain ⟨rfl, hrest⟩ := eq_of_cons hclosing
  exact ⟨rfl, hrest⟩

end Enclosed

theorem EntryTree.starts (leaves : τ → List Token) (e : EntryTree τ) :
    StartsWith (·.isName = true) (e.tokens leaves) := ⟨_, _, rfl, e.key.2⟩

theorem EntryTree.delimited {e : EntryTree τ} (h : Delimited leaves ends e.value) :
    Delimited (EntryTree.tokens leaves) ends e := by
  obtain ⟨key, colon, value⟩ := e
  rintro ⟨key', colon', value'⟩ rest rest' hrest hrest' heq
  simp only [EntryTree.tokens, List.cons_append] at heq
  obtain ⟨rfl, hcolon⟩ := eq_of_cons heq
  obtain ⟨rfl, hvalue⟩ := eq_of_cons hcolon
  obtain ⟨rfl, hend⟩ := h value' rest rest' hrest hrest' hvalue
  exact ⟨rfl, hend⟩

theorem SelectionTree.delimited {s : SelectionTree τ}
    (hstarts : ∀ t, StartsWith opens (leaves t)) (hnext : ∀ kind, opens kind → ends kind)
    (hends : ends (.punctuator .braceClose)) (hclose : ¬ opens (.punctuator .braceClose))
    (h : ∀ t ∈ s.items, Delimited leaves ends t) :
    Delimited (SelectionTree.tokens leaves) (fun _ => True) s := by
  obtain ⟨o, first, more, c⟩ := s
  rintro ⟨o', first', more', c'⟩ rest rest' - - heq
  obtain ⟨hgroup, hend⟩ := Enclosed.delimited hstarts hnext hends hclose h
    ⟨o', first' :: more', c'⟩ rest rest' trivial trivial heq
  obtain ⟨rfl, hitems, rfl⟩ := Enclosed.mk.inj hgroup
  obtain ⟨rfl, rfl⟩ := List.cons.inj hitems
  exact ⟨rfl, hend⟩

/-! ## Types -/

theorem delimited_bang (bang : Option (Mark .bang)) :
    Delimited bangTokens (· ≠ .punctuator .bang) bang := by
  have hstarts : ∀ b : Mark .bang, StartsWith (· = .punctuator .bang) [b.1] :=
    fun b => ⟨b.1, [], rfl, b.2⟩
  exact Delimited.perhaps hstarts fun b _ => delimited_token b

theorem ne_of_isName {a b : Token} {m : Punctuator} (ha : a.kind.isName = true)
    (hb : b.kind = .punctuator m) : a ≠ b := by
  rintro rfl
  rw [hb] at ha
  cases ha

/-- A type ends where no mark follows, since the mark belongs to it. -/
theorem TypeTree.delimited (t : TypeTree) :
    Delimited TypeTree.tokens (· ≠ .punctuator .bang) t := by
  induction t with
  | named name bang =>
    intro u rest rest' hrest hrest' heq
    cases u with
    | named name' bang' =>
      simp only [TypeTree.tokens, List.cons_append] at heq
      obtain ⟨rfl, hbang⟩ := eq_of_cons heq
      obtain ⟨rfl, hend⟩ := delimited_bang bang bang' rest rest' hrest hrest' hbang
      exact ⟨rfl, hend⟩
    | list o => exact absurd (List.cons.inj heq).1 (ne_of_isName name.2 o.2)
  | list o element c bang ih =>
    intro u rest rest' hrest hrest' heq
    cases u with
    | named name' => exact absurd (List.cons.inj heq).1.symm (ne_of_isName name'.2 o.2)
    | list o' element' c' bang' =>
      simp only [TypeTree.tokens, List.cons_append, List.append_assoc] at heq
      obtain ⟨rfl, helement⟩ := eq_of_cons heq
      have hclose : ∀ (c : Mark .bracketClose) rest, headKind (c.1 :: rest) ≠ .punctuator .bang :=
        fun c rest => by rw [headKind, c.2]; decide
      obtain ⟨rfl, hclosing⟩ := ih element' _ _ (hclose c _) (hclose c' _) helement
      obtain ⟨rfl, hbang⟩ := eq_of_cons hclosing
      obtain ⟨rfl, hend⟩ := delimited_bang bang bang' rest rest' hrest hrest' hbang
      exact ⟨rfl, hend⟩

/-! ## Values -/

/-- What the first token of a value tells about it. -/
inductive Form
  | literal
  | enum
  | mark (m : Punctuator)

/-- The form of the values that start with a token. -/
def formOf (t : Token) : Form :=
  match Literal.ofToken? t, t.kind with
  | some _, _ => .literal
  | none, .punctuator m => .mark m
  | none, _ => .enum

theorem formOf_mark (a : Mark m) : formOf a.1 = .mark m := by
  rw [formOf, Literal.ofToken?_of_punctuator a.2, a.2]

theorem formOf_enum (a : EnumToken) : formOf a.1 = .enum := by
  have hname := a.2.1
  rw [formOf, a.2.2]
  cases hkind : a.1.kind with
  | punctuator m =>
    rw [hkind] at hname
    cases hname
  | _ => rfl

theorem formOf_literal (a : LiteralToken) : formOf a.token = .literal := by
  rw [formOf, a.ofToken?]

theorem LiteralToken.eq_of_cons {a b : LiteralToken} {ts us : List Token}
    (h : a.token :: ts = b.token :: us) : a = b ∧ ts = us := by
  obtain ⟨token, value, hvalue⟩ := a
  obtain ⟨token', value', hvalue'⟩ := b
  obtain ⟨rfl, hend⟩ := List.cons.inj h
  obtain ⟨rfl, -⟩ := Literal.mk.inj (Option.some.inj (hvalue.symm.trans hvalue'))
  exact ⟨rfl, hend⟩

namespace ValueTree

variable {constant : Bool}

def form : ValueTree constant → Form
  | literal _ => .literal
  | enum _ => .enum
  | var .. => .mark .dollar
  | list _ => .mark .bracketOpen
  | object _ => .mark .braceOpen

/-- The first token tells the form of a value. -/
theorem exists_head (v : ValueTree constant) : ∃ t ts, v.tokens = t :: ts ∧ formOf t = v.form := by
  cases v with
  | literal t => exact ⟨_, _, by rw [tokens], formOf_literal t⟩
  | enum t => exact ⟨_, _, by rw [tokens], formOf_enum t⟩
  | var _ dollar => exact ⟨_, _, by rw [tokens], formOf_mark dollar⟩
  | list items => exact ⟨_, _, tokens_list items, formOf_mark items.opening⟩
  | object entries => exact ⟨_, _, tokens_object entries, formOf_mark entries.opening⟩

/-- Two values with the same tokens have the same form, since their first tokens tell it. -/
theorem form_eq {v w : ValueTree constant} {rest rest' : List Token}
    (h : v.tokens ++ rest = w.tokens ++ rest') : v.form = w.form := by
  obtain ⟨t, ts, hv, ht⟩ := v.exists_head
  obtain ⟨u, us, hw, hu⟩ := w.exists_head
  rw [hv, hw] at h
  obtain ⟨rfl, -⟩ := List.cons.inj h
  rw [← ht, hu]

/-- The first token of a value tells that a value starts. -/
theorem starts (v : ValueTree constant) : StartsWith (startsValue · = true) v.tokens :=
  v.isValue.starts

/-- A value ends where its tokens do, whatever follows. -/
theorem delimited (v : ValueTree constant) : Delimited tokens (fun _ => True) v := by
  induction v with
  | literal t =>
    intro w rest rest' _ _ heq
    have hform := form_eq heq
    cases w with
    | literal t' =>
      rw [tokens, tokens] at heq
      obtain ⟨rfl, hend⟩ := LiteralToken.eq_of_cons heq
      exact ⟨rfl, hend⟩
    | _ => cases hform
  | enum t =>
    intro w rest rest' _ _ heq
    have hform := form_eq heq
    cases w with
    | enum t' =>
      rw [tokens, tokens] at heq
      obtain ⟨rfl, hend⟩ := eq_of_cons heq
      exact ⟨rfl, hend⟩
    | _ => cases hform
  | var hconstant dollar name =>
    intro w rest rest' _ _ heq
    have hform := form_eq heq
    cases w with
    | var _ dollar' name' =>
      rw [tokens, tokens] at heq
      obtain ⟨rfl, hname⟩ := eq_of_cons heq
      obtain ⟨rfl, hend⟩ := eq_of_cons hname
      exact ⟨rfl, hend⟩
    | _ => cases hform
  | list items ih =>
    intro w rest rest' _ _ heq
    have hform := form_eq heq
    cases w with
    | list items' =>
      rw [tokens_list, tokens_list] at heq
      obtain ⟨rfl, hend⟩ := Enclosed.delimited starts (fun _ _ => trivial) trivial (by decide) ih
        items' rest rest' trivial trivial heq
      exact ⟨rfl, hend⟩
    | _ => cases hform
  | object entries ih =>
    intro w rest rest' _ _ heq
    have hform := form_eq heq
    cases w with
    | object entries' =>
      rw [tokens_object, tokens_object] at heq
      obtain ⟨rfl, hend⟩ := Enclosed.delimited (EntryTree.starts tokens) (fun _ _ => trivial)
        trivial (by decide) (fun e he => EntryTree.delimited (ih e he)) entries' rest rest' trivial
        trivial heq
      exact ⟨rfl, hend⟩
    | _ => cases hform

end ValueTree

/-! ## Arguments and directives -/

theorem ArgumentsTree.starts (args : Enclosed .parenOpen .parenClose ArgumentTree) :
    StartsWith (· = .punctuator .parenOpen) (args.tokens ArgumentTree.tokens) :=
  Enclosed.starts ArgumentTree.tokens args

/-- Arguments that are left out end where no parenthesis opens. -/
theorem ArgumentsTree.delimited (args : ArgumentsTree) :
    Delimited ArgumentsTree.tokens (· ≠ .punctuator .parenOpen) args := by
  have hgroup : ∀ group : Enclosed .parenOpen .parenClose ArgumentTree,
      Delimited (Enclosed.tokens ArgumentTree.tokens) (fun _ => True) group :=
    fun group => Enclosed.delimited (EntryTree.starts ValueTree.tokens) (fun _ _ => trivial) trivial
      (by decide) fun a _ => EntryTree.delimited a.value.delimited
  exact Delimited.perhaps ArgumentsTree.starts fun group _ => hgroup group

theorem DirectiveTree.starts (d : DirectiveTree) : StartsWith (· = .punctuator .at) d.tokens :=
  ⟨_, _, rfl, d.at_.2⟩

theorem DirectiveTree.delimited (d : DirectiveTree) :
    Delimited DirectiveTree.tokens (· ≠ .punctuator .parenOpen) d := by
  obtain ⟨at_, name, args⟩ := d
  rintro ⟨at', name', args'⟩ rest rest' hrest hrest' heq
  simp only [DirectiveTree.tokens, List.cons_append] at heq
  obtain ⟨rfl, hname⟩ := eq_of_cons heq
  obtain ⟨rfl, hargs⟩ := eq_of_cons hname
  obtain ⟨rfl, hend⟩ := args.delimited args' rest rest' hrest hrest' hargs
  exact ⟨rfl, hend⟩

/-! ## Fields -/

theorem delimited_second (second : Option (Mark .colon × NameToken)) :
    Delimited (perhaps fun p : Mark .colon × NameToken => [p.1.1, p.2.1])
      (· ≠ .punctuator .colon) second := by
  have hstarts : ∀ p : Mark .colon × NameToken,
      StartsWith (· = .punctuator .colon) [p.1.1, p.2.1] := fun p => ⟨p.1.1, [p.2.1], rfl, p.1.2⟩
  have hpair : ∀ p : Mark .colon × NameToken,
      Delimited (fun p : Mark .colon × NameToken => [p.1.1, p.2.1]) (fun _ => True) p := by
    rintro ⟨colon, name⟩ ⟨colon', name'⟩ rest rest' - - heq
    obtain ⟨rfl, hname⟩ := eq_of_cons heq
    obtain ⟨rfl, hend⟩ := eq_of_cons hname
    exact ⟨rfl, hend⟩
  exact Delimited.perhaps hstarts fun p _ => hpair p

/-- A name is no alias where no colon follows. -/
theorem HeadTree.delimited (h : HeadTree) :
    Delimited HeadTree.tokens (· ≠ .punctuator .colon) h := by
  obtain ⟨first, second⟩ := h
  rintro ⟨first', second'⟩ rest rest' hrest hrest' heq
  simp only [HeadTree.tokens, List.cons_append] at heq
  obtain ⟨rfl, hsecond⟩ := eq_of_cons heq
  obtain ⟨rfl, hend⟩ := delimited_second second second' rest rest' hrest hrest' hsecond
  exact ⟨rfl, hend⟩

namespace FieldTree

theorem starts (f : FieldTree) : StartsWith (·.isName = true) f.tokens := f.isField.starts

theorem starts_selection (s : SelectionTree FieldTree) :
    StartsWith (· = .punctuator .braceOpen) (s.tokens tokens) := ⟨_, _, rfl, s.opening.2⟩

/-- The parts of a field behind its head, and what follows the field. -/
def tail (args : ArgumentsTree) (dirs : List DirectiveTree)
    (sel : Option (SelectionTree FieldTree)) (rest : List Token) : List Token :=
  args.tokens ++ (dirs.flatMap DirectiveTree.tokens ++
    (perhaps (SelectionTree.tokens tokens) sel ++ rest))

/-- Each part of a field ends before the next one, or before what follows the field. -/
theorem tail_ends (args : ArgumentsTree) (dirs : List DirectiveTree)
    (sel : Option (SelectionTree FieldTree)) {rest : List Token}
    (h : endsField (headKind rest) = true) :
    headKind (tail args dirs sel rest) ≠ .punctuator .colon ∧
      headKind (tail none dirs sel rest) ≠ .punctuator .parenOpen ∧
      endsDirectives (headKind (tail none [] sel rest)) = true ∧
      headKind rest ≠ .punctuator .braceOpen := by
  simp only [endsField, Bool.and_eq_true, bne_iff_ne] at h
  obtain ⟨hends, hbrace⟩ := h
  have hsel := headKind_perhaps
    (fun kind => endsDirectives kind = true ∧ kind ≠ .punctuator .colon)
    starts_selection (by rintro _ rfl; decide) sel hends
  have hparen : headKind (tail none [] sel rest) ≠ .punctuator .parenOpen := by
    have hdirs := hsel.1
    simp only [endsDirectives, Bool.and_eq_true, bne_iff_ne] at hdirs
    exact hdirs.2
  have hdirs := headKind_flatMap
    (fun kind => kind ≠ .punctuator .parenOpen ∧ kind ≠ .punctuator .colon)
    DirectiveTree.starts (by rintro _ rfl; decide) dirs ⟨hparen, hsel.2⟩
  have hargs := headKind_perhaps ((· ≠ .punctuator .colon)) ArgumentsTree.starts
    (by rintro _ rfl; decide) args hdirs.2
  exact ⟨hargs, hdirs.1, hsel.1, hbrace⟩

/-- A field is told by its parts if its selection is. -/
theorem delimited_of_selection {f : FieldTree}
    (h : ∀ s ∈ f.selection, Delimited (SelectionTree.tokens tokens) (fun _ => True) s) :
    Delimited tokens (endsField · = true) f := by
  obtain ⟨head, args, dirs, sel⟩ := f
  rintro ⟨head', args', dirs', sel'⟩ rest rest' hrest hrest' heq
  obtain ⟨hcolon, hparen, hdirs, hbrace⟩ := tail_ends args dirs sel hrest
  obtain ⟨hcolon', hparen', hdirs', hbrace'⟩ := tail_ends args' dirs' sel' hrest'
  simp only [endsDirectives, Bool.and_eq_true, bne_iff_ne] at hdirs hdirs'
  simp only [tokens_eq, List.append_assoc] at heq
  obtain ⟨rfl, hargs⟩ := head.delimited head' (tail args dirs sel rest)
    (tail args' dirs' sel' rest') hcolon hcolon' heq
  obtain ⟨rfl, hmore⟩ := args.delimited args' (tail none dirs sel rest) (tail none dirs' sel' rest')
    hparen hparen' hargs
  obtain ⟨rfl, hsel⟩ := Delimited.flatMap DirectiveTree.starts (by rintro _ rfl; decide)
    (fun d _ => d.delimited) dirs' (tail none [] sel rest) (tail none [] sel' rest')
    ⟨hdirs.2, hdirs.1⟩ ⟨hdirs'.2, hdirs'.1⟩ hmore
  obtain ⟨rfl, hend⟩ := Delimited.perhaps starts_selection h sel' rest rest' hbrace hbrace' hsel
  exact ⟨rfl, hend⟩

theorem delimited_selection {s : SelectionTree FieldTree}
    (h : ∀ f ∈ s.items, Delimited tokens (endsField · = true) f) :
    Delimited (SelectionTree.tokens tokens) (fun _ => True) s :=
  SelectionTree.delimited starts (fun _ => endsField_of_isName) rfl (by decide) h

/-- A field ends where no more of a field can start. The induction is on the nested fields. -/
theorem delimited (f : FieldTree) : Delimited tokens (endsField · = true) f := by
  induction f with
  | leaf head args dirs => exact delimited_of_selection fun s hs => by cases hs
  | branch head args dirs s ih =>
    refine delimited_of_selection fun s' hs => ?_
    obtain rfl := Option.some.inj hs
    exact delimited_selection ih

end FieldTree

/-! ## Operations -/

theorem DefinitionTree.starts (d : DefinitionTree) :
    StartsWith (· = .punctuator .dollar) d.tokens := ⟨_, _, rfl, d.dollar.2⟩

/-- The tokens of a value that a variable has by default. -/
def defaultTokens : Option (Mark .equals × ValueTree true) → List Token :=
  perhaps fun p => p.1.1 :: p.2.tokens

theorem starts_default (p : Mark .equals × ValueTree true) :
    StartsWith (· = .punctuator .equals) (p.1.1 :: p.2.tokens) := ⟨_, _, rfl, p.1.2⟩

theorem delimited_default (default : Option (Mark .equals × ValueTree true)) :
    Delimited defaultTokens (· ≠ .punctuator .equals) default := by
  have hpair : ∀ p : Mark .equals × ValueTree true,
      Delimited (fun p : Mark .equals × ValueTree true => p.1.1 :: p.2.tokens) (fun _ => True)
        p := by
    rintro ⟨equals, value⟩ ⟨equals', value'⟩ rest rest' - - heq
    obtain ⟨rfl, hvalue⟩ := eq_of_cons heq
    obtain ⟨rfl, hend⟩ := value.delimited value' rest rest' trivial trivial hvalue
    exact ⟨rfl, hend⟩
  exact Delimited.perhaps starts_default fun p _ => hpair p

theorem DefinitionTree.delimited (d : DefinitionTree) :
    Delimited DefinitionTree.tokens (endsDefinition · = true) d := by
  obtain ⟨dollar, name, colon, type, default⟩ := d
  rintro ⟨dollar', name', colon', type', default'⟩ rest rest' hrest hrest' heq
  simp only [endsDefinition, Bool.and_eq_true, bne_iff_ne] at hrest hrest'
  simp only [DefinitionTree.tokens, List.cons_append, List.append_assoc] at heq
  obtain ⟨rfl, hname⟩ := eq_of_cons heq
  obtain ⟨rfl, hcolon⟩ := eq_of_cons hname
  obtain ⟨rfl, htype⟩ := eq_of_cons hcolon
  have hbang : ∀ default {rest : List Token}, headKind rest ≠ .punctuator .bang →
      headKind (defaultTokens default ++ rest) ≠ .punctuator .bang :=
    headKind_perhaps (· ≠ .punctuator .bang) starts_default (by rintro _ rfl; decide)
  obtain ⟨rfl, hdefault⟩ := type.delimited type' (defaultTokens default ++ rest)
    (defaultTokens default' ++ rest') (hbang default hrest.1) (hbang default' hrest'.1) htype
  obtain ⟨rfl, hend⟩ := delimited_default default default' rest rest' hrest.2 hrest'.2 hdefault
  exact ⟨rfl, hend⟩

theorem DefinitionsTree.starts (d : DefinitionsTree) :
    StartsWith (· = .punctuator .parenOpen) d.tokens :=
  Enclosed.starts DefinitionTree.tokens d.group

theorem DefinitionsTree.delimited (d : DefinitionsTree) :
    Delimited DefinitionsTree.tokens (fun _ => True) d := by
  obtain ⟨group, hnodup⟩ := d
  rintro ⟨group', hnodup'⟩ rest rest' - - heq
  have hnext : ∀ kind, kind = .punctuator .dollar → endsDefinition kind = true := by
    rintro _ rfl
    rfl
  obtain ⟨rfl, hend⟩ := Enclosed.delimited DefinitionTree.starts hnext rfl (by decide)
    (fun d (_ : d ∈ group.items) => d.delimited) group' rest rest' trivial trivial heq
  exact ⟨rfl, hend⟩

namespace OperationTree

theorem starts (o : OperationTree) : StartsWith (startsOperation · = true) o.tokens :=
  o.isOperation.starts

theorem delimited_selection (s : SelectionTree FieldTree) :
    Delimited (SelectionTree.tokens FieldTree.tokens) (fun _ => True) s :=
  FieldTree.delimited_selection fun f _ => f.delimited

/-- The word for an operation tells its kind. -/
theorem keywordOf_injective {kind kind' : OperationKind} (h : keywordOf kind = keywordOf kind') :
    kind = kind' := by
  rw [← operationKind_keywordOf kind, h, operationKind_keywordOf]

theorem ne_of_keyword {k : Keyword} (a : Mark m) (b : { t : Token // t.kind = .keyword k }) :
    a.1 ≠ b.1 := by
  intro hab
  have hkind := congrArg Token.kind hab
  rw [a.2, b.2] at hkind
  cases hkind

theorem headKind_selection (s : SelectionTree FieldTree) (rest : List Token) :
    headKind (s.tokens FieldTree.tokens ++ rest) = .punctuator .braceOpen :=
  (FieldTree.starts_selection s).headKind rest

/-- What follows the name of an operation is no name. -/
theorem not_isName_headKind (defs : Option DefinitionsTree) (s : SelectionTree FieldTree)
    (rest : List Token) : ¬ (headKind (perhaps DefinitionsTree.tokens defs ++
      (s.tokens FieldTree.tokens ++ rest))).isName = true :=
  headKind_perhaps (fun kind => ¬ kind.isName = true) DefinitionsTree.starts
    (by rintro _ rfl; decide) defs (by rw [headKind_selection]; decide)

/-- An operation ends with its selection, whatever follows. -/
theorem delimited (o : OperationTree) : Delimited tokens (fun _ => True) o := by
  cases o with
  | short s =>
    intro p rest rest' _ _ heq
    cases p with
    | short s' =>
      obtain ⟨rfl, hend⟩ := delimited_selection s s' rest rest' trivial trivial heq
      exact ⟨rfl, hend⟩
    | long _ keyword' => exact absurd (List.cons.inj heq).1 (ne_of_keyword s.opening keyword')
  | long kind keyword name defs s =>
    intro p rest rest' _ _ heq
    cases p with
    | short s' => exact absurd (List.cons.inj heq).1.symm (ne_of_keyword s'.opening keyword)
    | long kind' keyword' name' defs' s' =>
      simp only [tokens, List.cons_append, List.append_assoc] at heq
      obtain ⟨hkeyword, hparts⟩ := List.cons.inj heq
      obtain rfl : kind = kind' := keywordOf_injective (Kind.keyword.inj
        (keyword.2.symm.trans ((congrArg Token.kind hkeyword).trans keyword'.2)))
      obtain rfl := Subtype.ext hkeyword
      have hstarts : ∀ n : NameToken, StartsWith (·.isName = true) [n.1] :=
        fun n => ⟨n.1, [], rfl, n.2⟩
      obtain ⟨rfl, hmore⟩ := Delimited.perhaps hstarts (fun n _ => delimited_token n) name' _ _
        (not_isName_headKind defs s rest) (not_isName_headKind defs' s' rest') hparts
      obtain ⟨rfl, hsel⟩ := Delimited.perhaps DefinitionsTree.starts (fun d _ => d.delimited)
        defs' _ _ (by rw [headKind_selection]; decide) (by rw [headKind_selection]; decide) hmore
      obtain ⟨rfl, hend⟩ := delimited_selection s s' rest rest' trivial trivial hsel
      exact ⟨rfl, hend⟩

end OperationTree

/-! ## Documents -/

/-- Tokens have at most one derivation. -/
theorem DocumentTree.tokens_injective {d e : DocumentTree} (h : d.tokens = e.tokens) : d = e := by
  obtain ⟨ops⟩ := d
  obtain ⟨ops'⟩ := e
  have hend : True ∧ ¬ startsOperation (headKind []) = true := ⟨trivial, by decide⟩
  obtain ⟨rfl, -⟩ := Delimited.flatMap OperationTree.starts (fun _ _ => trivial)
    (fun o _ => o.delimited) ops' [] [] hend hend (congrArg (· ++ []) h)
  rfl

instance (ts : List Token) : Subsingleton (Derivation ts) where
  allEq d e := Subtype.ext (DocumentTree.tokens_injective (d.2.trans e.2.symm))

end Grammar

end QueryBatch
