import QueryBatch.Proofs.Document.Reading

/-!
# What the grammar allows is read

Main statements:

* `Production.value_apply`, `Production.type_apply`, `Production.selection_apply`: the phrases that
  may be nested are read, whatever follows them;
* `Production.operation_apply`: an operation is read, and only its undeclared variables are
  reported;
* `Document.ofTokens_of_isDocument`, `Document.ofTokens_of_declared`: a document is read without an
  error, and without any report if its variables are declared.
-/

namespace QueryBatch

namespace Production

open Grammar

theorem ne_punctuator_of_isName {kind : Kind} (h : kind.isName = true) (m : Punctuator) :
    kind ≠ .punctuator m := by
  rintro rfl
  cases h

theorem isMark_of_isName {kind : Kind} (h : kind.isName = true) (m : Punctuator) :
    isMark m kind = false := beq_eq_false_iff_ne.2 (ne_punctuator_of_isName h m)

theorem isMark_self {t : Token} {m : Punctuator} (h : t.kind = .punctuator m)
    (rest : List Token) : isMark m (headKind (t :: rest)) = true := by
  rw [headKind, h, isMark, beq_self_eq_true]

/-! ## Types -/

/-- What is read after a type that does not exclude null, where a mark may follow that does. -/
def closeType (t : TypeRef) (rest : List Token) : Reading TypeRef :=
  if headKind rest = .punctuator .bang then ⟨.nonNull t, rest.tail, []⟩ else ⟨t, rest, []⟩

theorem closeType_apply (t : TypeRef) (rest : List Token) :
    (do if (← peek) = .punctuator .bang then do
          advance
          pure (.nonNull t)
        else pure t : Production TypeRef) rest = closeType t rest := by
  rw [peek_bind, closeType]
  split <;> rfl

theorem closeType_of_ne {rest : List Token} (h : headKind rest ≠ .punctuator .bang) (t : TypeRef) :
    closeType t rest = ⟨t, rest, []⟩ := if_neg h

/-- A type is read in front of any rest; a mark that could still follow is taken, too. -/
theorem typeWithin_apply {depth : Nat} {ts : List Token} {t : TypeRef} (h : IsType ts t)
    (hlen : ts.length ≤ depth) (rest : List Token) :
    typeWithin depth (ts ++ rest) =
      if t.isNonNull then ⟨t, rest, []⟩ else closeType t rest := by
  induction depth generalizing ts t rest with
  | zero => cases h <;> simp at hlen
  | succ depth ih =>
    -- A mark at the end is read with the type before it, at the same depth.
    induction h generalizing rest with
    | @named n hn =>
      rw [typeWithin, List.singleton_append, peek_bind, headKind,
        if_neg (ne_punctuator_of_isName hn _), name_bind hn, pure_bind]
      exact closeType_apply _ rest
    | @list o c ts element ho h hc =>
      rw [List.length_cons, List.length_append, List.length_singleton] at hlen
      have hread : typeWithin depth (ts ++ c :: rest) = ⟨element, c :: rest, []⟩ := by
        rw [ih h (by omega), closeType_of_ne (by rw [headKind, hc]; decide), ite_self]
      rw [typeWithin, List.cons_append, peek_bind, headKind, if_pos ho, advance_bind,
        List.tail_cons, List.append_assoc, List.singleton_append, bind_of_eq hread, expect_bind hc,
        pure_bind]
      exact closeType_apply _ rest
    | @nonNull b ts inner h hinner hb ih' =>
      rw [List.length_append, List.length_singleton] at hlen
      rw [List.append_assoc, List.singleton_append, ih' (by omega), hinner,
        if_neg Bool.false_ne_true, closeType, headKind, if_pos hb]
      rfl

theorem type_apply {ts rest : List Token} {t : TypeRef} (h : IsType ts t)
    (hrest : headKind rest ≠ .punctuator .bang) : type (ts ++ rest) = ⟨t, rest, []⟩ := by
  refine nested_apply fun depth hlen => ?_
  rw [typeWithin_apply h hlen, closeType_of_ne hrest, ite_self]

/-! ## Values -/

/-- An entry is read in front of any rest if its value is. -/
theorem entry_apply {p : Production Value} {R : List Token → Value → Prop} {ts rest : List Token}
    {e : String × Value} (h : IsEntry R ts e)
    (hvalue : ∀ us v, R us v → us.length ≤ ts.length → p (us ++ rest) = ⟨v, rest, []⟩) :
    entry p (ts ++ rest) = ⟨e, rest, []⟩ := by
  cases h with
  | @mk k c us v hk hc hv =>
    have hread := hvalue us v hv (by simp; omega)
    simp only [entry, List.cons_append, name_bind hk, expect_bind hc, bind_of_eq hread]
    rfl

theorem IsValue.startsItem {constant : Bool} {ts : List Token} {v : Value}
    (h : IsValue constant ts v) :
    StartsWith (fun kind => isMark .bracketClose kind = false ∧ true = true) ts := by
  refine h.starts.imp fun kind hkind => ⟨beq_eq_false_iff_ne.2 ?_, rfl⟩
  rintro rfl
  cases hkind

theorem IsEntry.startsItem {R : List Token → Value → Prop} {ts : List Token} {e : String × Value}
    (h : IsEntry R ts e) (m : Punctuator) :
    StartsWith (fun kind => isMark m kind = false ∧ true = true) ts :=
  h.starts.imp fun _ hkind => ⟨isMark_of_isName hkind m, rfl⟩

/-- A value is read in front of any rest if its tokens are no more than the levels. -/
theorem valueWithin_apply {constant : Bool} {depth : Nat} {ts : List Token} {v : Value}
    (h : IsValue constant ts v) (hlen : ts.length ≤ depth) (rest : List Token) :
    valueWithin constant depth (ts ++ rest) = ⟨v, rest, []⟩ := by
  induction depth generalizing ts v rest with
  | zero => exact absurd h.starts.length_pos (Nat.not_lt.2 hlen)
  | succ depth ih =>
    cases h with
    | literal h =>
      simp only [valueWithin, current_bind, List.singleton_append, List.head?_cons, h,
        seqRight_apply]
      rfl
    | @enum t ht hliteral =>
      simp only [valueWithin, current_bind, List.singleton_append, List.head?_cons, hliteral]
      cases hk : t.kind with
      | name => rfl
      | keyword k => rfl
      | _ => rw [hk] at ht; cases ht
    | @var d n hconstant hd hn =>
      subst hconstant
      simp only [valueWithin, current_bind, List.cons_append, List.head?_cons,
        Literal.ofToken?_of_punctuator hd, hd, advance_bind, List.tail_cons, name_bind hn,
        Bool.false_eq_true, if_false]
      rfl
    | @list o c us items ho h hc =>
      rw [List.length_cons, List.length_append, List.length_singleton] at hlen
      have hitems := many_of_each (fun _ => true) depth (fun _ _ => IsValue.startsItem)
        (fun ts v rest hv hn _ => ih hv hn rest) h (by omega) (.inr (isMark_self hc rest)) rfl
      simp only [valueWithin, current_bind, List.cons_append, List.head?_cons,
        Literal.ofToken?_of_punctuator ho, ho, advance_bind, List.tail_cons, List.append_assoc,
        List.nil_append, bind_of_eq hitems, expect_bind hc]
      rfl
    | @object o c us entries ho h hc =>
      rw [List.length_cons, List.length_append, List.length_singleton] at hlen
      have hentries := many_of_each (fun _ => true) depth
        (fun _ _ he => IsEntry.startsItem he .braceClose)
        (fun ts e rest he hn _ =>
          entry_apply he fun us v hv hus => ih hv (Nat.le_trans hus hn) rest)
        h (by omega) (.inr (isMark_self hc rest)) rfl
      simp only [valueWithin, current_bind, List.cons_append, List.head?_cons,
        Literal.ofToken?_of_punctuator ho, ho, advance_bind, List.tail_cons, List.append_assoc,
        List.nil_append, bind_of_eq hentries, expect_bind hc]
      rfl

theorem value_apply {constant : Bool} {ts : List Token} {v : Value} (h : IsValue constant ts v)
    (rest : List Token) : value constant (ts ++ rest) = ⟨v, rest, []⟩ :=
  nested_apply fun _ hlen => valueWithin_apply h hlen rest

/-! ## Arguments and directives -/

theorem argument_apply {ts : List Token} {a : Argument} (h : IsArgument ts a) (rest : List Token) :
    argument (ts ++ rest) = ⟨a, rest, []⟩ := by
  have hread : entry (value false) (ts ++ rest) = ⟨(a.name, a.value), rest, []⟩ :=
    entry_apply h fun us v hv _ => value_apply hv rest
  rw [argument, bind_of_eq hread]
  rfl

/-- After no arguments, no parenthesis may follow. -/
theorem arguments_apply {ts : List Token} {args : List Argument} (h : AreArguments ts args)
    {rest : List Token} (hrest : headKind rest ≠ .punctuator .parenOpen) :
    arguments (ts ++ rest) = ⟨args, rest, []⟩ := by
  cases h with
  | none =>
    rw [arguments, List.nil_append, peek_bind, if_neg hrest]
    rfl
  | @some o c us args ho h hc =>
    have hargs := many_of_each (fun _ => true) us.length
      (fun _ _ ha => IsEntry.startsItem ha .parenClose)
      (fun ts a rest ha _ _ => argument_apply ha rest) h (Nat.le_refl _)
      (.inr (isMark_self hc rest)) rfl
    rw [arguments, List.cons_append, peek_bind, headKind, if_pos ho, advance_bind, List.tail_cons,
      List.append_assoc, List.singleton_append, bind_of_eq hargs, expect_bind hc]
    rfl

theorem directive_apply {ts : List Token} {d : Directive} (h : IsDirective ts d)
    {rest : List Token} (hrest : headKind rest ≠ .punctuator .parenOpen) :
    directive (ts ++ rest) = ⟨d, rest, []⟩ := by
  cases h with
  | @mk a n us args ha hn hargs =>
    rw [directive, List.cons_append, advance_bind, List.tail_cons, List.cons_append, name_bind hn,
      bind_of_eq (arguments_apply hargs hrest)]
    rfl

/-- Whether directives end before a token of this kind. -/
def endsDirectives (kind : Kind) : Bool :=
  kind != .punctuator .at && kind != .punctuator .parenOpen

theorem directives_apply {ts : List Token} {ds : List Directive} (h : Each IsDirective ts ds)
    {rest : List Token} (hrest : endsDirectives (headKind rest) = true) :
    directives (ts ++ rest) = ⟨ds, rest, []⟩ := by
  simp only [endsDirectives, Bool.and_eq_true, bne_iff_ne] at hrest
  refine many_of_each (· != .punctuator .parenOpen) ts.length ?_ ?_ h (Nat.le_refl _) ?_ ?_
  · exact fun ts d hd => hd.starts.imp fun kind hkind => by rw [hkind]; exact ⟨rfl, rfl⟩
  · exact fun ts d rest hd _ hok => directive_apply hd (bne_iff_ne.1 hok)
  · cases rest with
    | nil => exact .inl rfl
    | cons t rest => exact .inr (by simpa [isMark] using hrest.1)
  · simpa using hrest.2

/-! ## Selections -/

/-- Whether a field ends before a token of this kind, if nothing is added to it. -/
def endsField (kind : Kind) : Bool :=
  endsDirectives kind && kind != .punctuator .colon && kind != .punctuator .braceOpen

theorem endsField_of_isName {kind : Kind} (h : kind.isName = true) : endsField kind = true := by
  cases kind <;> first | rfl | cases h

theorem headKind_arguments {us rest : List Token} {args : List Argument} (test : Kind → Bool)
    (h : AreArguments us args) (hopen : test (.punctuator .parenOpen) = true)
    (hrest : test (headKind rest) = true) : test (headKind (us ++ rest)) = true := by
  cases h with
  | none => exact hrest
  | some ho => rwa [List.cons_append, headKind, ho]

theorem headKind_directives {vs rest : List Token} {ds : List Directive} (test : Kind → Bool)
    (h : Each IsDirective vs ds) (hat : test (.punctuator .at) = true)
    (hrest : test (headKind rest) = true) : test (headKind (vs ++ rest)) = true := by
  cases h with
  | nil => exact hrest
  | cons hd _ =>
    rwa [List.append_assoc, hd.starts.headKind]

/-- What is read of a field behind its directives. -/
def fieldEnd (selection : Production (List Field)) (f : Field) : Production Field := do
  let fields ← if (← peek) = .punctuator .braceOpen then some <$> selection else pure none
  pure { f with selection := fields }

/-- What is read of a field behind its name. -/
def fieldAfter (selection : Production (List Field)) (alias? : Option String) (name : String) :
    Production Field := do
  let args ← arguments
  let dirs ← directives
  fieldEnd selection ⟨alias?, name, args, dirs, none⟩

/-- A field starts with its name, unless a colon makes this an alias. -/
theorem field_of_head {selection : Production (List Field)} {ts rest : List Token}
    {alias? : Option String} {name : String} (h : IsHead ts alias? name)
    (hrest : headKind rest ≠ .punctuator .colon) :
    field selection (ts ++ rest) = fieldAfter selection alias? name rest := by
  cases h with
  | plain hn =>
    rw [field, List.singleton_append, name_bind hn, peek_bind, if_neg hrest, pure_bind]
    rfl
  | aliased ha hc hn =>
    rw [field, List.cons_append, name_bind ha, peek_bind, List.cons_append, headKind, if_pos hc,
      advance_bind, List.tail_cons, List.singleton_append, name_bind hn, pure_bind]
    rfl

/-- A field is read part by part, each in front of the parts behind it. -/
theorem field_of_parts {selection : Production (List Field)} {ts us vs rest : List Token}
    {alias? : Option String} {name : String} {args : List Argument} {dirs : List Directive}
    (hhead : IsHead ts alias? name) (hargs : AreArguments us args)
    (hdirs : Each IsDirective vs dirs) (hends : endsDirectives (headKind rest) = true)
    (hcolon : headKind rest ≠ .punctuator .colon) :
    field selection (ts ++ (us ++ (vs ++ rest))) =
      fieldEnd selection ⟨alias?, name, args, dirs, none⟩ rest := by
  have hparen : headKind rest ≠ .punctuator .parenOpen := by
    simp only [endsDirectives, Bool.and_eq_true, bne_iff_ne] at hends
    exact hends.2
  have hparen' : headKind (vs ++ rest) ≠ .punctuator .parenOpen := bne_iff_ne.1
    (headKind_directives (· != .punctuator .parenOpen) hdirs rfl (bne_iff_ne.2 hparen))
  have hcolon' : headKind (us ++ (vs ++ rest)) ≠ .punctuator .colon := bne_iff_ne.1
    (headKind_arguments (· != .punctuator .colon) hargs rfl
      (headKind_directives (· != .punctuator .colon) hdirs rfl (bne_iff_ne.2 hcolon)))
  rw [field_of_head hhead hcolon', fieldAfter, bind_of_eq (arguments_apply hargs hparen'),
    bind_of_eq (directives_apply hdirs hends)]

/-- A field is read if its selection is. -/
theorem field_apply {selection : Production (List Field)} {ts rest : List Token} {f : Field}
    (h : IsField ts f)
    (hsel : ∀ us fs, IsSelection IsField us fs → us.length ≤ ts.length →
      selection (us ++ rest) = ⟨fs, rest, []⟩)
    (hrest : endsField (headKind rest) = true) : field selection (ts ++ rest) = ⟨f, rest, []⟩ := by
  cases h with
  | leaf hhead hargs hdirs =>
    simp only [endsField, Bool.and_eq_true, bne_iff_ne] at hrest
    obtain ⟨⟨hends, hcolon⟩, hbrace⟩ := hrest
    rw [List.append_assoc, List.append_assoc, field_of_parts hhead hargs hdirs hends hcolon,
      fieldEnd, peek_bind, if_neg hbrace]
    rfl
  | @branch ts us vs ws alias? name args dirs fields hhead hargs hdirs hfields =>
    have hopen : headKind (ws ++ rest) = .punctuator .braceOpen := hfields.starts.headKind rest
    have hread : selection (ws ++ rest) = ⟨fields, rest, []⟩ := by
      refine hsel ws fields hfields ?_
      simp only [List.length_append]
      omega
    rw [List.append_assoc, List.append_assoc, List.append_assoc,
      field_of_parts hhead hargs hdirs (by rw [hopen]; rfl) (by rw [hopen]; decide), fieldEnd,
      peek_bind, if_pos hopen, bind_of_eq (map_of_eq hread some)]
    rfl

/-- A selection is read in front of any rest if its tokens are no more than the levels. -/
theorem selectionWithin_apply {depth : Nat} {ts : List Token} {fields : List Field}
    (h : IsSelection IsField ts fields) (hlen : ts.length ≤ depth) (rest : List Token) :
    selectionWithin depth (ts ++ rest) = ⟨fields, rest, []⟩ := by
  induction depth generalizing ts fields rest with
  | zero => exact absurd h.starts.length_pos (Nat.not_lt.2 hlen)
  | succ depth ih =>
    cases h with
    | @mk o c us fields ho h hne hc =>
      rw [List.length_cons, List.length_append, List.length_singleton] at hlen
      have hstep : ∀ (kept : List Field) (ts : List Token) (f : Field) (rest : List Token),
          IsField ts f → ts.length ≤ depth → True → endsField (headKind rest) = true →
            selectionStep (selectionWithin depth) kept (ts ++ rest) = ⟨kept ++ [f], rest, []⟩ := by
        intro kept ts f rest hf hn _ hends
        have hsel : ∀ us fs, IsSelection IsField us fs → us.length ≤ ts.length →
            selectionWithin depth (us ++ rest) = ⟨fs, rest, []⟩ :=
          fun us fs hsel hus => ih hsel (Nat.le_trans hus hn) rest
        have hread := field_apply hf hsel hends
        have hspread : headKind (ts ++ rest) ≠ .punctuator .spread :=
          ne_punctuator_of_isName (hf.starts.headKind rest) _
        rw [selectionStep, peek_bind, if_neg hspread, bind_of_eq hread]
        rfl
      have hstart : ∀ (ts : List Token) (f : Field), IsField ts f →
          StartsWith (fun kind => isMark .braceClose kind = false ∧ endsField kind = true) ts :=
        fun ts f hf => hf.starts.imp fun kind hkind =>
          ⟨isMark_of_isName hkind _, endsField_of_isName hkind⟩
      have hfields := iterate_of_each endsField hstart hstep h (by omega)
        (.inr (isMark_self hc rest)) (by rw [headKind, hc]; rfl) [] fun _ _ _ _ => trivial
      have hsome : fields.isEmpty = false := by simpa using hne
      simp only [selectionWithin, List.cons_append, peek_bind, headKind, ho, if_true, advance_bind,
        List.tail_cons, List.append_assoc, List.nil_append, bind_of_eq hfields, expect_bind hc,
        hsome, Bool.false_eq_true, if_false]
      rfl

theorem selection_apply {ts : List Token} {fields : List Field}
    (h : IsSelection IsField ts fields) (rest : List Token) :
    selection (ts ++ rest) = ⟨fields, rest, []⟩ :=
  nested_apply fun _ hlen => selectionWithin_apply h hlen rest

/-! ## Operations -/

/-- Whether a definition ends before a token of this kind, if nothing is added to it. -/
def endsDefinition (kind : Kind) : Bool :=
  kind != .punctuator .bang && kind != .punctuator .equals

/-- A variable is read where neither a default nor a mark follows. -/
theorem definition_apply {ts rest : List Token} {v : VariableDefinition} (h : IsDefinition ts v)
    (hrest : endsDefinition (headKind rest) = true) :
    variableDefinition (ts ++ rest) = ⟨v, rest, []⟩ := by
  simp only [endsDefinition, Bool.and_eq_true, bne_iff_ne] at hrest
  cases h with
  | @mk d n c ts us t default hd hn hc ht hdefault =>
    cases hdefault with
    | none =>
      simp only [variableDefinition, List.cons_append, List.append_nil, expect_bind hd,
        name_bind hn, expect_bind hc, bind_of_eq (type_apply ht hrest.1), peek_bind]
      rw [if_neg hrest.2]
      rfl
    | @some e us v he hv =>
      have hbang : headKind (e :: (us ++ rest)) ≠ .punctuator .bang := by
        rw [headKind, he]
        decide
      have hread : (advance *> some <$> value true) (e :: (us ++ rest)) = ⟨some v, rest, []⟩ := by
        rw [seqRight_apply, advance_bind, List.tail_cons, map_of_eq (value_apply hv rest)]
      simp only [variableDefinition, List.cons_append, List.append_assoc, expect_bind hd,
        name_bind hn, expect_bind hc, bind_of_eq (type_apply ht hbang), peek_bind]
      rw [headKind, if_pos he, bind_of_eq hread]
      rfl

theorem definitions_apply {ts rest : List Token} {vs : List VariableDefinition}
    (h : AreDefinitions ts vs) (hrest : headKind rest ≠ .punctuator .parenOpen) :
    variableDefinitions (ts ++ rest) = ⟨vs, rest, []⟩ := by
  cases h with
  | none =>
    rw [variableDefinitions, List.nil_append, peek_bind, if_neg hrest]
    rfl
  | @some o c us vs ho h hnodup hc =>
    have hstep : ∀ (kept : List VariableDefinition) (ts : List Token) (v : VariableDefinition)
        (rest : List Token), IsDefinition ts v → ts.length ≤ us.length →
          kept.any (·.name == v.name) = false → endsDefinition (headKind rest) = true →
            variableStep kept (ts ++ rest) = ⟨kept ++ [v], rest, []⟩ := by
      intro kept ts v rest hv _ hnew hends
      rw [variableStep, here_bind, bind_of_eq (definition_apply hv hends), hnew,
        if_neg Bool.false_ne_true]
      rfl
    have hstart : ∀ (ts : List Token) (v : VariableDefinition), IsDefinition ts v →
        StartsWith (fun kind => isMark .parenClose kind = false ∧ endsDefinition kind = true) ts :=
      fun ts v hv => hv.starts.imp fun kind hkind => by rw [hkind]; exact ⟨rfl, rfl⟩
    have hnew : ∀ before v after, vs = before ++ v :: after →
        ([] ++ before).any (·.name == v.name) = false := by
      rintro before v after rfl
      rw [List.map_append, List.map_cons, List.nodup_append] at hnodup
      simp only [List.nil_append, List.any_eq_false, beq_iff_eq]
      exact fun w hw => hnodup.2.2 _ (List.mem_map_of_mem hw) _ List.mem_cons_self
    have hread := iterate_of_each endsDefinition hstart hstep h (Nat.le_refl _)
      (.inr (isMark_self hc rest)) (by rw [headKind, hc]; rfl) [] hnew
    rw [variableDefinitions, List.cons_append, peek_bind, headKind, if_pos ho, advance_bind,
      List.tail_cons, List.append_assoc, List.singleton_append, bind_of_eq hread, expect_bind hc]
    rfl

theorem optionalName_apply {ts rest : List Token} {name? : Option String}
    (h : IsOptionalName ts name?) (hrest : (headKind rest).isName = false) :
    optionalName (ts ++ rest) = ⟨name?, rest, []⟩ := by
  cases h with
  | none =>
    rw [optionalName, List.nil_append, peek_bind, hrest, if_neg Bool.false_ne_true]
    rfl
  | some hn =>
    rw [optionalName, List.singleton_append, peek_bind, headKind, if_pos hn,
      map_of_eq (name_apply hn rest)]

theorem operationKind_keywordOf (kind : OperationKind) :
    operationKind (.keyword (keywordOf kind)) = kind := by
  cases kind <;> rfl

theorem plainOperation_of_braceOpen {ts : List Token}
    (h : headKind ts = .punctuator .braceOpen) :
    plainOperation ts = (Operation.mk .query none [] <$> selection) ts := by
  rw [plainOperation, peek_bind, if_pos h, map_eq_pure_bind]

theorem plainOperation_of_parts {k : Token} {kind : OperationKind} {ts us rest : List Token}
    {name? : Option String} {definitions : List VariableDefinition}
    (hk : k.kind = .keyword (keywordOf kind)) (hname : IsOptionalName ts name?)
    (hdefs : AreDefinitions us definitions) (hopen : headKind rest = .punctuator .braceOpen) :
    plainOperation (k :: (ts ++ (us ++ rest))) =
      (Operation.mk kind name? definitions <$> selection) rest := by
  have hopen' : (headKind (us ++ rest)).isName = false := by
    cases hdefs with
    | none => rw [List.nil_append, hopen]; rfl
    | some ho => rw [List.cons_append, headKind, ho]; rfl
  have hkeyword : ¬ k.kind = .punctuator .braceOpen := by
    rw [hk]
    rintro ⟨⟩
  have hdirectives : operationDirectives rest = ⟨(), rest, []⟩ := by
    rw [operationDirectives, peek_bind, hopen, if_neg (by decide)]
    rfl
  rw [plainOperation, peek_bind, headKind, if_neg hkeyword, advance_bind, List.tail_cons,
    bind_of_eq (optionalName_apply hname hopen'),
    bind_of_eq (definitions_apply hdefs (by rw [hopen]; decide)), bind_of_eq hdirectives, hk,
    operationKind_keywordOf, map_eq_pure_bind]

theorem plainOperation_apply {ts : List Token} {op : Operation} (h : IsOperation ts op)
    (rest : List Token) : plainOperation (ts ++ rest) = ⟨op, rest, []⟩ := by
  cases h with
  | short hsel =>
    rw [plainOperation_of_braceOpen (hsel.starts.headKind rest),
      map_of_eq (selection_apply hsel rest)]
  | @long k kind ts us vs name? definitions fields hk hname hdefs hsel =>
    rw [List.cons_append, List.append_assoc, List.append_assoc,
      plainOperation_of_parts hk hname hdefs (hsel.starts.headKind rest),
      map_of_eq (selection_apply hsel rest)]

/-- The warnings about an operation. -/
def warnings (op : Operation) (span : Option Span) : List Report :=
  op.undeclared.map fun name => ⟨.undeclaredVariable name, span⟩

/-- An operation is read with the warnings about its variables and nothing else. -/
theorem operation_apply {ts : List Token} {op : Operation} (h : IsOperation ts op)
    (rest : List Token) : operation (ts ++ rest) = ⟨op, rest, warnings op (headSpan rest)⟩ := by
  rw [operation, bind_of_eq (plainOperation_apply h rest), bind_apply]
  simp [reportHere, pure_apply, warnings]

/-! ## Documents -/

theorem definitionStep_apply {ts : List Token} {op : Operation} (h : IsOperation ts op)
    (kept : List Operation) (rest : List Token) :
    definitionStep kept (ts ++ rest) = ⟨kept ++ [op], rest, warnings op (headSpan rest)⟩ := by
  rw [definitionStep, peek_bind, if_pos (h.starts.headKind rest), bind_apply,
    operation_apply h rest]
  simp [pure_apply]

/-- What is reported about a document: the undeclared variables of each of its operations. -/
theorem iterate_definitionStep {ts : List Token} {ops : List Operation}
    (h : Each IsOperation ts ops) (kept : List Operation) :
    ∃ reports, iterate (fun _ => false) definitionStep kept ts = ⟨kept ++ ops, [], reports⟩ ∧
      reports.map (·.issue) = ops.flatMap fun op => op.undeclared.map .undeclaredVariable := by
  induction h generalizing kept with
  | nil => exact ⟨[], by rw [iterate_nil, List.append_nil], rfl⟩
  | @cons ts us op ops hop hops ih =>
    obtain ⟨reports, hread, hissues⟩ := ih (kept ++ [op])
    obtain ⟨t, more, rfl, -⟩ := hop.starts
    have hstep := definitionStep_apply hop kept us
    rw [List.cons_append] at hstep
    have hshort : us.length ≤ (more ++ us).length := (List.sublist_append_right more us).length_le
    refine ⟨warnings op (headSpan us) ++ reports, ?_, ?_⟩
    · rw [List.cons_append, iterate_of_step rfl (by rw [hstep]; exact hshort), hstep, hread,
        List.append_assoc]
      rfl
    · rw [List.map_append, hissues, List.flatMap_cons, warnings, List.map_map]
      rfl

end Production

namespace Document

variable {ts : List Token} {d : Document}

/-- The tokens of a document are read as that document. -/
theorem exists_reports_of_isDocument (h : Grammar.IsDocument ts d) :
    ∃ reports, ofTokens ts = ⟨d, [], reports⟩ ∧ reports.map (·.issue) =
      d.operations.flatMap fun op => op.undeclared.map .undeclaredVariable := by
  obtain ⟨reports, hread, hissues⟩ := Production.iterate_definitionStep h []
  refine ⟨reports, ?_, hissues⟩
  rw [ofTokens, Production.document, Production.bind_apply, hread]
  simp [Production.pure_apply]

/-- The tokens of a document are read as that document, and nothing is reported but undeclared
variables. -/
theorem ofTokens_of_isDocument (h : Grammar.IsDocument ts d) :
    ∃ reports, ofTokens ts = ⟨d, [], reports⟩ ∧
      ∀ r ∈ reports, ∃ name, r.issue = .undeclaredVariable name := by
  obtain ⟨reports, hread, hissues⟩ := exists_reports_of_isDocument h
  refine ⟨reports, hread, fun r hr => ?_⟩
  have hissue : r.issue ∈ reports.map (·.issue) := List.mem_map_of_mem hr
  rw [hissues] at hissue
  obtain ⟨op, -, hop⟩ := List.mem_flatMap.1 hissue
  obtain ⟨name, -, hname⟩ := List.mem_map.1 hop
  exact ⟨name, hname.symm⟩

/-- Where every variable is declared, nothing is reported. -/
theorem ofTokens_of_declared (h : Grammar.IsDocument ts d)
    (hdeclared : ∀ op ∈ d.operations, op.undeclared = []) : ofTokens ts = ⟨d, [], []⟩ := by
  obtain ⟨reports, hread, hissues⟩ := exists_reports_of_isDocument h
  have hnone : reports = [] := by
    rw [← List.map_eq_nil_iff, hissues, List.flatMap_eq_nil_iff]
    exact fun op hop => by rw [hdeclared op hop, List.map_nil]
  rw [hread, hnone]

end Document

end QueryBatch
