import QueryBatch.Document.Printer
import QueryBatch.Proofs.Binary64.Layout
import QueryBatch.Proofs.Token.Literal
import QueryBatch.Proofs.Token.Spells

/-!
# The tokens of a printed document

Main statements:

* `Value.spells`, `Field.spells`, `Operation.spells`: the text of a phrase is a sequence of tokens
  that does not depend on the style in which it is written;
* `Document.spellings_text`: so the layout of a printed document carries no meaning.
-/

namespace QueryBatch

open Text

namespace Value

mutual

/-- The tokens of the text of a value. -/
def spellings : Value → List Spelling
  | var name => [.mark .dollar, .word name]
  | int value => [⟨.int, toString value.toInt⟩]
  | float value => [⟨.float, documentNumbers.text value⟩]
  | string text => [⟨.string, quotedText text⟩]
  | boolean value => [.word (if value then "true" else "false")]
  | null => [.word "null"]
  | enum name => [.word name]
  | list items => .mark .bracketOpen :: (spellingsOfItems items ++ [.mark .bracketClose])
  | object entries => .mark .braceOpen :: (spellingsOfEntries entries ++ [.mark .braceClose])

def spellingsOfItems : List Value → List Spelling
  | [] => []
  | v :: vs => v.spellings ++ spellingsOfItems vs

def spellingsOfEntries : List (String × Value) → List Spelling
  | [] => []
  | (key, v) :: es => (.word key :: .mark .colon :: v.spellings) ++ spellingsOfEntries es

end

mutual

/-- Whether all names in a value are names of the language, and all its floating point numbers are
finite. -/
def isSpellable : Value → Bool
  | var name => isWord name
  | float value => value.isFinite
  | enum name => isWord name
  | list items => areSpellable items
  | object entries => areEntriesSpellable entries
  | _ => true

def areSpellable : List Value → Bool
  | [] => true
  | v :: vs => v.isSpellable && areSpellable vs

def areEntriesSpellable : List (String × Value) → Bool
  | [] => true
  | (key, v) :: es => isWord key && v.isSpellable && areEntriesSpellable es

end

/-! ## Literals -/

/-- The numeral of a natural number. -/
def naturalNumeral (n : Nat) : NumeralParts := ⟨Nat.toDigits 10 n, [], none⟩

theorem text_naturalNumeral (n : Nat) : (naturalNumeral n).text = Nat.toDigits 10 n := by
  simp [naturalNumeral, NumeralParts.text, NumeralParts.fractionText, NumeralParts.exponentText]

/-- The digits of a number are a numeral without fraction and exponent. -/
theorem proper_naturalNumeral (n : Nat) : (naturalNumeral n).Proper where
  whole_ne_nil := Nat.toDigits_ne_nil
  whole _ hc := Nat.isDigit_of_mem_toDigits (by decide) (by decide) hc
  fraction _ hc := absurd hc List.not_mem_nil
  exponent := by rintro _ _ ⟨⟩

/-- An integer is written as one token, with its sign. -/
theorem spells_integer (n : Int) : Spells (toString n) [⟨.int, toString n⟩] := by
  intro rest hrest
  cases n with
  | ofNat k =>
    rw [toString_ofNat, ← text_naturalNumeral, String.toList_ofList]
    exact spellings_numeral (proper_naturalNumeral k) hrest
  | negSucc k =>
    rw [toString_negSucc, ← text_naturalNumeral, String.toList_ofList]
    exact spellings_minus_numeral (proper_naturalNumeral (k + 1)) hrest

/-- Numbers are always written with a fraction or an exponent, so that they are no integers. -/
theorem kind_numeral (l : Binary64.Layout) (d : Decimal) : (l.numeral d).kind = .float :=
  if_neg (l.fractional_numeral d)

/-- A finite number is written as one token. -/
theorem spells_float {x : Binary64} (h : x.isFinite = true) (l : Binary64.Layout) :
    Spells (l.text x) [⟨.float, l.text x⟩] := by
  intro rest hrest
  cases x with
  | nan => cases h
  | infinite s => cases h
  | finite s m e hcan =>
    have hproper := l.proper_numeral (Binary64.shortest l.tie m e)
    rw [Binary64.Layout.text, Binary64.Layout.finiteText, String.toList_ofList,
      ← l.text_numeral, ← kind_numeral l (Binary64.shortest l.tie m e)]
    cases s with
    | true => exact spellings_minus_numeral hproper hrest
    | false => exact spellings_numeral hproper hrest

/-- A string is written as one token, whatever its characters. -/
theorem spells_string (text : String) : Spells (quotedText text) [⟨.string, quotedText text⟩] := by
  intro rest hrest
  have hquote : rest.head? ≠ some '"' := fun hhead => (hrest '"' hhead).2.2 rfl
  rw [quotedText, String.toList_ofList]
  exact spellings_quoted text.toList hquote

/-! ## Values -/

mutual

/-- The text of a value has the tokens of the value, by induction on the value. -/
theorem spells {v : Value} (h : v.isSpellable = true) : Spells v.text v.spellings := by
  cases v with
  | var name =>
    rw [text, spellings]
    exact .mark '$' rfl (by decide) (.word h)
  | int value => exact spells_integer value.toInt
  | float value => exact spells_float h documentNumbers
  | string text => exact spells_string text
  | boolean value => cases value <;> exact .word (by decide)
  | null => exact .word (by decide)
  | enum name => exact .word h
  | list items =>
    rw [text, spellings, String.append_assoc]
    exact .mark '[' rfl (by decide)
      (.append (spells_items h).commas (.of_last rfl rfl) (.lastMark ']' rfl (by decide)))
  | object entries =>
    rw [text, spellings, String.append_assoc]
    exact .mark '{' rfl (by decide)
      (.append (spells_entries h).commas (.of_last rfl rfl) (.lastMark '}' rfl (by decide)))

theorem spells_items {vs : List Value} (h : areSpellable vs = true) :
    SpellsEach (itemTexts vs) (spellingsOfItems vs) := by
  cases vs with
  | nil => exact .nil
  | cons v vs =>
    obtain ⟨hv, hvs⟩ := Bool.and_eq_true_iff.1 h
    exact .cons (spells hv) (spells_items hvs)

theorem spells_entries {es : List (String × Value)} (h : areEntriesSpellable es = true) :
    SpellsEach (entryTexts es) (spellingsOfEntries es) := by
  match es, h with
  | [], _ => exact .nil
  | (key, v) :: es, h =>
    obtain ⟨hentry, hes⟩ := Bool.and_eq_true_iff.1 h
    obtain ⟨hkey, hv⟩ := Bool.and_eq_true_iff.1 hentry
    refine .cons ?_ (spells_entries hes)
    rw [String.append_assoc]
    exact .append (.word hkey) (.of_head rfl rfl _) (.mark ':' rfl (by decide) (spells hv))

end

end Value

/-! ## Arguments and directives -/

namespace Argument

def spellings (a : Argument) : List Spelling := .word a.name :: .mark .colon :: a.value.spellings

/-- The tokens of arguments in parentheses, or none. -/
def listSpellings (args : List Argument) : List Spelling := parenthesized spellings args

def isSpellable (a : Argument) : Bool := isWord a.name && a.value.isSpellable

/-- An argument is a name, a colon and a value. -/
theorem spells {a : Argument} (h : a.isSpellable = true) : Spells a.text a.spellings := by
  obtain ⟨hname, hvalue⟩ := Bool.and_eq_true_iff.1 h
  rw [text, String.append_assoc]
  exact .append (.word hname) (.of_head rfl rfl _) (.mark ':' rfl (by decide) (Value.spells hvalue))

theorem spells_list {args : List Argument} (h : args.all isSpellable = true) :
    Spells (listText args) (listSpellings args) ∧ Opens (listText args) :=
  SpellsEach.parenthesized rfl fun a ha => spells (List.all_eq_true.1 h a ha)

end Argument

namespace Directive

def spellings (d : Directive) : List Spelling :=
  .mark .at :: .word d.name :: Argument.listSpellings d.arguments

def isSpellable (d : Directive) : Bool := isWord d.name && d.arguments.all (·.isSpellable)

theorem spells {d : Directive} (h : d.isSpellable = true) :
    Spells d.text d.spellings ∧ Opens d.text := by
  obtain ⟨hname, hargs⟩ := Bool.and_eq_true_iff.1 h
  obtain ⟨hspells, hopens⟩ := Argument.spells_list hargs
  rw [text, String.append_assoc]
  exact ⟨.mark '@' rfl (by decide) (.append (.word hname) hopens hspells), .of_head rfl rfl _⟩

/-- Directives need no separators, since each starts with a mark. -/
theorem spells_join {ds : List Directive} (h : ds.all isSpellable = true) :
    Spells (String.join (ds.map text)) (ds.flatMap spellings) ∧
      Opens (String.join (ds.map text)) := by
  have hd : ∀ d ∈ ds, Spells d.text d.spellings ∧ Opens d.text :=
    fun d hd => spells (List.all_eq_true.1 h d hd)
  refine (SpellsEach.map fun d hmem => (hd d hmem).1).join fun t ht => ?_
  obtain ⟨d, hmem, rfl⟩ := List.mem_map.1 ht
  exact (hd d hmem).2

end Directive

/-! ## Fields -/

namespace Style

variable (style : Style)

/-- Between fields there are only characters that stand for nothing. -/
theorem blank_gap (depth : Nat) : ∀ c ∈ (style.gap depth).toList, isIgnored c = true := by
  cases style with
  | compact =>
    exact List.all_eq_true.1 (by decide : " ".toList.all isIgnored = true)
  | indented width =>
    intro c hc
    rw [gap, String.toList_append] at hc
    rcases List.mem_append.1 hc with hc | hc
    · obtain rfl := List.mem_singleton.1 hc
      rfl
    · rw [String.toList_ofList] at hc
      rw [(List.mem_replicate.1 hc).2]
      rfl

/-- A field is never glued to what stands before it. -/
theorem opens_gap (depth : Nat) (more : String) : Opens (style.gap depth ++ more) := by
  cases style with
  | compact =>
    show Opens (" " ++ more)
    exact .of_head rfl rfl _
  | indented width =>
    rw [gap, String.append_assoc]
    exact .of_head rfl rfl _

/-- Between operations there are only characters that stand for nothing. -/
theorem blank_separator : ∀ c ∈ style.separator.toList, isIgnored c = true := by
  cases style with
  | compact =>
    exact List.all_eq_true.1 (by decide : " ".toList.all isIgnored = true)
  | indented width =>
    exact List.all_eq_true.1 (by decide : "\n\n".toList.all isIgnored = true)

theorem opens_separator (more : String) : Opens (style.separator ++ more) := by
  cases style with
  | compact =>
    show Opens (" " ++ more)
    exact .of_head rfl rfl _
  | indented width =>
    show Opens ("\n\n" ++ more)
    exact .of_head rfl rfl _

end Style

namespace Field

/-- The tokens of an alias and its colon, or none. -/
def aliasSpellings : Option String → List Spelling
  | some key => [.word key, .mark .colon]
  | none => []

mutual

def spellings : Field → List Spelling
  | ⟨alias?, name, arguments, directives, selection⟩ =>
    aliasSpellings alias? ++ (.word name :: (Argument.listSpellings arguments ++
      (directives.flatMap Directive.spellings ++ selectionSpellings selection)))

def selectionSpellings : Option (List Field) → List Spelling
  | none => []
  | some fields => .mark .braceOpen :: (spellingsOfFields fields ++ [.mark .braceClose])

def spellingsOfFields : List Field → List Spelling
  | [] => []
  | f :: fs => f.spellings ++ spellingsOfFields fs

end

mutual

/-- Whether all names in a field are names of the language, and all its floating point numbers are
finite. -/
def isSpellable : Field → Bool
  | ⟨alias?, name, arguments, directives, selection⟩ =>
    alias?.all isWord && isWord name && arguments.all (·.isSpellable) &&
      directives.all (·.isSpellable) && isSelectionSpellable selection

def isSelectionSpellable : Option (List Field) → Bool
  | none => true
  | some fields => areSpellable fields

def areSpellable : List Field → Bool
  | [] => true
  | f :: fs => f.isSpellable && areSpellable fs

end

theorem spells_alias {alias? : Option String} {name : String} (h : alias?.all isWord = true)
    (hname : isWord name = true) :
    Spells (aliasText alias? ++ name) (aliasSpellings alias? ++ [.word name]) := by
  cases alias? with
  | none =>
    rw [aliasText, String.empty_append]
    exact .word hname
  | some key =>
    rw [aliasText, String.append_assoc]
    show Spells (key ++ (": " ++ name)) ([.word key] ++ .mark .colon :: [.word name])
    exact .append (.word h) (.of_head rfl rfl _) (.mark ':' rfl (by decide) (.word hname))

mutual

/-- The text of a field has the tokens of the field in every style and at every level. -/
theorem spells {f : Field} (h : f.isSpellable = true) (style : Style) (depth : Nat) :
    Spells (f.text style depth) f.spellings := by
  obtain ⟨alias?, name, arguments, directives, selection⟩ := f
  simp only [isSpellable, Bool.and_eq_true] at h
  obtain ⟨⟨⟨⟨halias, hname⟩, hargs⟩, hdirs⟩, hsel⟩ := h
  obtain ⟨hargs, hopen₁⟩ := Argument.spells_list hargs
  obtain ⟨hdirs, hopen₂⟩ := Directive.spells_join hdirs
  obtain ⟨hsel, hopen₃⟩ := spells_selection hsel style depth
  have htail := hargs.append (hopen₂.append hopen₃) (hdirs.append hopen₃ hsel)
  have hall := (spells_alias halias hname).append (hopen₁.append (hopen₂.append hopen₃)) htail
  simpa only [text, spellings, String.append_assoc, List.append_assoc, List.singleton_append]
    using hall

/-- The braces of a selection are tokens of their own. -/
theorem spells_selection {selection : Option (List Field)}
    (h : isSelectionSpellable selection = true) (style : Style) (depth : Nat) :
    Spells (selectionText style depth selection) (selectionSpellings selection) ∧
      Opens (selectionText style depth selection) := by
  cases selection with
  | none => exact ⟨.empty, .empty⟩
  | some fields =>
    obtain ⟨hfields, -⟩ := spells_fields h style (depth + 1)
    rw [selectionText, String.append_assoc, String.append_assoc]
    refine ⟨.mark '{' rfl (by decide) (hfields.append (style.opens_gap depth _) ?_),
      .of_head rfl rfl _⟩
    exact .blank (style.blank_gap depth) (.lastMark '}' rfl (by decide))

theorem spells_fields {fields : List Field} (h : areSpellable fields = true) (style : Style)
    (depth : Nat) :
    Spells (fieldsText style depth fields) (spellingsOfFields fields) ∧
      Opens (fieldsText style depth fields) := by
  cases fields with
  | nil => exact ⟨.empty, .empty⟩
  | cons f fs =>
    obtain ⟨hf, hfs⟩ := Bool.and_eq_true_iff.1 h
    obtain ⟨hspells, hopens⟩ := spells_fields hfs style depth
    rw [fieldsText, String.append_assoc]
    exact ⟨.blank (style.blank_gap depth) ((spells hf style depth).append hopens hspells),
      style.opens_gap depth _⟩

end

end Field

/-! ## Operations -/

namespace TypeRef

def spellings : TypeRef → List Spelling
  | named name => [.word name]
  | list element => .mark .bracketOpen :: (element.spellings ++ [.mark .bracketClose])
  | nonNull inner => inner.spellings ++ [.mark .bang]

def isSpellable : TypeRef → Bool
  | named name => isWord name
  | list element => element.isSpellable
  | nonNull inner => inner.isSpellable

/-- The marks of a type follow its name without a gap. -/
theorem spells {t : TypeRef} (h : t.isSpellable = true) : Spells t.text t.spellings := by
  induction t with
  | named name => exact .word h
  | list element ih =>
    rw [text, String.append_assoc]
    exact .mark '[' rfl (by decide)
      (.append (ih h) (.of_last rfl rfl) (.lastMark ']' rfl (by decide)))
  | nonNull inner ih =>
    exact .append (ih h) (.of_last rfl rfl) (.lastMark '!' rfl (by decide))

end TypeRef

namespace VariableDefinition

/-- The tokens of a default after its equals sign, or none. -/
def defaultSpellings : Option Value → List Spelling
  | some v => .mark .equals :: v.spellings
  | none => []

def spellings (v : VariableDefinition) : List Spelling :=
  .mark .dollar :: .word v.name :: .mark .colon :: (v.type.spellings ++ defaultSpellings v.default)

/-- The tokens of definitions in parentheses, or none. -/
def listSpellings (vs : List VariableDefinition) : List Spelling := parenthesized spellings vs

def isSpellable (v : VariableDefinition) : Bool :=
  isWord v.name && v.type.isSpellable && v.default.all (·.isSpellable)

theorem spells_default {default : Option Value} (h : default.all (·.isSpellable) = true) :
    Spells (defaultText default) (defaultSpellings default) ∧ Opens (defaultText default) := by
  cases default with
  | none => exact ⟨.empty, .empty⟩
  | some v => exact ⟨.mark '=' rfl (by decide) (Value.spells h), .of_head rfl rfl _⟩

theorem spells {v : VariableDefinition} (h : v.isSpellable = true) :
    Spells v.text v.spellings := by
  simp only [isSpellable, Bool.and_eq_true] at h
  obtain ⟨⟨hname, htype⟩, hdefault⟩ := h
  obtain ⟨hdefault, hopens⟩ := spells_default hdefault
  rw [text, String.append_assoc, String.append_assoc, String.append_assoc]
  exact .mark '$' rfl (by decide) (.append (.word hname) (.of_head rfl rfl _)
    (.mark ':' rfl (by decide) (.append (TypeRef.spells htype) hopens hdefault)))

theorem spells_list {vs : List VariableDefinition} (h : vs.all isSpellable = true) :
    Spells (listText vs) (listSpellings vs) ∧ Opens (listText vs) :=
  SpellsEach.parenthesized rfl fun v hv => spells (List.all_eq_true.1 h v hv)

end VariableDefinition

namespace Operation

def nameSpellings : Option String → List Spelling
  | some name => [.word name]
  | none => []

def spellings (op : Operation) : List Spelling :=
  .word op.kind.text :: (nameSpellings op.name ++
    (VariableDefinition.listSpellings op.definitions ++ Field.selectionSpellings (some op.fields)))

/-- Whether all names in an operation are names of the language, and all its floating point numbers
are finite. -/
def isSpellable (op : Operation) : Bool :=
  op.name.all isWord && op.definitions.all (·.isSpellable) && Field.areSpellable op.fields

theorem isWord_kind (kind : OperationKind) : isWord kind.text = true := by
  cases kind <;> decide

theorem spells_name {name : Option String} (h : name.all isWord = true) :
    Spells (nameText name) (nameSpellings name) ∧ Opens (nameText name) := by
  cases name with
  | none => exact ⟨.empty, .empty⟩
  | some name => exact ⟨.blank (List.all_eq_true.1 (by decide)) (.word h), .of_head rfl rfl _⟩

/-- An operation is written with its kind, also where it could be left out. -/
theorem spells {op : Operation} (h : op.isSpellable = true) (style : Style) :
    Spells (op.text style) op.spellings := by
  simp only [isSpellable, Bool.and_eq_true] at h
  obtain ⟨⟨hname, hdefs⟩, hfields⟩ := h
  obtain ⟨hname, hopen₁⟩ := spells_name hname
  obtain ⟨hdefs, hopen₂⟩ := VariableDefinition.spells_list hdefs
  have hfields : Field.isSelectionSpellable (some op.fields) = true := hfields
  obtain ⟨hsel, hopen₃⟩ := Field.spells_selection hfields style 0
  rw [text, String.append_assoc, String.append_assoc]
  exact .append (.word (isWord_kind op.kind)) (hopen₁.append (hopen₂.append hopen₃))
    (hname.append (hopen₂.append hopen₃) (hdefs.append hopen₃ hsel))

end Operation

namespace Document

def spellings (d : Document) : List Spelling := d.operations.flatMap Operation.spellings

/-- Whether all names in a document are names of the language, and all its floating point numbers
are finite. -/
def isSpellable (d : Document) : Bool := d.operations.all (·.isSpellable)

/-- The tokens of a printed document do not depend on its style. -/
theorem spellings_text {d : Document} (h : d.isSpellable = true) (style : Style) :
    (tokenize (d.text style)).map Token.spelling = d.spellings := by
  have heach : SpellsEach (d.operations.map (·.text style)) d.spellings :=
    .map fun op hop => Operation.spells (List.all_eq_true.1 h op hop) style
  have hall := heach.intercalate style.blank_separator style.opens_separator [] closes_nil
  rwa [List.append_nil, spellings_nil, List.append_nil, ← map_spelling_tokenize] at hall

end Document

end QueryBatch
