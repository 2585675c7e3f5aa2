import QueryBatch.Proofs.Token.Spelling

/-!
# Texts and their spellings

A text spells some tokens if these are its tokens wherever a text follows that closes the last of
them. Main statements:

* `Spells.append`: two texts in sequence spell what each of them does, if the second opens with a
  character that closes the first;
* `SpellsEach.intercalate`: texts with commas between them spell what each of them does.
-/

namespace QueryBatch

/-- The tokens of a text, whatever closes it. -/
def Spells (text : String) (ss : List Spelling) : Prop :=
  ∀ rest, Closes rest → spellings (text.toList ++ rest) = ss ++ spellings rest

/-- A text that closes what stands before it, if that is not left to what follows. -/
def Opens (text : String) : Prop := ∀ rest, Closes rest → Closes (text.toList ++ rest)

/-- Whether a character can be no more of a word, a number or a string. -/
def isClosing (c : Char) : Bool := !isNameChar c && c != '.' && c != '"'

theorem closes_cons {c : Char} (h : isClosing c = true) (cs : List Char) : Closes (c :: cs) := by
  rintro _ ⟨⟩
  simpa [isClosing, and_assoc] using h

theorem closes_nil : Closes [] := by
  rintro _ ⟨⟩

namespace Opens

theorem empty : Opens "" := fun _ h => h

/-- A text opens if its first character closes a lexeme. -/
theorem of_head {text : String} {c : Char} (h : text.toList.head? = some c)
    (hc : isClosing c = true) (more : String) : Opens (text ++ more) := by
  intro rest _
  obtain ⟨cs, hcs⟩ := List.head?_eq_some_iff.1 h
  rw [String.toList_append, hcs]
  exact closes_cons hc _

theorem of_last {text : String} {c : Char} (h : text.toList.head? = some c)
    (hc : isClosing c = true) : Opens text := by
  have happend := of_head h hc ""
  rwa [String.append_empty] at happend

theorem append {s t : String} (hs : Opens s) (ht : Opens t) : Opens (s ++ t) := by
  intro rest hrest
  rw [String.toList_append, List.append_assoc]
  exact hs _ (ht rest hrest)

end Opens

theorem spellings_blanks {bs : List Char} (h : ∀ c ∈ bs, isIgnored c = true) (rest : List Char) :
    spellings (bs ++ rest) = spellings rest := by
  induction bs with
  | nil => rfl
  | cons b bs ih =>
    rw [List.cons_append, spellings_ignored (h b List.mem_cons_self),
      ih fun c hc => h c (List.mem_cons_of_mem _ hc)]

/-- A punctuator may have blanks around it. -/
theorem spellings_padded {cs : List Char} {c : Char} {m : Punctuator}
    (hm : Punctuator.ofChar? c = some m) (h : cs.filter (!isIgnored ·) = [c]) (rest : List Char) :
    spellings (cs ++ rest) = .mark m :: spellings rest := by
  induction cs with
  | nil => cases h
  | cons b bs ih =>
    by_cases hb : isIgnored b = true
    · rw [List.cons_append, spellings_ignored hb]
      exact ih (by simpa [hb] using h)
    · rw [List.filter_cons_of_pos (by simpa using hb)] at h
      obtain ⟨rfl, hbs⟩ := List.cons.inj h
      have hblank : ∀ x ∈ bs, isIgnored x = true := by
        simpa using List.filter_eq_nil_iff.1 hbs
      rw [List.cons_append, spellings_mark hm, spellings_blanks hblank]

namespace Spells

variable {s t : String} {ss ts : List Spelling}

theorem empty : Spells "" [] := fun _ _ => rfl

theorem append (hs : Spells s ss) (hopen : Opens t) (ht : Spells t ts) :
    Spells (s ++ t) (ss ++ ts) := by
  intro rest hrest
  rw [String.toList_append, List.append_assoc, hs _ (hopen rest hrest), ht rest hrest,
    List.append_assoc]

/-- Nothing but blanks in front of a text. -/
theorem blank {blanks : String} (h : ∀ c ∈ blanks.toList, isIgnored c = true) (ht : Spells t ts) :
    Spells (blanks ++ t) ts := by
  intro rest hrest
  rw [String.toList_append, List.append_assoc, spellings_blanks h, ht rest hrest]

/-- A punctuator, perhaps with blanks around it, in front of a text. -/
theorem mark {m : Punctuator} {padded : String} (c : Char) (hm : Punctuator.ofChar? c = some m)
    (h : padded.toList.filter (!isIgnored ·) = [c]) (ht : Spells t ts) :
    Spells (padded ++ t) (.mark m :: ts) := by
  intro rest hrest
  rw [String.toList_append, List.append_assoc, spellings_padded hm h, ht rest hrest,
    List.cons_append]

/-- A punctuator at the end. -/
theorem lastMark {m : Punctuator} {padded : String} (c : Char) (hm : Punctuator.ofChar? c = some m)
    (h : padded.toList.filter (!isIgnored ·) = [c]) : Spells padded [.mark m] :=
  fun rest _ => spellings_padded hm h rest

theorem word {name : String} (h : isWord name = true) : Spells name [.word name] :=
  fun _ hrest => spellings_word h hrest

end Spells

/-! ## Lists of texts -/

/-- The tokens of a list in parentheses, or none where the list is empty. -/
def parenthesized {α : Type} (spelled : α → List Spelling) (xs : List α) : List Spelling :=
  if xs.isEmpty then [] else .mark .parenOpen :: (xs.flatMap spelled ++ [.mark .parenClose])

/-- Texts that spell some tokens one after the other. -/
inductive SpellsEach : List String → List Spelling → Prop
  | nil : SpellsEach [] []
  | cons {text : String} {texts : List String} {ss ts : List Spelling} (hs : Spells text ss)
    (ht : SpellsEach texts ts) : SpellsEach (text :: texts) (ss ++ ts)

namespace SpellsEach

variable {texts : List String} {ss : List Spelling}

theorem map {α : Type} {text : α → String} {spelled : α → List Spelling} {xs : List α}
    (h : ∀ x ∈ xs, Spells (text x) (spelled x)) :
    SpellsEach (xs.map text) (xs.flatMap spelled) := by
  induction xs with
  | nil => exact .nil
  | cons x xs ih =>
    exact .cons (h x List.mem_cons_self) (ih fun y hy => h y (List.mem_cons_of_mem _ hy))

/-- Blanks and commas that close what stands before them may stand between texts. -/
theorem intercalate {separator : String} (h : SpellsEach texts ss)
    (hblank : ∀ c ∈ separator.toList, isIgnored c = true)
    (hopen : ∀ more, Opens (separator ++ more)) : Spells (separator.intercalate texts) ss := by
  induction h with
  | nil => exact .empty
  | @cons text texts ss ts hs ht ih =>
    cases texts with
    | nil =>
      cases ht
      rw [String.intercalate_singleton, List.append_nil]
      exact hs
    | cons next texts =>
      rw [String.intercalate_cons_cons, String.append_assoc]
      exact hs.append (hopen _) (.blank hblank ih)

theorem commas (h : SpellsEach texts ss) : Spells (", ".intercalate texts) ss :=
  h.intercalate (List.all_eq_true.1 (by decide)) (.of_head rfl rfl)

theorem parenthesized {α : Type} {text : α → String} {spelled : α → List Spelling} {xs : List α}
    {s : String} (hs : s = if xs.isEmpty then "" else "(" ++ ", ".intercalate (xs.map text) ++ ")")
    (h : ∀ x ∈ xs, Spells (text x) (spelled x)) :
    Spells s (parenthesized spelled xs) ∧ Opens s := by
  subst hs
  unfold QueryBatch.parenthesized
  split
  · exact ⟨.empty, .empty⟩
  · rw [String.append_assoc]
    refine ⟨.mark '(' rfl (by decide) ?_, .of_head rfl rfl _⟩
    exact .append (map h).commas (.of_last rfl rfl) (.lastMark ')' rfl (by decide))

/-- Texts of which each closes what stands before it need nothing between them. -/
theorem join (h : SpellsEach texts ss) (hopen : ∀ text ∈ texts, Opens text) :
    Spells (String.join texts) ss ∧ Opens (String.join texts) := by
  induction h with
  | nil => exact ⟨.empty, .empty⟩
  | @cons text texts ss ts hs ht ih =>
    obtain ⟨hspells, hopens⟩ := ih fun t hmem => hopen t (List.mem_cons_of_mem _ hmem)
    rw [String.join_cons]
    exact ⟨hs.append hopens hspells, (hopen text List.mem_cons_self).append hopens⟩

end SpellsEach

end QueryBatch
