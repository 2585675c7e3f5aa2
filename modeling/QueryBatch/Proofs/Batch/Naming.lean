import QueryBatch.Proofs.Batch.Wire
import QueryBatch.Proofs.Text.Numeral

/-!
# The built-in namings never make names collide

A decimal numeral is told from the text before it if that does not end in a digit, and from the text
behind it if that does not start with one. So the position and the name of a variable can be read
off the name that it is given. Main statements:

* `Naming.injective_indexed`, `Naming.injective_prefixed`: the built-in namings give all copies and
  all their variables different names;
* `Composer.ne_collision_of_injective`: under such a naming, no two names of a composite collide;
* `Composer.builtIn_never_collides`: both together, and that the names are words.
-/

namespace QueryBatch

/-! ## Namings that tell all names apart -/

namespace Naming

open Text

/-- No two copies have the same alias, and no two variables of copies the same name. -/
structure Injective (naming : Naming) : Prop where
  aliasOf : ∀ {i j : Nat}, naming.aliasOf i = naming.aliasOf j → i = j
  variableOf : ∀ {i j : Nat} {m n : String},
    naming.variableOf i m = naming.variableOf j n → i = j ∧ m = n

/-- What stands before the position in a name of the indexed naming. -/
def stem (name : String) : String := name ++ (if endsInLetter name then "" else "_")

/-- A stem ends in a letter if its name does, and in an underscore otherwise. -/
theorem getLast?_stem (name : String) : ∃ c, (stem name).toList.getLast? = some c ∧
    c.isDigit = false ∧ c.isAlpha = endsInLetter name := by
  cases hend : endsInLetter name with
  | true =>
    obtain ⟨c, hc, halpha⟩ := (Option.any_eq_true _ _).1 hend
    refine ⟨c, ?_, isDigit_of_isNameStart (by rw [isNameStart, halpha, Bool.true_or]), halpha⟩
    rw [stem, hend, if_pos rfl, String.append_empty, hc]
  | false =>
    refine ⟨'_', ?_, rfl, rfl⟩
    rw [stem, hend, if_neg Bool.false_ne_true, String.toList_append]
    exact List.getLast?_concat

theorem isDigit_getLast?_stem (name : String) :
    ∀ c ∈ (stem name).toList.getLast?, c.isDigit = false := by
  obtain ⟨c, hlast, hdigit, -⟩ := getLast?_stem name
  rw [hlast]
  rintro d ⟨⟩
  exact hdigit

theorem stem_injective {m n : String} (h : stem m = stem n) : m = n := by
  obtain ⟨c, hm, -, hc⟩ := getLast?_stem m
  obtain ⟨d, hn, -, hd⟩ := getLast?_stem n
  obtain rfl : c = d := Option.some.inj (by rw [← hm, h, hn])
  -- Both names end in a letter, or neither does, so they are continued alike.
  rw [stem, stem, ← hc, ← hd] at h
  have hlist := congrArg String.toList h
  rw [String.toList_append, String.toList_append] at hlist
  exact String.toList_injective (List.append_cancel_right hlist)

theorem injective_indexed : indexed.Injective where
  aliasOf := indexed_alias_injective
  variableOf {i j m n} h := by
    obtain ⟨hstem, hindex⟩ :=
      append_toString_inj (isDigit_getLast?_stem m) (isDigit_getLast?_stem n) h
    exact ⟨hindex, stem_injective hstem⟩

theorem injective_prefixed : prefixed.Injective where
  aliasOf := indexed_alias_injective
  variableOf {i j m n} h := by
    have hunderscore : ∀ name : String, ∀ c ∈ ("_" ++ name).toList.head?, c.isDigit = false := by
      intro name c hc
      rw [String.toList_append] at hc
      obtain rfl := Option.some.inj hc
      rfl
    have hlist : "input".toList ++ (toString i ++ ("_" ++ m)).toList =
        "input".toList ++ (toString j ++ ("_" ++ n)).toList := by
      simpa only [prefixed, String.toList_append, List.append_assoc] using congrArg String.toList h
    obtain ⟨hindex, hname⟩ := toString_append_inj (hunderscore m) (hunderscore n)
      (String.toList_injective (List.append_cancel_left hlist))
    have hname := congrArg String.toList hname
    rw [String.toList_append, String.toList_append] at hname
    exact ⟨hindex, String.toList_injective (List.append_cancel_left hname)⟩

end Naming

/-! ## No collision -/

namespace Composer

variable {κ : Type} {naming : Naming} {template : Operation} {done items : List (BatchItem κ)}

theorem not_aliasTaken (h : naming.Injective) : ¬ AliasTaken naming done := by
  intro htaken
  obtain ⟨i, hi, heq⟩ := List.mem_map.1 htaken
  exact absurd (h.aliasOf heq) (List.mem_range.1 hi).ne

theorem not_variableTaken (h : naming.Injective) {before : List String} {name : String}
    (hname : name ∉ before) : ¬ VariableTaken naming template done before name := by
  intro htaken
  rcases List.mem_append.1 htaken with hcopy | hbefore
  · obtain ⟨i, hi, old, -, heq⟩ := Operation.mem_copiedNames.1 hcopy
    exact absurd (h.variableOf heq).1 hi.ne
  · obtain ⟨old, hold, heq⟩ := List.mem_map.1 hbefore
    exact hname ((h.variableOf heq).2 ▸ hold)

/-- An item is refused for another reason than a collision. -/
theorem ne_collision_of_refusal (h : naming.Injective) (hnodup : template.variableNames.Nodup)
    {item : BatchItem κ} {e : BatchError} (he : Refusal naming template done item e)
    (cause : Collision) : e ≠ .collision cause := by
  cases he with
  | responseKey halias => exact absurd halias (not_aliasTaken h)
  | duplicateItem => rintro ⟨⟩
  | declared _ _ hname =>
    obtain ⟨after, hsplit⟩ := hname.split
    rw [hsplit] at hnodup
    have hnew := fun hmem => (List.nodup_append.1 hnodup).2.2 _ hmem _ List.mem_cons_self rfl
    exact absurd hname.fault (not_variableTaken h hnew)
  | unknownVariable => rintro ⟨⟩

/-- Under an injective naming, a batch of a template whose variables have different names is never
refused because names collide. -/
theorem ne_collision_of_injective [DecidableEq κ] {c : Composer} (h : c.naming.Injective)
    (hnodup : template.variableNames.Nodup) (cause : Collision) :
    c.compose template items ≠ .error (.collision cause) := by
  intro hcompose
  cases compose_eq_error_iff.1 hcompose with
  | refusal _ _ _ _ _ herror => exact ne_collision_of_refusal h hnodup herror cause rfl

/-- The built-in namings give different names to all copies and to all their variables, and words
for words; so names never collide in a batch of a template that declares no variable twice. -/
theorem builtIn_never_collides {naming : Naming} (h : naming = .indexed ∨ naming = .prefixed) :
    naming.Injective ∧ naming.GivesWords ∧
      ∀ {κ : Type} [DecidableEq κ] (config : Config) (template : Operation)
        (items : List (BatchItem κ)), template.variableNames.Nodup →
          ∀ cause, (⟨config, naming⟩ : Composer).compose template items ≠
            .error (.collision cause) := by
  rcases h with rfl | rfl
  · exact ⟨Naming.injective_indexed, Naming.givesWords_indexed, fun config template items hnodup =>
      ne_collision_of_injective Naming.injective_indexed hnodup⟩
  · exact ⟨Naming.injective_prefixed, Naming.givesWords_prefixed,
      fun config template items hnodup =>
        ne_collision_of_injective Naming.injective_prefixed hnodup⟩

/-- A template whose names end in a letter, in a digit and in an underscore. -/
def lookUp : Operation where
  kind := .query
  name := none
  definitions :=
    [⟨"id", .named "ID", none⟩, ⟨"id1", .named "ID", none⟩, ⟨"id1_", .named "ID", none⟩]
  fields := [⟨none, "find", [⟨"a", .var "id"⟩, ⟨"b", .var "id1"⟩, ⟨"c", .var "id1_"⟩], [], none⟩]

/-- The items supply values for variables that the template does not declare, so the batch is
refused, but for another reason. -/
theorem builtIn_never_collides_lookUp :
    lookUp.variableNames.map (Naming.indexed.variableOf 12) = ["id12", "id1_12", "id1__12"] ∧
      lookUp.variableNames.Nodup ∧
      (⟨.standard, .indexed⟩ : Composer).compose lookUp twoAlerts =
        .error (.unknownVariable "x") ∧
      ∀ cause, (⟨.standard, .indexed⟩ : Composer).compose lookUp twoAlerts ≠
        .error (.collision cause) := by
  have hnodup : lookUp.variableNames.Nodup := by decide
  obtain ⟨-, -, hnever⟩ := builtIn_never_collides (.inl rfl : Naming.indexed = .indexed ∨ _)
  exact ⟨by decide, hnodup, rfl, hnever .standard lookUp twoAlerts hnodup⟩

end Composer

end QueryBatch
