import QueryBatch.Text.Decimal

/-!
# Names of the copies in a batch

A `Naming` gives the copy of the template for the item at a position an alias, and its variables
names of their own. Main statement:

* `Naming.indexed_alias_injective`: two positions have different aliases.
-/

namespace QueryBatch

/-- The alias and the variable names of the copy at a position. -/
structure Naming where
  aliasOf : Nat → String
  variableOf : Nat → String → String

namespace Naming

/-- The alias of the copy at a position in the built-in namings. -/
def numberedAlias (index : Nat) : String := "alias" ++ toString index

/-- Whether a name ends with a letter of the ASCII range. -/
def endsInLetter (name : String) : Bool := name.toList.getLast?.any Char.isAlpha

/-- Puts the position behind a name, and an underscore between them unless the name ends with a
letter. -/
def indexed : Naming where
  aliasOf := numberedAlias
  variableOf index name :=
    name ++ (if endsInLetter name then "" else "_") ++ toString index

/-- Puts the position in front of a name. -/
def prefixed : Naming where
  aliasOf := numberedAlias
  variableOf index name := "input" ++ toString index ++ "_" ++ name

theorem indexed_alias_injective {i j : Nat} (h : indexed.aliasOf i = indexed.aliasOf j) :
    i = j := by
  have h := congrArg String.toList h
  simp only [indexed, numberedAlias, String.toList_append, List.append_cancel_left_eq] at h
  exact Text.toString_injective (String.toList_injective h)

end Naming

end QueryBatch
