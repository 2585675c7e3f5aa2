import QueryBatch.Binary64.Rounding

/-!
# Reading floating point numbers

A numeral is an optional sign, then a decimal or one of the words for infinity and the NaN in any
case of letters. Main statement:

* `Binary64.ofText?_of_decimal`: an unsigned decimal is read as the value nearest to it.
-/

namespace QueryBatch.Binary64

open Text

/-- Reads a numeral without its sign. -/
def ofUnsigned? (negative : Bool) (cs : List Char) : Option Binary64 :=
  match decimal? cs with
  | some d => some (ofDecimal negative d)
  | none =>
    let word := String.ofList (cs.map Char.toLower)
    if word = "inf" || word = "infinity" then some (infinite negative)
    else if word = "nan" then some nan
    else none

/-- Reads a numeral. -/
def ofText? (text : String) : Option Binary64 :=
  match text.toList with
  | '-' :: cs => ofUnsigned? true cs
  | '+' :: cs => ofUnsigned? false cs
  | cs => ofUnsigned? false cs

theorem ofText?_of_decimal {cs : List Char} {d : Decimal} (h : decimal? cs = some d)
    (hm : cs.head? ≠ some '-') (hp : cs.head? ≠ some '+') :
    ofText? (String.ofList cs) = some (ofDecimal false d) := by
  unfold ofText?
  rw [String.toList_ofList]
  split
  · simp at hm
  · simp at hp
  · simp [ofUnsigned?, h]

end QueryBatch.Binary64
