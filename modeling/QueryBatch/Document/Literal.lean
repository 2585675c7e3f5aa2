import QueryBatch.Binary64.Numeral
import QueryBatch.Document.Basic
import QueryBatch.Document.BlockString
import QueryBatch.Document.Issue
import QueryBatch.Token.Basic

/-!
# Literals

The value of a literal token, and what is wrong with it. Main statements:

* `int64?_eq_some_iff`: exactly the integers of 64 bits are in range;
* `Literal.ofToken?_of_punctuator`: no punctuator is a literal.
-/

namespace QueryBatch

/-- An integer of 64 bits. -/
def int64? (n : Int) : Option Int64 :=
  if Int64.minValue.toInt ≤ n ∧ n ≤ Int64.maxValue.toInt then some (Int64.ofInt n) else none

theorem int64?_eq_some_iff {n : Int} {i : Int64} : int64? n = some i ↔ i.toInt = n := by
  have hmin : Int64.minValue.toInt = -9223372036854775808 := by decide
  have hmax : Int64.maxValue.toInt = 9223372036854775807 := by decide
  unfold int64?
  constructor
  · intro h
    split at h
    · rename_i hn
      rw [hmin, hmax] at hn
      obtain rfl : Int64.ofInt n = i := by simpa using h
      exact Int64.toInt_ofInt_of_le (by simpa using hn.1) (by simp; omega)
    · simp at h
  · rintro rfl
    have h₁ := Int64.le_toInt i
    have h₂ := Int64.toInt_lt i
    rw [hmin, hmax, if_pos (by simp at h₁ h₂; omega), Int64.ofInt_toInt]

/-- The value of a literal, with the issues that reading it raised. -/
structure Literal where
  value : Value
  issues : List Issue

namespace Literal

/-- The text of a token without the first and the last `count` characters. -/
def inner (count : Nat) (text : String) : List Char :=
  (text.toList.drop count).take (text.toList.length - 2 * count)

/-- The value of an integer literal; zero where it is out of range. -/
def ofInt (text : String) : Literal :=
  match (Text.integer? text.toList).bind int64? with
  | some n => ⟨.int n, []⟩
  | none => ⟨.int 0, [.integerOutOfRange text]⟩

/-- The value of a floating point literal; zero where it is out of range. -/
def ofFloat (text : String) : Literal :=
  match (Binary64.ofText? text).filter Binary64.isFinite with
  | some x => ⟨.float x, []⟩
  | none => ⟨.float (.zero false), [.floatOutOfRange text]⟩

def ofString (text : String) : Literal :=
  let body := inner 1 text
  ⟨.string (String.ofList (Quoted.decode body)), (Quoted.faults body).map .badEscape⟩

def ofBlockString (text : String) : Literal :=
  ⟨.string (String.ofList (BlockString.value (inner 3 text))), []⟩

/-- The value of a token, where it is a literal. -/
def ofToken? (t : Token) : Option Literal :=
  match t.kind with
  | .int => some (ofInt t.text)
  | .float => some (ofFloat t.text)
  | .string => some (ofString t.text)
  | .blockString => some (ofBlockString t.text)
  | .keyword .trueWord => some ⟨.boolean true, []⟩
  | .keyword .falseWord => some ⟨.boolean false, []⟩
  | .keyword .nullWord => some ⟨.null, []⟩
  | _ => none

theorem ofToken?_of_punctuator {t : Token} {mark : Punctuator} (h : t.kind = .punctuator mark) :
    ofToken? t = none := by
  simp [ofToken?, h]

end Literal

end QueryBatch
