/-!
# Escapes by letter

Some characters are written between quotes as a backslash and a letter. Main statement:

* `ofLetter?_letterOf?`: the letter that is written for a character stands for that character.
-/

namespace QueryBatch.Text

/-- The letter that is written after a backslash for a character. -/
def letterOf? : Char → Option Char
  | '"' => some '"'
  | '\\' => some '\\'
  | '\n' => some 'n'
  | '\r' => some 'r'
  | '\t' => some 't'
  | '\x08' => some 'b'
  | '\x0c' => some 'f'
  | _ => none

/-- The character for which a letter stands after a backslash. A slash may be escaped too. -/
def ofLetter? : Char → Option Char
  | '"' => some '"'
  | '\\' => some '\\'
  | '/' => some '/'
  | 'n' => some '\n'
  | 'r' => some '\r'
  | 't' => some '\t'
  | 'b' => some '\x08'
  | 'f' => some '\x0c'
  | _ => none

/-- The character of a number, which is no surrogate. -/
def scalar? (n : Nat) : Option Char := if n.isValidChar then some (Char.ofNat n) else none

theorem ofLetter?_letterOf? {c letter : Char} (h : letterOf? c = some letter) :
    ofLetter? letter = some c ∧ letter ≠ 'u' := by
  unfold letterOf? at h
  split at h <;> simp_all <;> subst h <;> decide

theorem scalar?_toNat (c : Char) : scalar? c.toNat = some c := by
  have hc : c.toNat.isValidChar := c.valid
  simp [scalar?, hc]

end QueryBatch.Text
