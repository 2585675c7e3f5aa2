/-!
# Byte offsets into a text

A text is a list of characters, and a place in it is the number of UTF-8 bytes before it.
Main statements:

* `utf8Length_append`, `utf8Length_eq_zero`: the number of bytes of a text, piece by piece;
* `splitAtByte?_append`: cutting a text at the length of its first piece gives back the pieces;
* `eq_append_of_splitAtByte?`: a text is cut only between two characters, and nothing is lost;
* `slice?_append`: what is between two places of a text.
-/

namespace QueryBatch.Text

/-- The number of UTF-8 bytes of a text. -/
def utf8Length : List Char → Nat
  | [] => 0
  | c :: cs => c.utf8Size + utf8Length cs

/-- The text before and after byte `n`, or `none` where byte `n` is inside a character or past
the end. -/
def splitAtByte? : Nat → List Char → Option (List Char × List Char)
  | 0, cs => some ([], cs)
  | _ + 1, [] => none
  | n + 1, c :: cs =>
    if c.utf8Size ≤ n + 1 then
      (splitAtByte? (n + 1 - c.utf8Size) cs).map fun (before, after) => (c :: before, after)
    else none

@[simp] theorem utf8Length_nil : utf8Length [] = 0 := rfl

@[simp] theorem utf8Length_cons (c : Char) (cs : List Char) :
    utf8Length (c :: cs) = c.utf8Size + utf8Length cs := rfl

@[simp] theorem utf8Length_append (xs ys : List Char) :
    utf8Length (xs ++ ys) = utf8Length xs + utf8Length ys := by
  induction xs with
  | nil => simp
  | cons c cs ih => simp [ih, Nat.add_assoc]

theorem utf8Length_eq_zero {cs : List Char} : utf8Length cs = 0 ↔ cs = [] := by
  cases cs with
  | nil => simp
  | cons c cs => have := Char.utf8Size_pos c; simp; omega

@[simp] theorem splitAtByte?_zero (cs : List Char) : splitAtByte? 0 cs = some ([], cs) := by
  cases cs <;> rfl

theorem splitAtByte?_append (xs ys : List Char) :
    splitAtByte? (utf8Length xs) (xs ++ ys) = some (xs, ys) := by
  induction xs with
  | nil => simp
  | cons c cs ih =>
    have hc := Char.utf8Size_pos c
    obtain ⟨n, hn⟩ : ∃ n, utf8Length (c :: cs) = n + 1 := ⟨utf8Length (c :: cs) - 1, by simp; omega⟩
    have hlen : n + 1 - c.utf8Size = utf8Length cs := by rw [← hn]; simp
    have hle : c.utf8Size ≤ n + 1 := by rw [← hn]; simp
    rw [hn, List.cons_append, splitAtByte?, if_pos hle, hlen, ih]
    rfl

theorem eq_append_of_splitAtByte? {n : Nat} {cs before after : List Char}
    (h : splitAtByte? n cs = some (before, after)) :
    cs = before ++ after ∧ utf8Length before = n := by
  induction cs generalizing n before with
  | nil => cases n <;> simp_all [splitAtByte?]
  | cons c cs ih =>
    cases n with
    | zero => simp_all [splitAtByte?]
    | succ n =>
      rw [splitAtByte?] at h
      split at h
      · rename_i hle
        obtain ⟨⟨b, a⟩, hsplit, hpair⟩ := Option.map_eq_some_iff.1 h
        obtain ⟨rfl, rfl⟩ : c :: b = before ∧ a = after := by simpa using hpair
        obtain ⟨hcs, hb⟩ := ih hsplit
        exact ⟨by simp [← hcs], by simp only [utf8Length_cons]; omega⟩
      · simp at h

/-- The text from byte `start` up to byte `stop`, or `none` where one of them is inside a character
or past the end, or they are in the wrong order. -/
def slice? (start stop : Nat) (cs : List Char) : Option (List Char) :=
  if start ≤ stop then
    (splitAtByte? start cs).bind fun (_, after) =>
      (splitAtByte? (stop - start) after).map fun (covered, _) => covered
  else none

theorem slice?_append (before covered after : List Char) :
    slice? (utf8Length before) (utf8Length before + utf8Length covered)
      (before ++ (covered ++ after)) = some covered := by
  have hstop : utf8Length before + utf8Length covered - utf8Length before = utf8Length covered := by
    omega
  have hcovered := splitAtByte?_append covered after
  rw [slice?, if_pos (Nat.le_add_right ..), splitAtByte?_append, hstop]
  simp [hcovered]

end QueryBatch.Text
