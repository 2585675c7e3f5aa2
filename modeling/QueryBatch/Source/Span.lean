import QueryBatch.Text.Offset

/-!
# Spans and positions

A `Span` is a range of byte offsets into a source text, and a `Position` the line and the column
at which a person finds an offset. Main statements:

* `Span.slice_eq`: the slice of a span that covers a piece of the text is that piece;
* `Position.ofOffset?_of_length_le`: an offset past the end has the position of the end.
-/

namespace QueryBatch

open Text

/-- The bytes from `start` up to and without `stop`. -/
structure Span where
  start : Nat
  stop : Nat
  start_le_stop : start ≤ stop := by omega
  deriving DecidableEq, Repr

namespace Span

/-- The span without bytes at `offset`. -/
def empty (offset : Nat) : Span := ⟨offset, offset, Nat.le_refl _⟩

/-- The span of `length` bytes from `start` on. -/
def ofLength (start length : Nat) : Span := ⟨start, start + length, Nat.le_add_right ..⟩

def length (s : Span) : Nat := s.stop - s.start

def isEmpty (s : Span) : Bool := s.start == s.stop

/-- The text that a span covers; nothing where the span leaves the text or cuts a character. -/
def slice (s : Span) (source : String) : String :=
  match splitAtByte? s.start source.toList with
  | none => ""
  | some (_, after) =>
    match splitAtByte? s.length after with
    | none => ""
    | some (covered, _) => String.ofList covered

@[simp] theorem length_ofLength (start length : Nat) : (ofLength start length).length = length := by
  simp [ofLength, Span.length]

theorem slice_eq {source : String} {before covered after : List Char}
    (h : source.toList = before ++ (covered ++ after)) :
    (ofLength (utf8Length before) (utf8Length covered)).slice source = String.ofList covered := by
  have h₁ : splitAtByte? (utf8Length before) source.toList = some (before, covered ++ after) := by
    rw [h, splitAtByte?_append]
  have h₂ := splitAtByte?_append covered after
  simp only [slice, length_ofLength]
  simp [ofLength, h₁, h₂]

end Span

/-- A line and a column, both counted from one; columns count bytes. -/
structure Position where
  line : Nat
  column : Nat
  deriving DecidableEq, Repr

namespace Position

/-- The position right after a text. -/
def after (before : List Char) : Position where
  line := before.count '\n' + 1
  column := utf8Length (before.reverse.takeWhile (· != '\n')) + 1

/-- The position of a byte offset, at the end for every offset past the end. There is none inside
a character. -/
def ofOffset? (source : String) (offset : Nat) : Option Position :=
  (splitAtByte? (min offset (utf8Length source.toList)) source.toList).map fun (before, _) =>
    after before

theorem ofOffset?_of_length_le {source : String} {offset : Nat}
    (h : utf8Length source.toList ≤ offset) :
    ofOffset? source offset = some (after source.toList) := by
  have := splitAtByte?_append source.toList []
  rw [List.append_nil] at this
  simp [ofOffset?, Nat.min_eq_right h, this]

end Position

end QueryBatch
