import QueryBatch.Document.Printer
import QueryBatch.Proofs.Document.Derivation
import QueryBatch.Proofs.Document.Escapes
import QueryBatch.Proofs.Token.Literal
import QueryBatch.Proofs.Token.Tiling

/-!
# What is written for a string is read as that string

Main statements:

* `Cursor.next_of_startsLexeme`: the token that starts with the next character;
* `Cursor.next_quotedText`: what is written for a string is one token, which ends with its quotes;
* `Value.readsBack_iff`: so a string is read back, except that an empty one before a quote opens a
  block string.
-/

namespace QueryBatch

open Text

/-! ## The next token -/

namespace Cursor

theorem next_of_startsLexeme {first : Char} (h : startsLexeme first = true) (offset : Nat)
    (cs : List Char) : (Cursor.mk offset (first :: cs)).next =
      (⟨(scan first cs).kind, String.ofList (first :: cs.take (scan first cs).extra), offset⟩,
        (Cursor.mk offset (first :: cs)).skip ((scan first cs).extra + 1)) := by
  have hgap : (Cursor.mk offset (first :: cs)).skipGap = ⟨offset, first :: cs⟩ := by
    show skip _ (gap false (first :: cs)) = _
    rw [gap_of_startsLexeme h]
    rfl
  rw [next, next?, hgap]
  rfl

/-- The next token, where the lexeme that starts with the next character is known. -/
theorem next_of_scan {first : Char} {more rest : List Char} {kind : Kind}
    (h : startsLexeme first = true) (hscan : scan first (more ++ rest) = ⟨kind, more.length⟩)
    (offset : Nat) : (Cursor.mk offset (first :: more ++ rest)).next =
      (⟨kind, String.ofList (first :: more), offset⟩,
        ⟨offset + utf8Length (first :: more), rest⟩) := by
  rw [List.cons_append, next_of_startsLexeme h, hscan, List.take_left, skip, List.take_succ_cons,
    List.take_left, List.drop_succ_cons, List.drop_left]

theorem next_quotedText {s : String} {rest : List Char}
    (h : s = "" → rest.head? ≠ some '"') (offset : Nat) :
    (Cursor.mk offset ((Value.quotedText s).toList ++ rest)).next =
      (⟨.string, Value.quotedText s, offset⟩,
        ⟨offset + utf8Length (Value.quotedText s).toList, rest⟩) := by
  have hscan : scan '"' (Quoted.encode s.toList ++ ['"'] ++ rest) =
      ⟨.string, (Quoted.encode s.toList ++ ['"']).length⟩ := by
    rw [List.append_assoc, List.length_append]
    exact scanQuoted_encode fun hs => h (String.toList_eq_nil_iff.1 hs)
  have hnext := next_of_scan rfl hscan offset
  rwa [Value.quotedText, String.toList_ofList]

/-- Two quotes before a third one open a block string. -/
theorem kind_next_quotedText_empty (offset : Nat) (more : List Char) :
    (Cursor.mk offset ((Value.quotedText "").toList ++ '"' :: more)).next.1.kind ≠ .string := by
  have hquotes : (Value.quotedText "").toList = ['"', '"'] := by
    simp [Value.quotedText, Quoted.encode]
  rw [hquotes, List.cons_append, next_of_startsLexeme rfl]
  exact kind_scanBlockString more

end Cursor

/-! ## Reading a string back -/

namespace Value

/-- The token that is written for a string. -/
def quotedToken (s : String) : Token := ⟨.string, quotedText s, 0⟩

/-- What is written for a string, with a text behind it, is scanned and read as that string. -/
structure ReadsBack (s rest : String) : Prop where
  /-- The first token is what was written, and the other text is left. -/
  scans : (Cursor.ofSource (quotedText s ++ rest)).next =
    (quotedToken s, ⟨utf8Length (quotedText s).toList, rest.toList⟩)
  spans : (quotedToken s).span.slice (quotedText s ++ rest) = quotedText s
  reads : Literal.ofToken? (quotedToken s) = some ⟨.string s, []⟩ ∧
    ∀ constant more, Production.value constant (quotedToken s :: more) = ⟨.string s, more, []⟩
  /-- The scanner of bytes gives this token too, if all places fit into 32 bits. -/
  bytes : utf8Length (quotedText s ++ rest).toList ≤ UInt32.size - 4 →
    ∃ stop : UInt32, stop.toNat = utf8Length (quotedText s).toList ∧
      Bytes.call (quotedText s ++ rest) 0 = .ok (⟨.string, 0, stop⟩, stop)

theorem next_ofSource_quotedText {s rest : String} (h : s = "" → rest.toList.head? ≠ some '"') :
    (Cursor.ofSource (quotedText s ++ rest)).next =
      (quotedToken s, ⟨utf8Length (quotedText s).toList, rest.toList⟩) := by
  rw [Cursor.ofSource, String.toList_append, Cursor.next_quotedText h, Nat.zero_add]
  rfl

theorem slice_quotedToken (s rest : String) :
    (quotedToken s).span.slice (quotedText s ++ rest) = quotedText s := by
  have hsplit : (quotedText s ++ rest).toList = [] ++ ((quotedText s).toList ++ rest.toList) := by
    rw [String.toList_append, List.nil_append]
  exact (Span.slice_eq hsplit).trans String.ofList_toList

theorem call_quotedText {s rest : String} (h : s = "" → rest.toList.head? ≠ some '"')
    (hfits : utf8Length (quotedText s ++ rest).toList ≤ UInt32.size - 4) :
    ∃ stop : UInt32, stop.toNat = utf8Length (quotedText s).toList ∧
      Bytes.call (quotedText s ++ rest) 0 = .ok (⟨.string, 0, stop⟩, stop) := by
  have hlt : utf8Length (quotedText s).toList < UInt32.size := by
    have hsize : 4 ≤ UInt32.size := by decide
    rw [String.toList_append, utf8Length_append] at hfits
    omega
  refine ⟨.ofNat (utf8Length (quotedText s).toList), UInt32.toNat_ofNat_of_lt' hlt, ?_⟩
  simp only [Bytes.call_eq (Bytes.fits_of_le hfits), Cursor.after, next_ofSource_quotedText h]
  simp [Bytes.ofToken, quotedToken, Token.stop, Token.span, Span.ofLength]

/-- A string is read back, whatever it is and whatever follows, unless it is empty and a quote
follows. `ReadsBack.bytes` is about the scanner of bytes, where its places suffice. -/
theorem readsBack_iff (s rest : String) :
    ReadsBack s rest ↔ (s = "" → rest.toList.head? ≠ some '"') := by
  constructor
  · rintro h rfl hquote
    obtain ⟨more, hmore⟩ := List.head?_eq_some_iff.1 hquote
    have hkind := Cursor.kind_next_quotedText_empty 0 more
    rw [← hmore, ← String.toList_append] at hkind
    exact hkind (congrArg (·.1.kind) h.scans)
  · intro h
    have htoken : Literal.ofToken? (quotedToken s) = some ⟨.string s, []⟩ :=
      Literal.ofToken?_string rfl
    exact ⟨next_ofSource_quotedText h, slice_quotedToken s rest,
      ⟨htoken, Production.value_of_literal htoken⟩, call_quotedText h⟩

end Value

end QueryBatch
