import QueryBatch.Text.Blank
import QueryBatch.Text.Escape
import QueryBatch.Text.Hex

/-!
# String literals

The text between the quotes of a string is a sequence of units: a character that stands for
itself, or an escape. Main statements:

* `units_encodeChar`: the text that is written for a character is one unit, which stands for it;
* `decode_encode`, `faults_encode`: what is written for a string stands for that string, and has
  no fault.
-/

namespace QueryBatch.Quoted

open Text

/-- What is wrong with an escape: `hex` is no character number, or `letter` stands for nothing. -/
inductive Fault
  | notUnicode (hex : String)
  | unknown (letter : Char)
  deriving DecidableEq, Repr

/-! ## Writing -/

/-- The text that stands for a character between quotes. -/
def encodeChar (c : Char) : List Char :=
  match letterOf? c with
  | some letter => ['\\', letter]
  | none =>
    if isControl c then '\\' :: 'u' :: (hexPadded 4 c.toNat).map Char.toUpper else [c]

def encode (cs : List Char) : List Char := cs.flatMap encodeChar

/-! ## Reading -/

/-- The number that follows the letter `u`; a plus sign may take the place of its first digit. -/
def characterNumber? : List Char → Option Nat
  | '+' :: digits => hexNumber? digits
  | digits => hexNumber? digits

/-- The unit of an escape by number, which takes four characters. -/
def numbered (hex : List Char) : Except Fault Char :=
  match (characterNumber? hex).bind scalar? with
  | some c => if hex.length = 4 then .ok c else .error (.notUnicode (String.ofList hex))
  | none => .error (.notUnicode (String.ofList hex))

/-- The unit of an escape by letter. -/
def lettered (letter : Char) : Except Fault Char :=
  match ofLetter? letter with
  | some c => .ok c
  | none => .error (.unknown letter)

/-- The units of a text between quotes. A backslash at its end counts as one before a blank. -/
def units : List Char → List (Except Fault Char)
  | [] => []
  | ['\\'] => [.error (.unknown ' ')]
  | '\\' :: 'u' :: cs => numbered (cs.take 4) :: units (cs.drop 4)
  | '\\' :: letter :: cs => lettered letter :: units cs
  | c :: cs => .ok c :: units cs
termination_by cs => cs.length
decreasing_by all_goals simp [List.length_drop]; try omega

/-- The character for which a unit without a fault stands. -/
def charOf? : Except Fault Char → Option Char
  | .ok c => some c
  | .error _ => none

def faultOf? : Except Fault Char → Option Fault
  | .ok _ => none
  | .error fault => some fault

/-- The characters for which a text between quotes stands; faulty units stand for none. -/
def decode (cs : List Char) : List Char := (units cs).filterMap charOf?

/-- The faults in a text between quotes. -/
def faults (cs : List Char) : List Fault := (units cs).filterMap faultOf?

/-! ## What was written is read back -/

theorem numbered_of_toOption {hex : List Char} {c : Char}
    (h : (numbered hex).toOption = some c) : numbered hex = .ok c := by
  cases hn : numbered hex <;> simp_all [Except.toOption]

theorem escape_of_control : ∀ n < 0xA0, isControl (Char.ofNat n) →
    ((hexPadded 4 n).map Char.toUpper).length = 4 ∧
      (numbered ((hexPadded 4 n).map Char.toUpper)).toOption = some (Char.ofNat n) := by
  decide +kernel

theorem lt_of_isControl {c : Char} (h : isControl c = true) : c.toNat < 0xA0 := by
  simp only [isControl, Bool.or_eq_true, decide_eq_true_eq, Bool.and_eq_true] at h
  omega

theorem units_encodeChar (c : Char) (cs : List Char) :
    units (encodeChar c ++ cs) = .ok c :: units cs := by
  unfold encodeChar
  split
  · rename_i letter h
    obtain ⟨hof, hu⟩ := ofLetter?_letterOf? h
    rw [List.cons_append, List.cons_append, List.nil_append, units.eq_4 _ _ (by simpa using hu)]
    simp [lettered, hof]
  · rename_i h
    split
    · rename_i hc
      obtain ⟨hlen, hnum⟩ := escape_of_control c.toNat (lt_of_isControl hc) (by simpa using hc)
      rw [List.cons_append, List.cons_append, units.eq_3, List.take_left' hlen,
        List.drop_left' hlen, numbered_of_toOption hnum]
      simp
    · have hb : c ≠ '\\' := by rintro rfl; simp [letterOf?] at h
      rw [List.cons_append, List.nil_append,
        units.eq_5 _ _ (fun h => absurd h hb) (fun _ h => absurd h hb) (fun _ _ h => absurd h hb)]

theorem units_encode (cs : List Char) : units (encode cs) = cs.map .ok := by
  induction cs with
  | nil => simp [encode, units]
  | cons c cs ih => simpa [encode, units_encodeChar] using ih

theorem decode_encode (cs : List Char) : decode (encode cs) = cs := by
  simp [decode, units_encode, List.filterMap_map, Function.comp_def, charOf?]

theorem faults_encode (cs : List Char) : faults (encode cs) = [] := by
  simp [faults, units_encode, List.filterMap_map, Function.comp_def, faultOf?]

end QueryBatch.Quoted
