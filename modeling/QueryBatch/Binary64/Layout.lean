import QueryBatch.Binary64.Shortest

/-!
# Writing floating point numbers

A `Layout` says which numbers are written with a plain point and which with an exponent.
-/

namespace QueryBatch.Binary64

open Text

/-- A format of finite numbers. Numbers whose first digit stands at a power of ten from `least` to
`greatest` are written without an exponent, and then with at least one digit after the point.
`plus` tells whether an exponent that is not negative has a plus sign. -/
structure Layout where
  least : Int
  greatest : Int
  tie : Tie
  plus : Bool
  deriving DecidableEq, Repr

/-- Writes a decimal with a point and without an exponent. -/
def positional (d : Decimal) : List Char :=
  let ds := d.digits
  if d.leading < 0 then
    '0' :: '.' :: List.replicate (-d.leading - 1).toNat '0' ++ ds
  else
    let whole := d.leading.toNat + 1
    let fraction := ds.drop whole
    ds.take whole ++ List.replicate (whole - ds.length) '0' ++ '.' ::
      (if fraction.isEmpty then ['0'] else fraction)

namespace Layout

/-- Writes an exponent of ten. -/
def exponentText (l : Layout) (e : Int) : List Char :=
  'e' :: (if e < 0 then ['-'] else if l.plus then ['+'] else []) ++ Nat.toDigits 10 e.natAbs

/-- Writes a decimal with one digit before the point and with an exponent. -/
def scientific (l : Layout) (d : Decimal) : List Char :=
  let fraction := d.digits.drop 1
  d.digits.take 1 ++ (if fraction.isEmpty then [] else '.' :: fraction) ++ l.exponentText d.leading

def decimalText (l : Layout) (d : Decimal) : List Char :=
  if d.coefficient = 0 || (l.least ≤ d.leading && d.leading ≤ l.greatest) then positional d
  else l.scientific d

/-- Writes the finite number with the given parts. -/
def finiteText (l : Layout) (negative : Bool) (significand : Nat) (exponent : Int) : List Char :=
  (if negative then ['-'] else []) ++ l.decimalText (shortest l.tie significand exponent)

/-- Writes a number, one that is not finite as a word. -/
def text (l : Layout) : Binary64 → String
  | nan => "NaN"
  | infinite negative => if negative then "-inf" else "inf"
  | finite negative significand exponent _ =>
    String.ofList (l.finiteText negative significand exponent)

end Layout

end QueryBatch.Binary64
