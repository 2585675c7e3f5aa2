/-!
# Replacement inside a text

Every occurrence of a pattern is replaced, from the left and without overlap.
-/

namespace QueryBatch.Text

/-- Leaves out `skip` characters, and from there on writes `new` for every occurrence of
`pattern`, found from the left without overlap. -/
def replaceAllAfter (pattern new : List Char) : Nat → List Char → List Char
  | _, [] => []
  | skip + 1, _ :: cs => replaceAllAfter pattern new skip cs
  | 0, c :: cs =>
    if pattern.isPrefixOf (c :: cs) then
      new ++ replaceAllAfter pattern new (pattern.length - 1) cs
    else c :: replaceAllAfter pattern new 0 cs

/-- Writes `new` for every occurrence of the non-empty `pattern`. -/
def replaceAll (pattern new cs : List Char) : List Char :=
  replaceAllAfter pattern new 0 cs

end QueryBatch.Text
