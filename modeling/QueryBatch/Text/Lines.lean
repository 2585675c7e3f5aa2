/-!
# Lines of a text

A line ends with a line feed, which may have a carriage return before it. A carriage return alone
ends no line.
-/

namespace QueryBatch.Text

/-- The lines of a text. A line feed ends a line, together with a carriage return right before it;
what follows the last line feed is a line unless it is empty. -/
def lines : List Char → List (List Char)
  | [] => []
  | '\n' :: cs => [] :: lines cs
  | '\r' :: '\n' :: cs => [] :: lines cs
  | c :: cs =>
    match lines cs with
    | [] => [[c]]
    | line :: rest => (c :: line) :: rest

end QueryBatch.Text
