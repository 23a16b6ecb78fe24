/-!
# Print formats

The format of a formatted print is text with one directive `%d` per integer argument.
-/

namespace MiddleEnd.Format

/-- The text before the first directive, and the text after each directive. -/
def split : List Char → List Char × List (List Char)
  | '%' :: 'd' :: cs => ([], (split cs).1 :: (split cs).2)
  | c :: cs => (c :: (split cs).1, (split cs).2)
  | [] => ([], [])

/-- The texts around the directives: one more than there are directives. -/
def pieces (format : String) : List String :=
  let (first, rest) := split format.toList
  .ofList first :: rest.map .ofList

def directiveCount (format : String) : Nat :=
  (pieces format).length - 1

end MiddleEnd.Format
