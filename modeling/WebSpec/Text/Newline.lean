/-!
# Line ends

A file may end its lines with a line feed, with a carriage return, or with both in that order.
Reading it makes all of them line feeds.
-/

namespace WebSpec.Text

/-- The characters with a line feed for each line end. -/
def unifyNewlines : List Char → List Char
  | [] => []
  | '\r' :: '\n' :: rest => '\n' :: unifyNewlines rest
  | '\r' :: rest => '\n' :: unifyNewlines rest
  | c :: rest => c :: unifyNewlines rest

end WebSpec.Text
