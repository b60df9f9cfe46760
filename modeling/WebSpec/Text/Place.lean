/-!
# Places in a text

Where a character stands: lines end with a line feed and with nothing else, lines and columns count
from one, and a column counts characters.

`excerpt` shows a place to a reader: the part of its line that is near, and under it a caret. The
caret's indentation is the width of what stands before the place, where a tab reaches the next
multiple of eight and a carriage return starts the count of columns over.
-/

namespace WebSpec.Text

/-- A line and a column, both counted from one. -/
structure Place where
  line : Nat
  column : Nat
  deriving DecidableEq, Repr

/-- The part of a text after its last line feed. -/
def afterLastNewline (cs : List Char) : List Char :=
  (cs.reverse.takeWhile (· != '\n')).reverse

/-- The place that follows the given characters. -/
def Place.after (cs : List Char) : Place :=
  ⟨cs.count '\n' + 1, (afterLastNewline cs).length + 1⟩

/-- How many characters a text has once every tab is replaced by the spaces that lead to the next
multiple of eight, where `column` characters precede it on its line; a carriage return or line feed
counts as a character and starts a line. -/
def widthWithoutTabs (column : Nat) : List Char → Nat
  | [] => 0
  | c :: cs =>
    if c = '\t' then
      (8 - column % 8) + widthWithoutTabs (column + (8 - column % 8)) cs
    else if c = '\n' || c = '\r' then 1 + widthWithoutTabs 0 cs
    else 1 + widthWithoutTabs (column + 1) cs

/-- How many characters an excerpt takes at most on each side of its place. -/
def excerptReach : Nat := 40

/-- The near part of the line around the character at `offset`, and a caret under it. -/
def excerpt (text : List Char) (offset : Nat) : String :=
  let start := offset - excerptReach
  let before := afterLastNewline ((text.drop start).take (offset - start))
  let after := ((text.drop offset).take excerptReach).takeWhile (· != '\n')
  String.ofList (before ++ after ++ '\n' ::
    (List.replicate (widthWithoutTabs 0 before) ' ' ++ ['^', '\n']))

end WebSpec.Text
