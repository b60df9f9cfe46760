/-!
# Replacing parts of a text

Replaces the parts of a text that a matcher finds, from left to right. A matcher looks at what
follows a place: if a match starts there, it gives the replacement and the length. After a match the
search goes on behind it, so matches do not overlap and replacements are not searched.

`replaceMatches` does this for any matcher whose matches are not empty.
-/

namespace WebSpec.Text

/-- What a matcher finds at a place. -/
structure Match where
  replacement : List Char
  /-- The number of characters that are replaced; at least one. -/
  length : Nat

/-- Finds the match that starts where the given characters do, if there is one. -/
abbrev Matcher := List Char → Option Match

/-- Replaces the matches behind the first `skip` characters, which belong to a match already and are
left out. -/
def replaceMatchesAfter (find? : Matcher) : Nat → List Char → List Char
  | _, [] => []
  | skip + 1, _ :: rest => replaceMatchesAfter find? skip rest
  | 0, c :: rest =>
    match find? (c :: rest) with
    | some m => m.replacement ++ replaceMatchesAfter find? (m.length - 1) rest
    | none => c :: replaceMatchesAfter find? 0 rest

/-- Replaces every match. -/
def replaceMatches (find? : Matcher) (cs : List Char) : List Char :=
  replaceMatchesAfter find? 0 cs

end WebSpec.Text
