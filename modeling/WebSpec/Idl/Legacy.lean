import WebSpec.Text.Blank
import WebSpec.Text.Replace

/-!
# Legacy constructs

Two constructs of the first edition of the interface language are modernized before a text is
parsed: an array attribute `attribute T[] x` becomes `attribute FrozenArray<T> x`, and a serializer
`serializer = {…}` becomes the default `toJSON` operation. Both are found in the text as it is, with
no regard to its tokens.

`normalize` does both and then applies the transforms that someone asks for, which may be any
functions of a text; `isObsolete` says whether a text has such constructs.
-/

namespace WebSpec.Idl.Legacy

open Text (Match Matcher)

/-- The rest of a text that starts with the given text. -/
def after? (start : String) (cs : List Char) : Option (List Char) :=
  if start.toList.isPrefixOf cs then some (cs.drop start.length) else none

/-- Finds `attribute`, spaces, a word without spaces and opening brackets, and `[]`. -/
def arrayAttribute : Matcher := fun cs => do
  let rest ← after? "attribute" cs
  let spaces := rest.takeWhile (· = ' ')
  let word := (rest.drop spaces.length).takeWhile fun c => c ≠ '[' && c ≠ ' '
  let _ ← after? "[]" (rest.drop (spaces.length + word.length))
  let replacement := "attribute FrozenArray<".toList ++ word ++ ['>']
  let length := "attribute".length + spaces.length + word.length + 2
  if spaces.isEmpty then none else some ⟨replacement, length⟩

/-- Finds `serializer`, an equals sign and a part in braces, with blanks around the sign. -/
def serializer : Matcher := fun cs => do
  let rest ← after? "serializer" cs
  let rest ← after? "=" (rest.dropWhile Text.isBlank)
  let rest ← after? "\x7b" (rest.dropWhile Text.isBlank)
  let rest ← after? "\x7d" (rest.dropWhile (· ≠ '\x7d'))
  some ⟨"[Default] object toJSON()".toList, cs.length - rest.length⟩

/-- Modernizes array attributes. -/
def modernizeArrays (text : String) : String :=
  String.ofList (Text.replaceMatches arrayAttribute text.toList)

/-- Modernizes serializers. -/
def modernizeSerializers (text : String) : String :=
  String.ofList (Text.replaceMatches serializer text.toList)

/-- The text with legacy constructs modernized and then rewritten by the given transforms, in
order. -/
def normalize (text : String) (transforms : List (String → String) := []) : String :=
  transforms.foldl (fun text transform => transform text)
    (modernizeSerializers (modernizeArrays text))

/-- Whether a text has legacy constructs. -/
def isObsolete (text : String) : Bool :=
  normalize text ≠ text

end WebSpec.Idl.Legacy
