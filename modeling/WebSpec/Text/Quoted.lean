import WebSpec.Text.Printable

/-!
# Quoted text

How a text is shown inside a message. It stands between quotes, single ones unless it contains a
single quote and no double quote. The backslash and the quote in use are escaped by a backslash;
line feed, carriage return and tab have their letters; any other character that is not printable is
written by its code point in lower case hexadecimal digits, with two, four or eight of them.

`quote` is the whole form; `escapeChar` is the form of one character.
-/

namespace WebSpec.Text

/-- The last `width` hexadecimal digits of a number, in lower case. -/
def hexDigits : Nat → Nat → List Char
  | 0, _ => []
  | width + 1, n => hexDigits width (n / 16) ++ [Nat.digitChar (n % 16)]

/-- The quote that surrounds a text: double only if that spares an escape. -/
def quoteMark (cs : List Char) : Char :=
  if cs.contains '\'' && !cs.contains '"' then '"' else '\''

/-- One character as it stands between the quotes `mark`. -/
def escapeChar (mark c : Char) : List Char :=
  if c = mark || c = '\\' then ['\\', c]
  else if c = '\n' then ['\\', 'n']
  else if c = '\r' then ['\\', 'r']
  else if c = '\t' then ['\\', 't']
  else if isPrintable c then [c]
  else if c.toNat < 0x100 then '\\' :: 'x' :: hexDigits 2 c.toNat
  else if c.toNat < 0x10000 then '\\' :: 'u' :: hexDigits 4 c.toNat
  else '\\' :: 'U' :: hexDigits 8 c.toNat

/-- The characters between their quotes. -/
def quoteChars (cs : List Char) : List Char :=
  let mark := quoteMark cs
  mark :: cs.flatMap (escapeChar mark) ++ [mark]

/-- A text as it is shown inside a message. -/
def quote (s : String) : String :=
  String.ofList (quoteChars s.toList)

/-- A tuple of texts: round brackets around the quoted members, with a comma after a lone one. -/
def quoteTuple : List String → String
  | [s] => "(" ++ quote s ++ ",)"
  | ss => "(" ++ ", ".intercalate (ss.map quote) ++ ")"

end WebSpec.Text
