import WebSpec.ContextFree.First
import WebSpec.Idl.Terminal

/-!
# Tokens of the interface language

How the text of an interface definition falls into tokens. Layout, which is blanks and comments,
stands between tokens and has no meaning; each token keeps the layout before it, so that a list of
tokens gives back the text.

What a token is depends on the terminals that the parser accepts where it stands. Numbers and names
come before everything else, and the longest literal before shorter ones. Where a name may stand, a
keyword is a name with the spelling of an accepted keyword; elsewhere the spelling is enough,
whatever comes after it.
-/

namespace WebSpec.Idl

open ContextFree (TerminalSet)

/-- A token, with the layout before it. -/
structure Token where
  terminal : Terminal
  layout : String
  text : String
  deriving DecidableEq, Repr

/-! ### Layout -/

/-- Blanks of the interface language. -/
def isLayoutChar (c : Char) : Bool :=
  c = ' ' || c = '\t' || c = '\x0c' || c = '\r' || c = '\n'

/-- Where in the layout a reader is. -/
inductive LayoutMode where
  | between
  /-- In a comment that the end of the line ends. -/
  | line
  /-- In a comment that ends with its closing mark. -/
  | block
  deriving DecidableEq, Repr

/-- The number of characters that layout takes at the start of a text. A comment that is opened and
not closed is no layout; inside one there is no answer. -/
def layoutLength? : LayoutMode → List Char → Option Nat
  | .between, [] => some 0
  | .between, c :: rest =>
    if isLayoutChar c then (layoutLength? .between rest).map (· + 1)
    else if c = '/' then
      match rest with
      | '/' :: rest => (layoutLength? .line rest).map (· + 2)
      | '*' :: rest => some (((layoutLength? .block rest).map (· + 2)).getD 0)
      | _ => some 0
    else some 0
  | .line, [] => some 0
  | .line, c :: rest =>
    (layoutLength? (if c = '\n' then .between else .line) rest).map (· + 1)
  | .block, [] => none
  | .block, c :: rest =>
    if c = '*' then
      match rest with
      | '/' :: rest => (layoutLength? .between rest).map (· + 2)
      | rest => (layoutLength? .block rest).map (· + 1)
    else (layoutLength? .block rest).map (· + 1)

/-- The number of characters that layout takes at the start of a text. -/
def layoutLength (cs : List Char) : Nat :=
  (layoutLength? .between cs).getD 0

/-! ### Names, numbers and texts -/

/-- Whether a character may be in a name after its first letter. -/
def isNameChar (c : Char) : Bool :=
  c.isAlphanum || c = '_' || c = '-'

/-- The length of the name at the start of a text: an optional `_` or `-`, a letter, and then
letters, digits, `_` and `-`. -/
def nameLength? (cs : List Char) : Option Nat :=
  let letters (cs : List Char) : Option Nat :=
    match cs with
    | c :: rest => if c.isAlpha then some ((rest.takeWhile isNameChar).length + 1) else none
    | [] => none
  match cs with
  | c :: rest => if c = '_' || c = '-' then (letters rest).map (· + 1) else letters cs
  | [] => none

/-- Reads a number that a minus sign may precede. -/
def signed (number? : List Char → Option Nat) (cs : List Char) : Option Nat :=
  match cs with
  | '-' :: rest => (number? rest).map (· + 1)
  | _ => number? cs

/-- Whether a character is a hexadecimal digit. -/
def isHexDigit (c : Char) : Bool :=
  c.isDigit || ('a' ≤ c && c ≤ 'f') || ('A' ≤ c && c ≤ 'F')

/-- Whether a character is an octal digit. -/
def isOctalDigit (c : Char) : Bool :=
  '0' ≤ c && c ≤ '7'

/-- The length of the number without sign at the start of a text: hexadecimal after `0x`, octal
after `0`, decimal otherwise. -/
def unsignedIntegerLength? (cs : List Char) : Option Nat :=
  match cs with
  | '0' :: rest =>
    let octal := (rest.takeWhile isOctalDigit).length + 1
    match rest with
    | x :: digits =>
      let hexadecimal := (digits.takeWhile isHexDigit).length
      if (x = 'x' || x = 'X') && 0 < hexadecimal then some (hexadecimal + 2) else some octal
    | [] => some octal
  | c :: rest => if c.isDigit then some ((rest.takeWhile Char.isDigit).length + 1) else none
  | [] => none

/-- The length of the whole number at the start of a text. -/
def integerLength? (cs : List Char) : Option Nat :=
  signed unsignedIntegerLength? cs

/-- The length of the exponent at the start of a text. -/
def exponentLength? (cs : List Char) : Option Nat :=
  let digits (cs : List Char) (before : Nat) : Option Nat :=
    match (cs.takeWhile Char.isDigit).length with
    | 0 => none
    | n => some (n + before)
  match cs with
  | e :: rest =>
    if e = 'e' || e = 'E' then
      match rest with
      | sign :: cs => if sign = '+' || sign = '-' then digits cs 2 else digits rest 1
      | [] => none
    else none
  | [] => none

/-- The length of the decimal number without sign at the start of a text: digits with a point and
perhaps an exponent, or digits with an exponent. -/
def unsignedDecimalLength? (cs : List Char) : Option Nat :=
  let whole := (cs.takeWhile Char.isDigit).length
  match cs.dropWhile Char.isDigit with
  | '.' :: rest =>
    let fraction := (rest.takeWhile Char.isDigit).length
    if whole + fraction = 0 then none
    else some (whole + 1 + fraction + (exponentLength? (rest.dropWhile Char.isDigit)).getD 0)
  | rest => if whole = 0 then none else (exponentLength? rest).map (whole + ·)

/-- The length of the decimal number at the start of a text. -/
def decimalLength? (cs : List Char) : Option Nat :=
  signed unsignedDecimalLength? cs

/-- The length of the quoted text at the start of a text, with its quotes. -/
def quotedLength? (cs : List Char) : Option Nat :=
  match cs with
  | '"' :: rest =>
    let inside := rest.takeWhile (· != '"')
    if inside.length < rest.length then some (inside.length + 2) else none
  | _ => none

/-! ### Tokens -/

/-- The keyword among the accepted terminals with the given spelling. -/
def keyword? (accepted : TerminalSet) (spelling : List Char) : Option Terminal :=
  Terminal.all.find? fun t =>
    t.isKeyword && accepted.has t.code && t.literal?.map String.toList = some spelling

/-- The longest literal at the start of a text, among the accepted terminals that satisfy `p`. -/
def longestLiteral? (accepted : TerminalSet) (p : Terminal → Bool) (cs : List Char) :
    Option (Terminal × Nat) :=
  Terminal.all.foldl
    (fun best t =>
      match t.literal? with
      | some literal =>
        if accepted.has t.code && p t && literal.toList.isPrefixOf cs &&
            (best.elim 0 Prod.snd) < literal.length then
          some (t, literal.length)
        else best
      | none => best)
    none

/-- The terminal of the token at the start of a text, and the length of the token, where the given
terminals are accepted. -/
def nextToken? (accepted : TerminalSet) (cs : List Char) : Option (Terminal × Nat) :=
  let named := accepted.has Terminal.identifier.code
  let whenAccepted (t : Terminal) (length? : List Char → Option Nat) : Option (Terminal × Nat) :=
    if accepted.has t.code then (length? cs).map fun n => (t, n) else none
  let name? := (whenAccepted .identifier nameLength?).map fun (t, n) =>
    ((keyword? accepted (cs.take n)).getD t, n)
  whenAccepted .decimal decimalLength? <|> whenAccepted .integer integerLength? <|> name? <|>
    whenAccepted .string quotedLength? <|>
    longestLiteral? accepted (fun t => !(named && t.isKeyword)) cs

/-- The set of all terminals. -/
def allTerminals : TerminalSet :=
  (1 <<< Terminal.all.length) - 1

end WebSpec.Idl
