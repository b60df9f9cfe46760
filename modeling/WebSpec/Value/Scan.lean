import WebSpec.Text.Blank
import WebSpec.Value.Fault

/-!
# Reading tokens

The text of a value definition as a list of tokens. Blanks separate tokens and mean nothing else,
except in a quoted text, a type reference (`<length [0,∞]>`) and a range (`{1, 4}`), where they
belong to the token.

## The reader

The reader goes through the text one character at a time. Between two characters it is a `Reading`:
between two tokens, or inside one whose start and payload so far it remembers. `Reading.step` reads
a character and gives the tokens that it completes, none or one or two: a character that cannot
continue a word or a single `|` ends it and is read again as the start of something new.
`Reading.finish` says what the end of the text means. The first character that cannot be continued
in any way is the one that is blamed.
-/

namespace WebSpec.Value

/-- What the reader remembers between two characters. -/
inductive Reading where
  | between
  | word (start : Nat) (text : String)
  | quoted (start : Nat) (text : String)
  | typeRef (start : Nat) (text : String)
  | propertyRef (start : Nat) (text : String)
  | propertyRefEnd (start : Nat) (text : String)
  | range (start : Nat) (text : String)
  | ampersand (start : Nat)
  | bar (start : Nat)
  deriving DecidableEq, Repr

namespace Reading

/-- The mode of the reader. -/
def mode : Reading → Mode
  | .between => .between
  | .word .. => .word
  | .quoted .. => .quoted
  | .typeRef .. => .typeRef
  | .propertyRef .. => .propertyRef
  | .propertyRefEnd .. => .propertyRefEnd
  | .range .. => .range
  | .ampersand _ => .ampersand
  | .bar _ => .bar

/-- The kind of the token that a character makes on its own between two tokens. -/
def symbolKind? : Char → Option TokenKind
  | '[' => some .bracketOpen
  | ']' => some .bracketClose
  | '+' | '*' | '#' | '!' | '?' => some .multiplier
  | '/' => some .slash
  | ',' => some .comma
  | '(' => some .parenOpen
  | ')' => some .parenClose
  | _ => none

/-- Whether a character ends a word and starts something new. -/
def endsWord (c : Char) : Bool :=
  "[]+*#!?/,)\x7b\x7d&|'".toList.contains c

/-- Refuses a character. -/
def refuse (r : Reading) (position : Nat) (c : Char) : Except Fault (List Token × Reading) :=
  .error (.unexpectedCharacter c position r.mode)

/-- Reads a character between two tokens. -/
def start (position : Nat) (c : Char) : Except Fault (List Token × Reading) :=
  if Text.isBlank c then .ok ([], .between)
  else if c = '<' then .ok ([], .typeRef position "")
  else if c = '\'' then .ok ([], .quoted position "")
  else if c = '\x7b' then .ok ([], .range position "\x7b")
  else if c = '&' then .ok ([], .ampersand position)
  else if c = '|' then .ok ([], .bar position)
  else
    match symbolKind? c with
    | some kind => .ok ([⟨kind, c.toString, position⟩], .between)
    | none =>
      if c = '>' || c = '\x7d' then refuse .between position c
      else .ok ([], .word position c.toString)

/-- Completes a token with a character that already belongs to what follows. -/
def endBefore (token : Token) (position : Nat) (c : Char) :
    Except Fault (List Token × Reading) :=
  (start position c).map fun (tokens, r) => (token :: tokens, r)

/-- Reads one character: the tokens that it completes, and how the reader goes on. -/
def step (r : Reading) (position : Nat) (c : Char) : Except Fault (List Token × Reading) :=
  match r with
  | .between => start position c
  | .word first text =>
    if Text.isBlank c then .ok ([⟨.keyword, text, first⟩], .between)
    else if c = '(' then .ok ([⟨.functionStart, text, first⟩], .between)
    else if c = '<' || c = '>' then refuse r position c
    else if endsWord c then endBefore ⟨.keyword, text, first⟩ position c
    else .ok ([], .word first (text.push c))
  | .quoted first text =>
    if c = '\'' then .ok ([⟨.string, text, first⟩], .between)
    else .ok ([], .quoted first (text.push c))
  | .typeRef first text =>
    if c = '\'' && text = "" then .ok ([], .propertyRef first "")
    else if c = '>' then
      if Text.strip text = "" then refuse r position c
      else .ok ([⟨.typeRef, Text.strip text, first⟩], .between)
    else if c = '<' || c = '\'' then refuse r position c
    else .ok ([], .typeRef first (text.push c))
  | .propertyRef first text =>
    if c = '\'' then .ok ([], .propertyRefEnd first text)
    else .ok ([], .propertyRef first (text.push c))
  | .propertyRefEnd first text =>
    if c = '>' then .ok ([⟨.propertyRef, text, first⟩], .between)
    else refuse r position c
  | .range first text =>
    if c = '\x7b' then refuse r position c
    else if c = '\x7d' then .ok ([⟨.multiplierRange, text.push c, first⟩], .between)
    else .ok ([], .range first (text.push c))
  | .ampersand first =>
    if c = '&' then .ok ([⟨.combinator, "&&", first⟩], .between)
    else refuse r position c
  | .bar first =>
    if c = '|' then .ok ([⟨.combinator, "||", first⟩], .between)
    else endBefore ⟨.combinator, "|", first⟩ position c

/-- What the end of the text `source` completes. -/
def finish (source : List Char) (r : Reading) : Except Fault (List Token) :=
  let since (first : Nat) := String.ofList (source.drop first)
  match r with
  | .between => .ok []
  | .word first text => .ok [⟨.keyword, text, first⟩]
  | .quoted first _ | .typeRef first _ | .propertyRef first _ | .propertyRefEnd first _
  | .range first _ => .error (.unterminatedToken (since first) r.mode)
  | .ampersand first | .bar first => .error (.unterminatedCombinator (since first) r.mode)

/-- Reads the characters from `position` on, the last of the text `source`. -/
def run (source : List Char) (position : Nat) (r : Reading) : List Char → Except Fault (List Token)
  | [] => r.finish source
  | c :: rest => do
    let (tokens, r') ← r.step position c
    let others ← run source (position + 1) r' rest
    pure (tokens ++ others)

end Reading

/-- The tokens of a text. -/
def tokens (source : String) : Except Fault (List Token) :=
  Reading.run source.toList 0 .between source.toList

end WebSpec.Value
