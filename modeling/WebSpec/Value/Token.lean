/-!
# Tokens of a value definition

A value definition such as `[ <length> | auto ]{1,4}` is a flat list of tokens. A token has a kind,
a payload and the position of its first character.

The payload is the symbol of a combinator or multiplier, the bare name of a keyword, function or
reference, the content of a quoted string without its quotes, and a range with its braces.
-/

namespace WebSpec.Value

/-- The kinds of token. -/
inductive TokenKind where
  /-- `|`, `||` or `&&`. -/
  | combinator
  | bracketOpen
  | bracketClose
  /-- A quoted text, `'text'`. -/
  | string
  /-- A reference to a type, `<name>`. -/
  | typeRef
  /-- A reference to a property, `<'name'>`. -/
  | propertyRef
  | keyword
  /-- A function's name with its opening parenthesis, `name(`. -/
  | functionStart
  | parenOpen
  | parenClose
  /-- How often something is repeated, `{m,n}`. -/
  | multiplierRange
  /-- One of `+`, `*`, `#`, `!` and `?`. -/
  | multiplier
  | comma
  | slash
  deriving DecidableEq, Repr

/-- A token. -/
structure Token where
  kind : TokenKind
  text : String
  position : Int := 0
  deriving DecidableEq, Repr

/-- Whether a token says how often what it follows may occur. -/
def Token.isMultiplier (t : Token) : Bool :=
  t.kind = .multiplier || t.kind = .multiplierRange

end WebSpec.Value
