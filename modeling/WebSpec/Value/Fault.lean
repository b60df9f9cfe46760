import WebSpec.Text.DecimalDigit
import WebSpec.Value.Token
import WebSpec.Value.Node

/-!
# Faults of a value definition

Why a value definition is refused. `Fault` has one constructor for each cause; a fault knows the
fragment that it blames and, while tokens are being read, the mode the reader was in.
`Fault.message` words it, given the whole definition.

One cause is not in what the definition says: numbers are read up to a length, and a range whose
bound is longer ends in an error that blames nothing and that is not reported as a fault of the
definition.
-/

namespace WebSpec.Value

/-- What the reader of tokens is in the middle of. -/
inductive Mode where
  /-- Between two tokens. -/
  | between
  /-- In a keyword or the name of a function. -/
  | word
  /-- In a quoted text. -/
  | quoted
  /-- In a type reference. -/
  | typeRef
  /-- In the quotes of a property reference. -/
  | propertyRef
  /-- After the closing quote of a property reference. -/
  | propertyRefEnd
  /-- In a range. -/
  | range
  /-- After one `&`. -/
  | ampersand
  /-- After one `|`. -/
  | bar
  deriving DecidableEq, Repr

/-- The published name of a mode. -/
def Mode.name : Mode → String
  | .between => "new"
  | .word => "keyword"
  | .quoted => "quote"
  | .typeRef => "type-ref-open"
  | .propertyRef => "type-ref-quote"
  | .propertyRefEnd => "type-ref-close"
  | .range => "curly"
  | .ampersand => "ampersand"
  | .bar => "pipe"

/-- Why a value definition is refused. -/
inductive Fault where
  /-- A character that cannot stand where it does. -/
  | unexpectedCharacter (char : Char) (position : Nat) (mode : Mode)
  /-- The definition ends inside a token that starts with `fragment`. -/
  | unterminatedToken (fragment : String) (mode : Mode)
  /-- The definition ends after half a combinator. -/
  | unterminatedCombinator (fragment : String) (mode : Mode)
  /-- A combinator lacks one of its operands. -/
  | missingOperand (combinator : Combinator)
  /-- A token that is no component. -/
  | unrecognizedToken (token : Token)
  /-- A token that is left over where only components may be. -/
  | strayToken (token : Token)
  /-- The definition is blank. -/
  | blankDefinition
  /-- There is nothing where a component is needed. -/
  | noComponents
  /-- There is nothing between two brackets. -/
  | emptyGroup
  /-- A range that cannot be read. -/
  | malformedRange (text : String)
  /-- A range whose upper bound is below its lower bound. -/
  | descendingRange (text : String)
  /-- A bound of a range that has too many digits to be read. -/
  | longBound (digits : Nat)
  /-- A multiplier with an unknown symbol. -/
  | unknownMultiplier (symbol : String)
  /-- A multiplier with nothing before it. -/
  | danglingMultiplier (multiplier : Token)
  /-- A multiplier after a token that cannot be multiplied. -/
  | misplacedMultiplier (multiplier : Token) (previous : Token)
  /-- A `!` after something other than a group. -/
  | requiredNonGroup (node : Node)
  /-- A function without its closing parenthesis. -/
  | unterminatedFunction (name : String)
  /-- An opening bracket without its partner. -/
  | unterminatedGroup
  /-- A closing bracket without its partner. -/
  | unexpectedGroupEnd
  deriving Repr

namespace Fault

/-- The part of the definition that a fault blames. That a bound is too long is found by the reader of
numbers, which knows nothing about the definition. -/
def fragment? : Fault → Option String
  | .unexpectedCharacter char .. => some char.toString
  | .unterminatedToken fragment _ => some fragment
  | .unterminatedCombinator fragment _ => some fragment
  | .missingOperand combinator => some combinator.symbol
  | .unrecognizedToken token => some token.text
  | .strayToken token => some token.text
  | .blankDefinition => some ""
  | .noComponents => some ""
  | .emptyGroup => some "[ ]"
  | .malformedRange text => some text
  | .descendingRange text => some text
  | .longBound _ => none
  | .unknownMultiplier symbol => some symbol
  | .danglingMultiplier multiplier => some multiplier.text
  | .misplacedMultiplier multiplier _ => some multiplier.text
  | .requiredNonGroup _ => some "!"
  | .unterminatedFunction name => some (name ++ "(")
  | .unterminatedGroup => some "["
  | .unexpectedGroupEnd => some "]"

/-- The mode of the reader of tokens, for the faults that it finds. -/
def mode? : Fault → Option Mode
  | .unexpectedCharacter _ _ mode => some mode
  | .unterminatedToken _ mode => some mode
  | .unterminatedCombinator _ mode => some mode
  | _ => none

/-- The published class of a fault. -/
def className : Fault → String
  | .unexpectedCharacter .. => "UnexpectedCharacter"
  | .unterminatedToken .. => "UnterminatedToken"
  | .unterminatedCombinator .. | .missingOperand .. => "UnterminatedCombinator"
  | .unrecognizedToken .. | .strayToken .. | .blankDefinition | .noComponents | .emptyGroup =>
    "UnrecognizedToken"
  | .malformedRange .. | .descendingRange .. | .unknownMultiplier .. | .danglingMultiplier ..
  | .misplacedMultiplier .. => "MalformedMultiplier"
  | .longBound .. => "ValueError"
  | .requiredNonGroup .. => "InvalidMultiplier"
  | .unterminatedFunction .. => "UnterminatedFunction"
  | .unterminatedGroup | .unexpectedGroupEnd => "UnterminatedBracketGroup"

/-- Whether a fault is reported as one of the definition. That a bound is too long is not: it ends the
whole program. -/
def isReported : Fault → Bool
  | .longBound _ => false
  | _ => true

/-- What is said about a fault in the given definition. -/
def message (source : String) (fault : Fault) : String :=
  let inSource := " in " ++ Text.quote source
  let atEnd := " at end of " ++ Text.quote source
  match fault with
  | .unexpectedCharacter char position mode =>
    "Unexpected character " ++ Text.quote char.toString ++ " at position " ++ toString position ++
      " (state " ++ mode.name ++ ")" ++ inSource
  | .unterminatedToken fragment _ => "Unterminated token " ++ Text.quote fragment ++ atEnd
  | .unterminatedCombinator fragment _ =>
    "Unterminated combinator " ++ Text.quote fragment ++ atEnd
  | .missingOperand combinator =>
    "Combinator " ++ Text.quote combinator.symbol ++ " is missing an operand" ++ inSource
  | .unrecognizedToken token =>
    "Unrecognized token " ++ Text.quote token.text ++ " at position " ++ toString token.position ++
      inSource
  | .strayToken token =>
    "Unexpected " ++ Text.quote token.text ++ " at position " ++ toString token.position ++ inSource
  | .blankDefinition => "Empty grammar"
  | .noComponents => "Empty grammar" ++ inSource
  | .emptyGroup => "Empty bracket-group" ++ inSource
  | .malformedRange text =>
    "Unrecognized range format in multiplier " ++ Text.quote text ++ inSource
  | .descendingRange text =>
    "Multiplier range " ++ Text.quote text ++ " has max below min" ++ inSource
  | .longBound digits =>
    "Exceeds the limit (" ++ toString Text.maxDigits ++
      " digits) for integer string conversion: value has " ++ toString digits ++
      " digits; use sys.set_int_max_str_digits() to increase the limit"
  | .unknownMultiplier symbol => "Unrecognized multiplier " ++ Text.quote symbol ++ inSource
  | .danglingMultiplier multiplier =>
    "Multiplier " ++ Text.quote multiplier.text ++ " at position " ++
      toString multiplier.position ++ " does not follow anything it can modify" ++ inSource
  | .misplacedMultiplier multiplier previous =>
    "Multiplier " ++ Text.quote multiplier.text ++ " follows " ++ Text.quote previous.text ++
      inSource
  | .requiredNonGroup node => "Multiplier '!' applied to non-group " ++ node.describe ++ inSource
  | .unterminatedFunction name => "Unterminated function " ++ name ++ "(" ++ inSource
  | .unterminatedGroup => "Unterminated bracket-group" ++ inSource
  | .unexpectedGroupEnd => "Unexpected closing bracket" ++ inSource

end Fault

end WebSpec.Value
