import WebSpec.Text.Blank
import WebSpec.Value.Fault

/-!
# Components and marks

The tokens of a definition are of two sorts. Some are components already: a keyword, a reference, a
literal. The others mark structure: combinators, brackets, parentheses, function names and
multipliers. An `Item` is a component or a mark, and `Token.classify` sorts a token.

A type reference may restrict its type to a range, as in `<length [0,∞]>`; the restriction is no
part of the name. `withoutRange` drops it: a bracketed part at the very end, with the blanks around
it.
-/

namespace WebSpec.Value

/-- A component of a grammar, or a token that marks its structure. -/
inductive Item where
  | node (node : Node)
  | mark (token : Token)
  deriving Repr

/-- The token of a mark of the given kind. -/
def Item.mark? (kind : TokenKind) : Item → Option Token
  | .mark token => if token.kind = kind then some token else none
  | .node _ => none

/-- Whether an item is a mark of the given kind. -/
def Item.isMark (kind : TokenKind) (item : Item) : Bool :=
  (item.mark? kind).isSome

/-- The basic types, with the token-level atoms of selectors and media queries. -/
def primitives : List String :=
  ["integer", "number", "percentage", "length", "angle", "time", "frequency", "resolution",
   "color", "image", "position", "length-percentage", "angle-percentage", "time-percentage",
   "frequency-percentage", "dimension", "string", "url", "custom-ident", "ident", "ident-token",
   "function-token", "hash-token", "string-token", "number-token", "dimension-token",
   "percentage-token", "delim-token", "any-value", "declaration-value"]

/-- Whether a kind of token marks structure. -/
def TokenKind.isStructural : TokenKind → Bool
  | .combinator | .bracketOpen | .bracketClose | .functionStart | .parenOpen | .parenClose
  | .multiplier | .multiplierRange => true
  | .string | .typeRef | .propertyRef | .keyword | .comma | .slash => false

/-- Whether a word may be a keyword, by its first character. -/
def startsKeyword (word : String) : Bool :=
  match word.toList with
  | c :: _ => c = '-' || c = '_' || c.isAlpha
  | [] => false

/-- The characters before the first opening bracket after the last closing bracket of `cs`, where
`cs` ends just before the closing bracket of a restriction; nothing if there is no such bracket. -/
def beforeRange? (cs : List Char) : Option (List Char) :=
  let inside := (cs.reverse.takeWhile (· != ']')).reverse
  if inside.contains '[' then
    some (cs.take (cs.length - inside.length) ++ inside.takeWhile (· != '['))
  else none

/-- The characters of a type reference without a restriction at their end. -/
def withoutRange (cs : List Char) : List Char :=
  match (Text.stripRight cs).reverse with
  | ']' :: rest =>
    match beforeRange? rest.reverse with
    | some name => Text.stripRight name
    | none => cs
  | _ => cs

/-- Turns a token into a component, or keeps it as a mark. A word that cannot be a keyword is
neither. -/
def Token.classify (primitives : List String) (token : Token) : Except Fault Item :=
  if token.kind.isStructural then .ok (.mark token)
  else
    match token.kind with
    | .slash | .comma | .string => .ok (.node (.required .string token.text))
    | .propertyRef => .ok (.node (.required .propertyRef token.text))
    | .typeRef =>
      let name := String.ofList (withoutRange token.text.toList)
      let kind := if primitives.contains name then LeafKind.primitive else LeafKind.valueSpace
      .ok (.node (.required kind name))
    | _ =>
      if token.kind = .keyword && startsKeyword token.text then
        .ok (.node (.required .keyword token.text))
      else .error (.unrecognizedToken token)

end WebSpec.Value
