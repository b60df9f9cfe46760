/-!
# Terminals of the interface language

The classes of token of the interface definition language: names, quoted texts, two sorts of number,
punctuation and keywords. Punctuation and keywords have one spelling each, their `literal`. `label`
is the name of the class in messages.

Terminals are numbered by their place in the list of constructors; `Terminal.ofCode?` goes back.
-/

namespace WebSpec.Idl

/-- A class of tokens. -/
inductive Terminal where
  | identifier
  | string
  | integer
  | decimal
  | ellipsis | questionMark | colon | comma | equals | braceOpen | braceClose | parenOpen
  | parenClose | bracketOpen | bracketClose | lessThan | moreThan | semicolon | star | kwAsync
  | kwAttribute | kwCallback | kwConst | kwConstructor | kwDeleter | kwDictionary | kwDouble
  | kwEnum | kwFalse | kwFloat | kwGetter | kwImplements | kwIncludes | kwInherit | kwInterface
  | kwIterable | kwLong | kwMaplike | kwMixin | kwNamespace | kwNull | kwOptional | kwOr
  | kwPartial | kwReadonly | kwRequired | kwSetlike | kwSetter | kwShort | kwStatic
  | kwStringifier | kwTrue | kwTypedef | kwUndefined | kwUnrestricted | kwUnsigned | kwInfinity
  | kwNegativeInfinity | kwNaN
  /-- The end of the input, which no text spells. -/
  | endOfInput
  deriving DecidableEq, Repr

namespace Terminal

/-- The spelling of a terminal that has only one. -/
def literal? : Terminal → Option String
  | .identifier | .string | .integer | .decimal | .endOfInput => none
  | .ellipsis => some "..."
  | .questionMark => some "?"
  | .colon => some ":"
  | .comma => some ","
  | .equals => some "="
  | .braceOpen => some "\x7b"
  | .braceClose => some "\x7d"
  | .parenOpen => some "("
  | .parenClose => some ")"
  | .bracketOpen => some "["
  | .bracketClose => some "]"
  | .lessThan => some "<"
  | .moreThan => some ">"
  | .semicolon => some ";"
  | .star => some "*"
  | .kwAsync => some "async"
  | .kwAttribute => some "attribute"
  | .kwCallback => some "callback"
  | .kwConst => some "const"
  | .kwConstructor => some "constructor"
  | .kwDeleter => some "deleter"
  | .kwDictionary => some "dictionary"
  | .kwDouble => some "double"
  | .kwEnum => some "enum"
  | .kwFalse => some "false"
  | .kwFloat => some "float"
  | .kwGetter => some "getter"
  | .kwImplements => some "implements"
  | .kwIncludes => some "includes"
  | .kwInherit => some "inherit"
  | .kwInterface => some "interface"
  | .kwIterable => some "iterable"
  | .kwLong => some "long"
  | .kwMaplike => some "maplike"
  | .kwMixin => some "mixin"
  | .kwNamespace => some "namespace"
  | .kwNull => some "null"
  | .kwOptional => some "optional"
  | .kwOr => some "or"
  | .kwPartial => some "partial"
  | .kwReadonly => some "readonly"
  | .kwRequired => some "required"
  | .kwSetlike => some "setlike"
  | .kwSetter => some "setter"
  | .kwShort => some "short"
  | .kwStatic => some "static"
  | .kwStringifier => some "stringifier"
  | .kwTrue => some "true"
  | .kwTypedef => some "typedef"
  | .kwUndefined => some "undefined"
  | .kwUnrestricted => some "unrestricted"
  | .kwUnsigned => some "unsigned"
  | .kwInfinity => some "Infinity"
  | .kwNegativeInfinity => some "-Infinity"
  | .kwNaN => some "NaN"

/-- Whether a terminal is a keyword: its spelling could be a name. -/
def isKeyword : Terminal → Bool
  | .identifier | .string | .integer | .decimal | .endOfInput | .ellipsis | .questionMark
  | .colon | .comma | .equals | .braceOpen | .braceClose | .parenOpen | .parenClose
  | .bracketOpen | .bracketClose | .lessThan | .moreThan | .semicolon | .star => false
  | _ => true

/-- The name of a terminal in messages. -/
def label : Terminal → String
  | .identifier => "IDENTIFIER"
  | .string => "STRING"
  | .integer => "INTEGER"
  | .decimal => "DECIMAL"
  | .endOfInput => "$END"
  | .ellipsis => "ELLIPSIS"
  | .questionMark => "QMARK"
  | .colon => "COLON"
  | .comma => "COMMA"
  | .equals => "EQUAL"
  | .braceOpen => "LBRACE"
  | .braceClose => "RBRACE"
  | .parenOpen => "LPAR"
  | .parenClose => "RPAR"
  | .bracketOpen => "LSQB"
  | .bracketClose => "RSQB"
  | .lessThan => "LESSTHAN"
  | .moreThan => "MORETHAN"
  | .semicolon => "SEMICOLON"
  | .star => "STAR"
  | .kwAsync => "ASYNC"
  | .kwAttribute => "ATTRIBUTE"
  | .kwCallback => "CALLBACK"
  | .kwConst => "CONST"
  | .kwConstructor => "CONSTRUCTOR"
  | .kwDeleter => "DELETER"
  | .kwDictionary => "DICTIONARY"
  | .kwDouble => "DOUBLE"
  | .kwEnum => "ENUM"
  | .kwFalse => "FALSE"
  | .kwFloat => "FLOAT"
  | .kwGetter => "GETTER"
  | .kwImplements => "IMPLEMENTS"
  | .kwIncludes => "INCLUDES"
  | .kwInherit => "INHERIT"
  | .kwInterface => "INTERFACE"
  | .kwIterable => "ITERABLE"
  | .kwLong => "LONG"
  | .kwMaplike => "MAPLIKE"
  | .kwMixin => "MIXIN"
  | .kwNamespace => "NAMESPACE"
  | .kwNull => "NULL"
  | .kwOptional => "OPTIONAL"
  | .kwOr => "OR"
  | .kwPartial => "PARTIAL"
  | .kwReadonly => "READONLY"
  | .kwRequired => "REQUIRED"
  | .kwSetlike => "SETLIKE"
  | .kwSetter => "SETTER"
  | .kwShort => "SHORT"
  | .kwStatic => "STATIC"
  | .kwStringifier => "STRINGIFIER"
  | .kwTrue => "TRUE"
  | .kwTypedef => "TYPEDEF"
  | .kwUndefined => "UNDEFINED"
  | .kwUnrestricted => "UNRESTRICTED"
  | .kwUnsigned => "UNSIGNED"
  | .kwInfinity => "INFINITY"
  | .kwNegativeInfinity => "__ANON_0"
  | .kwNaN => "NAN"

/-- All terminals, in the order of their numbers. -/
def all : List Terminal :=
  [.identifier, .string, .integer, .decimal, .ellipsis, .questionMark, .colon, .comma, .equals,
   .braceOpen, .braceClose, .parenOpen, .parenClose, .bracketOpen, .bracketClose, .lessThan,
   .moreThan, .semicolon, .star, .kwAsync, .kwAttribute, .kwCallback, .kwConst, .kwConstructor,
   .kwDeleter, .kwDictionary, .kwDouble, .kwEnum, .kwFalse, .kwFloat, .kwGetter, .kwImplements,
   .kwIncludes, .kwInherit, .kwInterface, .kwIterable, .kwLong, .kwMaplike, .kwMixin,
   .kwNamespace, .kwNull, .kwOptional, .kwOr, .kwPartial, .kwReadonly, .kwRequired, .kwSetlike,
   .kwSetter, .kwShort, .kwStatic, .kwStringifier, .kwTrue, .kwTypedef, .kwUndefined,
   .kwUnrestricted, .kwUnsigned, .kwInfinity, .kwNegativeInfinity, .kwNaN, .endOfInput]

/-- The number of a terminal. -/
def code (t : Terminal) : Nat :=
  t.ctorIdx

/-- The terminal with a number. -/
def ofCode? (code : Nat) : Option Terminal :=
  all[code]?

@[simp] theorem ofCode?_code (t : Terminal) : ofCode? t.code = some t := by
  cases t <;> rfl

end Terminal

end WebSpec.Idl
