import WebSpec.Json
import WebSpec.Text.Quoted

/-!
# Grammar trees

What a value definition means: a tree of components. A leaf names a keyword, a primitive type, a
production defined elsewhere, another property, or a literal text; a function has arguments; a
sequence puts components side by side, or repeats one of them; `&&`, `||` and `|` combine
components. Every node says whether it may be left out.

`Node.toJson` writes a tree in its published form, and `Node.describe` as it appears inside a
message.
-/

namespace WebSpec.Value

/-- What a leaf stands for. -/
inductive LeafKind where
  /-- A word that stands for itself. -/
  | keyword
  /-- A basic type, such as `<length>`. -/
  | primitive
  /-- A production that is defined elsewhere, such as `<color-stop>`. -/
  | valueSpace
  /-- The values of another property, such as `<'grid-area'>`. -/
  | propertyRef
  /-- A text that is written as it is. -/
  | string
  deriving DecidableEq, Repr

/-- The three ways to combine components other than side by side. -/
inductive Combinator where
  /-- `a | b`: exactly one of the components. -/
  | oneOf
  /-- `a || b`: one or more of the components, in any order. -/
  | anyOf
  /-- `a && b`: all components, in any order. -/
  | allOf
  deriving DecidableEq, Repr

/-- How a combinator is written. -/
def Combinator.symbol : Combinator → String
  | .oneOf => "|"
  | .anyOf => "||"
  | .allOf => "&&"

/-- How often a component is repeated. Without any bound and separator nothing is repeated. -/
structure Repetition where
  /-- The least number of occurrences. -/
  least : Option Int := none
  /-- The greatest number of occurrences. -/
  greatest : Option Int := none
  /-- What stands between two occurrences. -/
  separator : Option String := none
  deriving DecidableEq, Repr

/-- Whether anything is said about repetition. -/
def Repetition.isStated (r : Repetition) : Bool :=
  r.least.isSome || r.greatest.isSome || r.separator.isSome

/-- A grammar tree. -/
inductive Node where
  | leaf (kind : LeafKind) (text : String) (isOptional : Bool)
  | function (name : String) (arguments : Node) (isOptional : Bool)
  /-- Components side by side, or one component repeated. -/
  | sequence (items : List Node) (repetition : Repetition) (isOptional : Bool)
  | combined (combinator : Combinator) (items : List Node) (isOptional : Bool)
  deriving Repr, BEq

namespace Node

/-- A leaf that may not be left out. -/
abbrev required (kind : LeafKind) (text : String) : Node :=
  .leaf kind text false

/-- Components side by side. -/
abbrev juxtaposed (items : List Node) : Node :=
  .sequence items {} false

/-- One component, repeated. -/
abbrev repeated (item : Node) (repetition : Repetition) : Node :=
  .sequence [item] repetition false

/-- The same node, marked as one that may be left out. -/
def makeOptional : Node → Node
  | .leaf kind text _ => .leaf kind text true
  | .function name arguments _ => .function name arguments true
  | .sequence items repetition _ => .sequence items repetition true
  | .combined combinator items _ => .combined combinator items true

/-- Whether a sequence says anything about repetition; other nodes have no answer. -/
def isRepetition? : Node → Option Bool
  | .sequence _ repetition _ => some repetition.isStated
  | _ => none

/-- The class of a node, as a log line names it. -/
def className : Node → String
  | .leaf .keyword .. => "Keyword"
  | .leaf .primitive .. => "Primitive"
  | .leaf .valueSpace .. => "ValueSpace"
  | .leaf .propertyRef .. => "PropertyRef"
  | .leaf .string .. => "StringLiteral"
  | .function .. => "Function"
  | .sequence .. => "Sequence"
  | .combined .oneOf .. => "OneOf"
  | .combined .anyOf .. => "AnyOf"
  | .combined .allOf .. => "AllOf"

end Node

/-- The type tag of a leaf and the name of the field that holds its text. -/
def LeafKind.jsonKeys : LeafKind → String × String
  | .keyword => ("keyword", "name")
  | .primitive => ("primitive", "name")
  | .valueSpace => ("valuespace", "name")
  | .propertyRef => ("propertyref", "name")
  | .string => ("string", "content")

/-- The field that holds the components of a combination. -/
def Combinator.jsonKey : Combinator → String
  | .oneOf => "oneOf"
  | .anyOf => "anyOf"
  | .allOf => "allOf"

/-- The bounds and the separator, each only where it is given. -/
def Repetition.toFields (r : Repetition) : Json.Fields :=
  (r.least.map fun n => ("minItems", Json.int n)).toList ++
    (r.greatest.map fun n => ("maxItems", Json.int n)).toList ++
    (r.separator.map fun s => ("separator", Json.str s)).toList

mutual

/-- A tree in its published form. -/
def Node.toJson : Node → Json
  | .leaf kind text isOptional =>
    .obj ([("type", .str kind.jsonKeys.1), (kind.jsonKeys.2, .str text)] ++
      Json.flag "optional" isOptional)
  | .function name arguments isOptional =>
    .obj ([("type", .str "function"), ("name", .str name), ("arguments", arguments.toJson)] ++
      Json.flag "optional" isOptional)
  | .sequence items repetition isOptional =>
    .obj ([("type", .str "array"), ("items", .arr (Node.listToJson items))] ++
      repetition.toFields ++ Json.flag "optional" isOptional)
  | .combined combinator items isOptional =>
    .obj ((combinator.jsonKey, .arr (Node.listToJson items)) :: Json.flag "optional" isOptional)

/-- The published forms of several trees. -/
def Node.listToJson : List Node → List Json
  | [] => []
  | item :: rest => item.toJson :: Node.listToJson rest

end

/-- A truth value inside a message. -/
def showBool (b : Bool) : String :=
  if b then "True" else "False"

/-- A value that may be missing, inside a message. -/
def showOption {α : Type} (shown : α → String) : Option α → String
  | none => "None"
  | some a => shown a

/-- Already shown items as a tuple: a lone one is followed by a comma. -/
def showTuple : List String → String
  | [item] => "(" ++ item ++ ",)"
  | items => "(" ++ ", ".intercalate items ++ ")"

mutual

/-- A tree as it appears inside a message: its class with the values of all its fields. -/
def Node.describe : Node → String
  | .leaf kind text isOptional =>
    (Node.leaf kind text isOptional).className ++ "(" ++
      (if kind = .string then "text=" else "name=") ++ Text.quote text ++
      ", optional=" ++ showBool isOptional ++ ")"
  | .function name arguments isOptional =>
    "Function(name=" ++ Text.quote name ++ ", arguments=" ++ arguments.describe ++
      ", optional=" ++ showBool isOptional ++ ")"
  | .sequence items repetition isOptional =>
    "Sequence(items=" ++ showTuple (Node.describeList items) ++
      ", min_items=" ++ showOption toString repetition.least ++
      ", max_items=" ++ showOption toString repetition.greatest ++
      ", separator=" ++ showOption Text.quote repetition.separator ++
      ", optional=" ++ showBool isOptional ++ ")"
  | .combined combinator items isOptional =>
    (Node.combined combinator items isOptional).className ++ "(items=" ++
      showTuple (Node.describeList items) ++ ", optional=" ++ showBool isOptional ++ ")"

/-- Several trees, each as it appears inside a message. -/
def Node.describeList : List Node → List String
  | [] => []
  | item :: rest => item.describe :: Node.describeList rest

end

end WebSpec.Value
