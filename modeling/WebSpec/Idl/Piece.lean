import WebSpec.Idl.Token
import WebSpec.Idl.Grammar
import WebSpec.Idl.Node

/-!
# The meaning of a derivation

From a parse tree to the definitions that it stands for. Each subtree means one or more pieces:
a token means itself, a construct combines the pieces of its children to one piece, and a `part`
passes the pieces of its children on to the construct around it.

A construct looks its pieces up by their sort: `Construct.combine` takes the names, the type, the
arguments and so on from wherever they stand among the pieces. In a parse tree they are all
there.

Names may be written with an underscore in front, so that they are not taken for keywords. The
underscore is no part of the name, except for the name of an extended attribute.
-/

namespace WebSpec.Idl

open ContextFree (ParseTree)

/-- What a subtree means. -/
inductive Piece where
  | token (token : Token)
  | inheritance (name : String)
  | type (type : TypeExpr)
  | argument (argument : Argument)
  | arguments (arguments : List Argument)
  | extAttribute (attr : ExtAttribute)
  | extAttributes (attributes : List ExtAttribute)
  | attributeValue (value : AttributeValue)
  | literal (text : String)
  | node (node : Node)

/-- The name that a token spells. -/
def Token.name (t : Token) : String :=
  match t.text.toList with
  | '_' :: rest => String.ofList rest
  | _ => t.text

/-- The content of a quoted text. -/
def Token.content (t : Token) : String :=
  String.ofList (t.text.toList.drop 1).dropLast

/-- The pieces of the children of a subtree. -/
abbrev Pieces := List Piece

namespace Pieces

/-- The tokens among the pieces. -/
def tokens (ps : Pieces) : List Token :=
  ps.filterMap fun
    | .token t => some t
    | _ => none

/-- The tokens of one terminal among the pieces. -/
def tokensOf (ps : Pieces) (terminal : Terminal) : List Token :=
  ps.tokens.filter (·.terminal = terminal)

/-- Whether there is a token of the given terminal. -/
def has (ps : Pieces) (terminal : Terminal) : Bool :=
  ps.tokens.any (·.terminal = terminal)

/-- The names among the pieces. -/
def names (ps : Pieces) : List String :=
  (ps.tokensOf .identifier).map Token.name

/-- The name that comes first. -/
def name? (ps : Pieces) : Option String :=
  ps.names.head?

/-- The types among the pieces. -/
def types (ps : Pieces) : List TypeExpr :=
  ps.filterMap fun
    | .type t => some t
    | _ => none

/-- The definitions and members among the pieces. -/
def nodes (ps : Pieces) : List Node :=
  ps.filterMap fun
    | .node n => some n
    | _ => none

/-- The arguments, if there is a list of them. -/
def arguments (ps : Pieces) : List Argument :=
  (ps.findSome? fun
    | .arguments list => some list
    | _ => none).getD []

/-- The extended attributes, if there is a list of them. -/
def extAttributes (ps : Pieces) : List ExtAttribute :=
  (ps.findSome? fun
    | .extAttributes list => some list
    | _ => none).getD []

/-- The inherited name, if there is one. -/
def inheritance? (ps : Pieces) : Option String :=
  ps.findSome? fun
    | .inheritance name => some name
    | _ => none

/-- The value or default, if there is one. -/
def literal? (ps : Pieces) : Option String :=
  ps.findSome? fun
    | .literal text => some text
    | _ => none

/-- The value of an extended attribute, if there is one. -/
def attributeValue? (ps : Pieces) : Option AttributeValue :=
  ps.findSome? fun
    | .attributeValue value => some value
    | _ => none

/-- A definition with members. -/
def container (ps : Pieces) (kind : NodeKind) : Option Piece := do
  pure (.node
    { kind := .known kind
      name := ← ps.name?
      isPartial := ps.has .kwPartial
      inheritance := ps.inheritance?
      members := ps.nodes })

/-- A statement that relates two names. -/
def relation (ps : Pieces) (kind : NodeKind) : Option Piece :=
  match ps.names with
  | [target, included] =>
    some (.node { kind := .known kind, target := target, includes := included })
  | _ => none

/-- A member that holds values of given types. -/
def collection (ps : Pieces) (kind : NodeKind) : Piece :=
  .node
    { kind := .known kind
      typeArguments := ps.types
      arguments := ps.arguments
      isReadonly := ps.has .kwReadonly }

/-- A member that is special in some way. -/
def specialMember (ps : Pieces) (special : String) : Option Piece := do
  pure (.node { ← ps.nodes.head? with special := special })

/-- The value of an extended attribute that is a single text. -/
def textValue (form : ValueForm) (text : String) : Piece :=
  .attributeValue ⟨form, .text text⟩

end Pieces

/-- Combines the pieces of the children of a construct. There is no answer only if a piece that the
construct needs is missing. -/
def Construct.combine (construct : Construct) (ps : Pieces) : Option Piece :=
  match construct with
  | .part => none
  | .definition => do
    pure (.node { ← ps.nodes.getLast? with attributes := ps.extAttributes })
  | .interface => ps.container .interface
  | .mixin => ps.container .interfaceMixin
  | .callbackInterface => ps.container .callbackInterface
  | .namespaceDefinition => ps.container .namespaceDefinition
  | .dictionary => ps.container .dictionary
  | .callbackFunction => do
    pure (.node
      { kind := .known .callback
        name := ← ps.name?
        type := some (← ps.types.head?)
        arguments := ps.arguments })
  | .enumeration => do
    let values := (ps.tokensOf .string).map fun t =>
      { kind := .known .enumValue, value := some t.content : Node }
    pure (.node { kind := .known .enumeration, name := ← ps.name?, members := values })
  | .typedef => do
    pure (.node
      { kind := .known .typedef, name := ← ps.name?, type := some (← ps.types.head?) })
  | .includesStatement => ps.relation .includes
  | .implementsStatement => ps.relation .implements
  | .inheritance => do pure (.inheritance (← ps.name?))
  | .interfaceMember => do
    pure (.node { ← ps.nodes.head? with attributes := ps.extAttributes })
  | .dictionaryMember => do
    pure (.node
      { kind := .known .field
        name := ← ps.name?
        type := some (← ps.types.head?)
        isRequired := ps.has .kwRequired
        value := ps.literal?
        attributes := ps.extAttributes })
  | .const => do
    pure (.node
      { kind := .known .const
        name := ← ps.name?
        type := some (← ps.types.head?)
        value := some (← ps.literal?) })
  | .attributeMember => do
    pure (.node
      { kind := .known .attributeMember
        name := ← ps.name?
        type := some (← ps.types.head?)
        isReadonly := ps.has .kwReadonly })
  | .operation => do
    pure (.node
      { kind := .known .operation
        name := ps.name?.getD ""
        type := some (← ps.types.head?)
        arguments := ps.arguments })
  | .specialOperation => do ps.specialMember (← ps.tokens.head?).text
  | .stringifier =>
    if ps.nodes.isEmpty then
      some (.node { kind := .known .operation, special := "stringifier" })
    else ps.specialMember "stringifier"
  | .staticMember => ps.specialMember "static"
  | .constructorMember =>
    some (.node { kind := .known .constructorMember, arguments := ps.arguments })
  | .iterable => some (ps.collection .iterable)
  | .asyncIterable => some (ps.collection .asyncIterable)
  | .maplike => some (ps.collection .maplike)
  | .setlike => some (ps.collection .setlike)
  | .argumentList =>
    some (.arguments (ps.filterMap fun
      | .argument a => some a
      | _ => none))
  | .argument => do
    pure (.argument
      { name := ← ps.name?
        type := ← ps.types.head?
        isOptional := ps.has .kwOptional
        isVariadic := ps.has .ellipsis
        default := ps.literal?
        attributes := ps.extAttributes })
  | .defaultValue =>
    match ps.literal? with
    | some text => some (.literal text)
    | none => some (.literal (String.join (ps.tokens.map Token.text)))
  | .constValue => do pure (.literal (← ps.tokens.head?).text)
  | .annotatedType => do
    let type ← ps.types.head?
    pure (.type (if ps.extAttributes.isEmpty then type else type.withAttributes ps.extAttributes))
  | .type => do
    let type ← ps.types.head?
    pure (.type (if ps.has .questionMark then type.makeNullable else type))
  | .namedType => do pure (.type (.named (← ps.name?) false []))
  | .genericType => do pure (.type (.generic (← ps.name?) ps.types false []))
  | .primitiveType => some (.type (.named (" ".intercalate (ps.tokens.map Token.text)) false []))
  | .unionType => some (.type (.union ps.types false []))
  | .attributeList =>
    some (.extAttributes (ps.filterMap fun
      | .extAttribute a => some a
      | _ => none))
  | .plainAttribute => do pure (.extAttribute { name := (← ps.tokens.head?).text })
  | .callAttribute => do
    pure (.extAttribute { name := (← ps.tokens.head?).text, arguments := some ps.arguments })
  | .namedCallAttribute => do
    let value := ⟨.identifier, .text (← ps.names[1]?)⟩
    pure (.extAttribute
      { name := (← ps.tokens.head?).text, value := some value, arguments := some ps.arguments })
  | .valueAttribute => do
    pure (.extAttribute
      { name := (← ps.tokens.head?).text, value := some (← ps.attributeValue?) })
  | .identifierValue => do pure (Pieces.textValue .identifier (← ps.name?))
  | .identifierListValue => some (.attributeValue ⟨.identifierList, .list ps.names⟩)
  | .wildcardValue => some (Pieces.textValue .wildcard "*")
  | .stringValue => do pure (Pieces.textValue .string (← ps.tokens.head?).content)
  | .numberValue => do pure (Pieces.textValue .number (← ps.tokens.head?).text)

/-- The text that some tokens were read from, from the start of the first to the end of the last. -/
def fragmentOf : List Token → String
  | [] => ""
  | first :: rest => first.text ++ String.join (rest.map fun t => t.layout ++ t.text)

/-- Records the text of a definition in it. -/
def Piece.withFragment (fragment : String) : Piece → Piece
  | .node n => .node { n with fragment := fragment }
  | piece => piece

mutual

/-- What a tree means. -/
def meaning : ParseTree Token → Option Pieces
  | .leaf token => some [.token token]
  | .node production children => do
    let ps ← meaningOfAll children
    match ← constructs[production]? with
    | .part => pure ps
    | .definition => do
      let piece ← Construct.definition.combine ps
      pure [piece.withFragment (fragmentOf (ParseTree.tokensOfAll children))]
    | construct => do pure [← construct.combine ps]

/-- What several trees mean. -/
def meaningOfAll : List (ParseTree Token) → Option Pieces
  | [] => some []
  | tree :: rest => do pure ((← meaning tree) ++ (← meaningOfAll rest))

end

/-- The definitions that a parse tree stands for. -/
def definitionsOf (tree : ParseTree Token) : Option (List Node) :=
  (meaning tree).map Pieces.nodes

end WebSpec.Idl
