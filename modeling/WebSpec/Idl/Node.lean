import WebSpec.Json
import WebSpec.Text.Quoted

/-!
# Interface definitions

The tree that an interface definition stands for. A `Node` is a definition or a member of one: it
has a kind and those of the other fields that its kind uses. Types, arguments and extended
attributes refer to each other: a type may have attributes, an attribute arguments, and an argument
a type.

Trees come from a text or are built by hand. A tree built by hand may have any kind, even a text
that is no kind at all, and any combination of fields.

`toJson` writes a tree in its published form, in which fields that are empty are left out.
-/

namespace WebSpec.Idl

/-! ### Kinds -/

/-- The kinds of definitions and members. -/
inductive NodeKind where
  | interface | interfaceMixin | dictionary | namespaceDefinition | callback | callbackInterface
  | enumeration | enumValue | typedef | operation | constructorMember | attributeMember | const
  | field | includes | implements | iterable | asyncIterable | maplike | setlike
  deriving DecidableEq, Repr

namespace NodeKind

/-- How a kind is written. -/
def text : NodeKind → String
  | .interface => "interface"
  | .interfaceMixin => "interface mixin"
  | .dictionary => "dictionary"
  | .namespaceDefinition => "namespace"
  | .callback => "callback"
  | .callbackInterface => "callback interface"
  | .enumeration => "enum"
  | .enumValue => "enum-value"
  | .typedef => "typedef"
  | .operation => "operation"
  | .constructorMember => "constructor"
  | .attributeMember => "attribute"
  | .const => "const"
  | .field => "field"
  | .includes => "includes"
  | .implements => "implements"
  | .iterable => "iterable"
  | .asyncIterable => "async iterable"
  | .maplike => "maplike"
  | .setlike => "setlike"

/-- How messages refer to a kind. -/
def label : NodeKind → String
  | .interface => "NodeKind.INTERFACE"
  | .interfaceMixin => "NodeKind.INTERFACE_MIXIN"
  | .dictionary => "NodeKind.DICTIONARY"
  | .namespaceDefinition => "NodeKind.NAMESPACE"
  | .callback => "NodeKind.CALLBACK"
  | .callbackInterface => "NodeKind.CALLBACK_INTERFACE"
  | .enumeration => "NodeKind.ENUM"
  | .enumValue => "NodeKind.ENUM_VALUE"
  | .typedef => "NodeKind.TYPEDEF"
  | .operation => "NodeKind.OPERATION"
  | .constructorMember => "NodeKind.CONSTRUCTOR"
  | .attributeMember => "NodeKind.ATTRIBUTE"
  | .const => "NodeKind.CONST"
  | .field => "NodeKind.FIELD"
  | .includes => "NodeKind.INCLUDES"
  | .implements => "NodeKind.IMPLEMENTS"
  | .iterable => "NodeKind.ITERABLE"
  | .asyncIterable => "NodeKind.ASYNC_ITERABLE"
  | .maplike => "NodeKind.MAPLIKE"
  | .setlike => "NodeKind.SETLIKE"

/-- All kinds. -/
def all : List NodeKind :=
  [.interface, .interfaceMixin, .dictionary, .namespaceDefinition, .callback, .callbackInterface,
   .enumeration, .enumValue, .typedef, .operation, .constructorMember, .attributeMember, .const,
   .field, .includes, .implements, .iterable, .asyncIterable, .maplike, .setlike]

/-- The kind that is written as the given text. -/
def ofText? (text : String) : Option NodeKind :=
  all.find? (·.text = text)

end NodeKind

/-- The kind of a node: one of the kinds, or a text that someone gave instead. A text that spells a
kind means that kind, but messages refer to it by the text. -/
inductive Kind where
  | known (kind : NodeKind)
  | given (text : String)
  deriving DecidableEq, Repr

namespace Kind

/-- How a kind is written. -/
def text : Kind → String
  | .known kind => kind.text
  | .given text => text

/-- How messages refer to a kind. -/
def label : Kind → String
  | .known kind => kind.label
  | .given text => text

/-- What a kind means, if anything. -/
def meaning? : Kind → Option NodeKind
  | .known kind => some kind
  | .given text => NodeKind.ofText? text

end Kind

/-! ### Values of extended attributes -/

/-- The form of the value of an extended attribute. -/
inductive ValueForm where
  | identifier
  | identifierList
  | wildcard
  | string
  | number
  /-- A form that someone gave to a tree built by hand. -/
  | other (name : String)
  deriving DecidableEq, Repr

/-- How a form is written. -/
def ValueForm.text : ValueForm → String
  | .identifier => "identifier"
  | .identifierList => "identifier-list"
  | .wildcard => "wildcard"
  | .string => "string"
  | .number => "number"
  | .other name => name

/-- The form that is written as the given text. -/
def ValueForm.ofText (text : String) : ValueForm :=
  ([.identifier, .identifierList, .wildcard, .string, .number].find? fun (form : ValueForm) =>
    form.text = text).getD (.other text)

/-- What the value of an extended attribute consists of. -/
inductive ValueContent where
  | text (content : String)
  | list (items : List String)
  deriving DecidableEq, Repr

/-- The value of an extended attribute. -/
structure AttributeValue where
  form : ValueForm
  content : ValueContent
  deriving DecidableEq, Repr

/-- The names that a value stands for. A list stands for its items, where a text given as a list has
its characters as items; the wildcard stands for itself, and any other value for its text. -/
def AttributeValue.names (v : AttributeValue) : List String :=
  match v.form, v.content with
  | .identifierList, .list items => items
  | .identifierList, .text content => content.toList.map Char.toString
  | .wildcard, _ => ["*"]
  | _, .text content => [content]
  | _, .list items => [Text.quoteTuple items]

/-! ### Types, arguments and extended attributes -/

mutual

/-- A type. -/
inductive TypeExpr where
  /-- A type by its name, which may be of several words. -/
  | named (name : String) (isNullable : Bool) (attributes : List ExtAttribute)
  /-- A type with parameters. -/
  | generic (name : String) (parameters : List TypeExpr) (isNullable : Bool)
    (attributes : List ExtAttribute)
  /-- Any one of several types. -/
  | union (members : List TypeExpr) (isNullable : Bool) (attributes : List ExtAttribute)

/-- An extended attribute. -/
structure ExtAttribute where
  name : String
  value : Option AttributeValue := none
  /-- The arguments, if there is a list of them. -/
  arguments : Option (List Argument) := none

/-- An argument of an operation. -/
structure Argument where
  name : String
  type : TypeExpr
  isOptional : Bool := false
  isVariadic : Bool := false
  default : Option String := none
  attributes : List ExtAttribute := []

end

namespace TypeExpr

/-- Whether a type allows null. -/
def isNullable : TypeExpr → Bool
  | .named _ isNullable _ => isNullable
  | .generic _ _ isNullable _ => isNullable
  | .union _ isNullable _ => isNullable

/-- The extended attributes of a type. -/
def attributes : TypeExpr → List ExtAttribute
  | .named _ _ attributes => attributes
  | .generic _ _ _ attributes => attributes
  | .union _ _ attributes => attributes

/-- The same type, allowing null. -/
def makeNullable : TypeExpr → TypeExpr
  | .named name _ attributes => .named name true attributes
  | .generic name parameters _ attributes => .generic name parameters true attributes
  | .union members _ attributes => .union members true attributes

/-- The same type with other extended attributes. -/
def withAttributes (attributes : List ExtAttribute) : TypeExpr → TypeExpr
  | .named name isNullable _ => .named name isNullable attributes
  | .generic name parameters isNullable _ => .generic name parameters isNullable attributes
  | .union members isNullable _ => .union members isNullable attributes

mutual

/-- The names of the types that a type is made of, leaving out what only holds others together. -/
def leafNames : TypeExpr → List String
  | .named name _ _ => if name = "" then [] else [name]
  | .generic _ parameters _ _ => leafNamesOfAll parameters
  | .union members _ _ => leafNamesOfAll members

/-- The names of the types that several types are made of. -/
def leafNamesOfAll : List TypeExpr → List String
  | [] => []
  | type :: rest => type.leafNames ++ leafNamesOfAll rest

end

mutual

/-- A type as it is written, without its extended attributes. -/
def text : TypeExpr → String
  | .named name isNullable _ => name ++ if isNullable then "?" else ""
  | .generic name parameters isNullable _ =>
    name ++ "<" ++ ", ".intercalate (texts parameters) ++ ">" ++ if isNullable then "?" else ""
  | .union members isNullable _ =>
    "(" ++ " or ".intercalate (texts members) ++ ")" ++ if isNullable then "?" else ""

/-- Several types as they are written. -/
def texts : List TypeExpr → List String
  | [] => []
  | type :: rest => type.text :: texts rest

end

end TypeExpr

/-- The published form of a value. -/
def AttributeValue.toJson (v : AttributeValue) : Json :=
  .obj [("type", .str v.form.text),
    ("value", match v.content with
      | .text content => .str content
      | .list items => .arr (items.map .str))]

mutual

/-- The published form of a type. -/
def TypeExpr.toJson : TypeExpr → Json
  | .named name isNullable attributes =>
    .obj ([("nullable", .bool isNullable), ("idlType", .str name)] ++
      Json.listField "extAttrs" (ExtAttribute.listToJson attributes))
  | .generic name parameters isNullable attributes =>
    .obj ([("nullable", .bool isNullable), ("generic", .str name),
        ("idlType", .arr (TypeExpr.listToJson parameters))] ++
      Json.listField "extAttrs" (ExtAttribute.listToJson attributes))
  | .union members isNullable attributes =>
    .obj ([("nullable", .bool isNullable), ("union", .bool true),
        ("idlType", .arr (TypeExpr.listToJson members))] ++
      Json.listField "extAttrs" (ExtAttribute.listToJson attributes))

/-- The published forms of several types. -/
def TypeExpr.listToJson : List TypeExpr → List Json
  | [] => []
  | type :: rest => type.toJson :: TypeExpr.listToJson rest

/-- The published form of an extended attribute. -/
def ExtAttribute.toJson : ExtAttribute → Json
  | ⟨name, value, arguments⟩ =>
    .obj ([("name", .str name)] ++
      (value.map fun v => ("rhs", v.toJson)).toList ++
      match arguments with
      | none => []
      | some arguments => [("arguments", .arr (Argument.listToJson arguments))])

/-- The published forms of several extended attributes. -/
def ExtAttribute.listToJson : List ExtAttribute → List Json
  | [] => []
  | attr :: rest => attr.toJson :: ExtAttribute.listToJson rest

/-- The published form of an argument. -/
def Argument.toJson : Argument → Json
  | ⟨name, type, isOptional, isVariadic, default, attributes⟩ =>
    .obj ([("name", .str name), ("idlType", type.toJson), ("optional", .bool isOptional),
        ("variadic", .bool isVariadic)] ++
      (default.map fun text => ("default", Json.str text)).toList ++
      Json.listField "extAttrs" (ExtAttribute.listToJson attributes))

/-- The published forms of several arguments. -/
def Argument.listToJson : List Argument → List Json
  | [] => []
  | argument :: rest => argument.toJson :: Argument.listToJson rest

end

/-! ### Nodes -/

/-- A definition, or a member of one. -/
structure Node where
  kind : Kind
  name : String := ""
  /-- Whether a definition adds to another one of the same name. -/
  isPartial : Bool := false
  /-- The name of what a definition inherits from. -/
  inheritance : Option String := none
  members : List Node := []
  attributes : List ExtAttribute := []
  arguments : List Argument := []
  type : Option TypeExpr := none
  /-- What an iterable, maplike or setlike member consists of. -/
  typeArguments : List TypeExpr := []
  /-- What is special about an operation or attribute, such as `getter` or `static`. -/
  special : String := ""
  isReadonly : Bool := false
  isRequired : Bool := false
  /-- The value of an enumeration's member or a constant, or a field's default. -/
  value : Option String := none
  /-- What an includes or implements statement adds to. -/
  target : String := ""
  /-- What an includes or implements statement adds. -/
  includes : String := ""
  /-- The text of a definition. -/
  fragment : String := ""

namespace Node

/-- The first extended attribute with the given name. -/
def extAttribute? (node : Node) (name : String) : Option ExtAttribute :=
  node.attributes.find? (·.name = name)

/-- Whether a node has an extended attribute with one of the given names. -/
def hasExtAttribute (node : Node) (names : List String) : Bool :=
  node.attributes.any fun attr => names.contains attr.name

/-- The texts by which prose refers to the value of an enumeration: in quotes and without them, but
an empty value only in quotes. -/
def matchingTexts (node : Node) : List String :=
  match node.value.getD "" with
  | "" => ["\"\""]
  | text => ["\"" ++ text ++ "\"", text]

/-- A field for a text that may be missing or empty. -/
def optionalTextField (name : String) (text : Option String) : Json.Fields :=
  Json.textField name (text.getD "")

mutual

/-- The published form of a node. The fields are set one after the other: the kind of an includes or
implements statement is itself the name of a field, and type arguments take the place of a type. -/
def toJson : Node → Json
  | ⟨kind, name, isPartial, inheritance, members, attributes, arguments, type, typeArguments,
      special, isReadonly, isRequired, value, target, includes, fragment⟩ =>
    let settings : Json.Fields :=
      [("type", .str kind.text)] ++ Json.textField "name" name ++ Json.flag "partial" isPartial ++
        optionalTextField "inheritance" inheritance ++ Json.textField "target" target ++
        (if target = "" then [] else [(kind.text, .str includes)]) ++
        (type.map fun type => ("idlType", type.toJson)).toList ++
        Json.listField "idlType" (TypeExpr.listToJson typeArguments) ++
        Json.listField "arguments" (Argument.listToJson arguments) ++
        Json.textField "special" special ++ Json.flag "readonly" isReadonly ++
        Json.flag "required" isRequired ++
        (value.map fun text => ("value", Json.str text)).toList ++
        Json.listField "members" (listToJson members) ++
        Json.listField "extAttrs" (ExtAttribute.listToJson attributes) ++
        Json.textField "fragment" fragment
    .obj (settings.foldl (fun fields (name, value) => setEntry name value fields) [])

/-- The published forms of several nodes. -/
def listToJson : List Node → List Json
  | [] => []
  | node :: rest => node.toJson :: listToJson rest

end

end Node

end WebSpec.Idl
