import WebSpec.Proofs.Idl.Bare
import WebSpec.Proofs.Idl.Lexeme

/-!
# Printing interface definitions

`print` writes definitions as a text, word by word with one space between two words. A name has an
underscore in front, so that no name is taken for a keyword; the name of an extended attribute is
written as it is, and so are the words of primitive types and of values.

Not every tree can be written. `TypeExpr.WellFormed`, `ExtAttribute.WellFormed` and
`Argument.WellFormed` follow the grammar of the parts that refer to each other; `Node.IsMember`,
`Node.IsField` and `Node.IsDefinition` follow the grammar of what is made of them. They say nothing
about fragments, which are not written.
-/

namespace WebSpec.Idl

/-! ### Words -/

/-- A name that is not taken for a keyword. -/
def escape (name : String) : String :=
  "_" ++ name

/-- A text in quotes. -/
def quoted (content : String) : String :=
  "\"" ++ content ++ "\""

/-- A word that may be left out. -/
def flag (isSet : Bool) (word : String) : List String :=
  if isSet then [word] else []

/-- What is written in several words each, with a separator between two of them. -/
def separated (separator : String) : List (List String) → List String
  | [] => []
  | first :: rest => first ++ rest.flatMap (separator :: ·)

/-- Arguments between their parentheses. -/
def argumentWords (arguments : List (List String)) : List String :=
  "(" :: (separated "," arguments ++ [")"])

/-- Extended attributes between their brackets, which are left out where there are none. -/
def attributeWords : List (List String) → List String
  | [] => []
  | attributes => "[" :: (separated "," attributes ++ ["]"])

/-- The types that are written in words of their own. -/
def primitiveTypes : List (List String) :=
  [["short"], ["unsigned", "short"], ["long"], ["unsigned", "long"], ["long", "long"],
   ["unsigned", "long", "long"], ["float"], ["unrestricted", "float"], ["double"],
   ["unrestricted", "double"]]

/-- A type by its name. -/
def typeNameWords (name : String) : List String :=
  (primitiveTypes.find? fun words => " ".intercalate words = name).getD [escape name]

/-- A value that something has by default. -/
def defaultWords : Option String → List String
  | none => []
  | some text =>
    "=" ::
      if text = "[]" then ["[", "]"]
      else if text = "\x7b\x7d" then ["\x7b", "\x7d"]
      else [text]

/-- The value of an extended attribute. -/
def AttributeValue.words (v : AttributeValue) : List String :=
  match v.form, v.content with
  | .identifier, .text name => [escape name]
  | .identifierList, .list names => argumentWords (names.map fun name => [escape name])
  | .string, .text content => [quoted content]
  | _, .text text => [text]
  | _, .list _ => []

mutual

/-- A type with its extended attributes. -/
def TypeExpr.words : TypeExpr → List String
  | .named name isNullable attributes =>
    attributeWords (ExtAttribute.listWords attributes) ++
      (typeNameWords name ++ flag isNullable "?")
  | .generic name parameters isNullable attributes =>
    attributeWords (ExtAttribute.listWords attributes) ++
      (escape name :: "<" :: (separated "," (TypeExpr.listWords parameters) ++ [">"]) ++
        flag isNullable "?")
  | .union members isNullable attributes =>
    attributeWords (ExtAttribute.listWords attributes) ++
      ("(" :: (separated "or" (TypeExpr.listWords members) ++ [")"]) ++ flag isNullable "?")

/-- Several types. -/
def TypeExpr.listWords : List TypeExpr → List (List String)
  | [] => []
  | type :: rest => type.words :: TypeExpr.listWords rest

/-- An extended attribute. -/
def ExtAttribute.words : ExtAttribute → List String
  | ⟨name, value, arguments⟩ =>
    name ::
      ((match value with
        | none => []
        | some v => "=" :: v.words) ++
      match arguments with
      | none => []
      | some arguments => argumentWords (Argument.listWords arguments))

/-- Several extended attributes. -/
def ExtAttribute.listWords : List ExtAttribute → List (List String)
  | [] => []
  | attr :: rest => attr.words :: ExtAttribute.listWords rest

/-- An argument. -/
def Argument.words : Argument → List String
  | ⟨name, type, isOptional, isVariadic, default, attributes⟩ =>
    attributeWords (ExtAttribute.listWords attributes) ++
      (flag isOptional "optional" ++
        (type.words ++ (flag isVariadic "..." ++ escape name :: defaultWords default)))

/-- Several arguments. -/
def Argument.listWords : List Argument → List (List String)
  | [] => []
  | argument :: rest => argument.words :: Argument.listWords rest

end

@[simp] theorem TypeExpr.listWords_eq_map (types : List TypeExpr) :
    TypeExpr.listWords types = types.map TypeExpr.words := by
  induction types with
  | nil => rfl
  | cons type rest ih => rw [TypeExpr.listWords, ih, List.map_cons]

@[simp] theorem ExtAttribute.listWords_eq_map (attributes : List ExtAttribute) :
    ExtAttribute.listWords attributes = attributes.map ExtAttribute.words := by
  induction attributes with
  | nil => rfl
  | cons attr rest ih => rw [ExtAttribute.listWords, ih, List.map_cons]

@[simp] theorem Argument.listWords_eq_map (arguments : List Argument) :
    Argument.listWords arguments = arguments.map Argument.words := by
  induction arguments with
  | nil => rfl
  | cons argument rest ih => rw [Argument.listWords, ih, List.map_cons]

/-- The types between `<` and `>`. -/
def elementWords (types : List TypeExpr) : List String :=
  "<" :: (separated "," (types.map TypeExpr.words) ++ [">"])

/-- The name of what a definition inherits from, if there is one. -/
def inheritanceWords : Option String → List String
  | none => []
  | some base => [":", escape base]

namespace Node

variable (node : Node)

/-- The type of a node, if it has one. -/
def typeWords : List String :=
  node.type.elim [] TypeExpr.words

/-- The arguments of a node. -/
def parameterWords : List String :=
  argumentWords (node.arguments.map Argument.words)

/-- What is special about a member. -/
def specialWords : List String :=
  flag (node.special != "") node.special

/-- A member without its extended attributes. -/
def memberBodyWords : List String :=
  match node.kind with
  | .known .const =>
    "const" :: (node.typeWords ++ escape node.name :: "=" :: (node.value.toList ++ [";"]))
  | .known .attributeMember =>
    node.specialWords ++ (flag node.isReadonly "readonly" ++
      "attribute" :: (node.typeWords ++ [escape node.name, ";"]))
  | .known .operation =>
    node.specialWords ++
      if node.type.isNone then [";"]
      else node.typeWords ++ (flag (node.name != "") (escape node.name) ++
        (node.parameterWords ++ [";"]))
  | .known .constructorMember => "constructor" :: (node.parameterWords ++ [";"])
  | .known .iterable => "iterable" :: (elementWords node.typeArguments ++ [";"])
  | .known .asyncIterable =>
    "async" :: "iterable" :: (elementWords node.typeArguments ++
      ((if node.arguments.isEmpty then [] else node.parameterWords) ++ [";"]))
  | .known .maplike =>
    flag node.isReadonly "readonly" ++ "maplike" :: (elementWords node.typeArguments ++ [";"])
  | .known .setlike =>
    flag node.isReadonly "readonly" ++ "setlike" :: (elementWords node.typeArguments ++ [";"])
  | _ => []

/-- The extended attributes of a node. -/
def attributeWords : List String :=
  Idl.attributeWords (node.attributes.map ExtAttribute.words)

/-- A member of an interface. -/
def memberWords : List String :=
  node.attributeWords ++ node.memberBodyWords

/-- A field of a dictionary. -/
def fieldWords : List String :=
  node.attributeWords ++ (flag node.isRequired "required" ++
    (node.typeWords ++ escape node.name :: (defaultWords node.value ++ [";"])))

/-- The body of a definition with members. -/
def bodyWords (members : List (List String)) : List String :=
  "\x7b" :: (members.flatten ++ ["\x7d", ";"])

/-- A definition without its extended attributes. -/
def definitionBodyWords : List String :=
  match node.kind with
  | .known .interface =>
    (flag node.isPartial "partial" ++
        "interface" :: escape node.name :: inheritanceWords node.inheritance) ++
      bodyWords (node.members.map memberWords)
  | .known .interfaceMixin =>
    (flag node.isPartial "partial" ++ ["interface", "mixin", escape node.name]) ++
      bodyWords (node.members.map memberWords)
  | .known .callbackInterface =>
    ("callback" :: "interface" :: escape node.name :: inheritanceWords node.inheritance) ++
      bodyWords (node.members.map memberWords)
  | .known .callback =>
    "callback" :: escape node.name :: "=" :: (node.typeWords ++ (node.parameterWords ++ [";"]))
  | .known .namespaceDefinition =>
    (flag node.isPartial "partial" ++ ["namespace", escape node.name]) ++
      bodyWords (node.members.map memberWords)
  | .known .dictionary =>
    (flag node.isPartial "partial" ++
        "dictionary" :: escape node.name :: inheritanceWords node.inheritance) ++
      bodyWords (node.members.map fieldWords)
  | .known .enumeration =>
    "enum" :: escape node.name :: "\x7b" ::
      (separated "," (node.members.map fun m => [quoted (m.value.getD "")]) ++ ["\x7d", ";"])
  | .known .typedef => "typedef" :: (node.typeWords ++ [escape node.name, ";"])
  | .known .includes => [escape node.target, "includes", escape node.includes, ";"]
  | .known .implements => [escape node.target, "implements", escape node.includes, ";"]
  | _ => []

/-- A definition. -/
def words : List String :=
  node.attributeWords ++ node.definitionBodyWords

end Node

/-- Definitions as a text. -/
def print (definitions : List Node) : String :=
  " ".intercalate (definitions.flatMap Node.words)

/-! ### What can be written -/

/-- The text is the value of a constant. -/
def IsConstValue (text : String) : Prop :=
  text ∈ ["true", "false", "-Infinity", "Infinity", "NaN"] ∨ IsInteger text.toList ∨
    IsDecimal text.toList

/-- The text is a value that something has by default. -/
inductive IsDefaultValue : String → Prop where
  | const {text : String} (h : IsConstValue text) : IsDefaultValue text
  | quoted {content : String} (unquoted : '"' ∉ content.toList) : IsDefaultValue (quoted content)
  | word {text : String} (h : text ∈ ["null", "undefined", "[]", "\x7b\x7d"]) :
      IsDefaultValue text

/-- Values of extended attributes that can be written. -/
inductive AttributeValue.WellFormed : AttributeValue → Prop where
  | identifier {name : String} (hn : isName name.toList) : WellFormed ⟨.identifier, .text name⟩
  | identifierList {names : List String} (filled : names ≠ [])
      (hn : ∀ name ∈ names, isName name.toList) : WellFormed ⟨.identifierList, .list names⟩
  | wildcard : WellFormed ⟨.wildcard, .text "*"⟩
  | string {content : String} (unquoted : '"' ∉ content.toList) :
      WellFormed ⟨.string, .text content⟩
  | number {number : String} (hn : IsInteger number.toList ∨ IsDecimal number.toList) :
      WellFormed ⟨.number, .text number⟩

mutual

/-- Types that can be written. -/
inductive TypeExpr.WellFormed : TypeExpr → Prop where
  | primitive {words : List String} {isNullable : Bool} {attributes : List ExtAttribute}
      (known : words ∈ primitiveTypes)
      (ha : ∀ attr ∈ attributes, ExtAttribute.WellFormed attr) :
      TypeExpr.WellFormed (.named (" ".intercalate words) isNullable attributes)
  | named {name : String} {isNullable : Bool} {attributes : List ExtAttribute}
      (hn : isName name.toList) (ha : ∀ attr ∈ attributes, ExtAttribute.WellFormed attr) :
      TypeExpr.WellFormed (.named name isNullable attributes)
  | generic {name : String} {parameters : List TypeExpr} {isNullable : Bool}
      {attributes : List ExtAttribute} (hn : isName name.toList) (filled : parameters ≠ [])
      (hp : ∀ parameter ∈ parameters, TypeExpr.WellFormed parameter)
      (ha : ∀ attr ∈ attributes, ExtAttribute.WellFormed attr) :
      TypeExpr.WellFormed (.generic name parameters isNullable attributes)
  | union {members : List TypeExpr} {isNullable : Bool} {attributes : List ExtAttribute}
      (several : 2 ≤ members.length) (hm : ∀ member ∈ members, TypeExpr.WellFormed member)
      (ha : ∀ attr ∈ attributes, ExtAttribute.WellFormed attr) :
      TypeExpr.WellFormed (.union members isNullable attributes)

/-- Extended attributes that can be written. -/
inductive ExtAttribute.WellFormed : ExtAttribute → Prop where
  | plain {name : String} (hn : isIdentifier name.toList) :
      ExtAttribute.WellFormed ⟨name, none, none⟩
  | call {name : String} {arguments : List Argument} (hn : isIdentifier name.toList)
      (ha : ∀ argument ∈ arguments, Argument.WellFormed argument) :
      ExtAttribute.WellFormed ⟨name, none, some arguments⟩
  | namedCall {name callee : String} {arguments : List Argument} (hn : isIdentifier name.toList)
      (hc : isName callee.toList) (ha : ∀ argument ∈ arguments, Argument.WellFormed argument) :
      ExtAttribute.WellFormed ⟨name, some ⟨.identifier, .text callee⟩, some arguments⟩
  | value {name : String} {value : AttributeValue} (hn : isIdentifier name.toList)
      (hv : AttributeValue.WellFormed value) : ExtAttribute.WellFormed ⟨name, some value, none⟩

/-- Arguments that can be written. Only an optional argument has a default and a type with extended
attributes, and only one that is not optional is variadic. -/
inductive Argument.WellFormed : Argument → Prop where
  | optional {name : String} {type : TypeExpr} {default : Option String}
      {attributes : List ExtAttribute} (hn : isName name.toList) (ht : TypeExpr.WellFormed type)
      (hd : ∀ text ∈ default, IsDefaultValue text)
      (ha : ∀ attr ∈ attributes, ExtAttribute.WellFormed attr) :
      Argument.WellFormed ⟨name, type, true, false, default, attributes⟩
  | required {name : String} {type : TypeExpr} {isVariadic : Bool}
      {attributes : List ExtAttribute} (hn : isName name.toList) (ht : TypeExpr.WellFormed type)
      (plain : type.attributes = []) (ha : ∀ attr ∈ attributes, ExtAttribute.WellFormed attr) :
      Argument.WellFormed ⟨name, type, false, isVariadic, none, attributes⟩

end

namespace Node

/-- Members of interfaces that can be written, without their extended attributes. -/
inductive MemberBody : Node → Prop where
  | const {name value : String} {type : TypeExpr} (hn : isName name.toList) (ht : type.WellFormed)
      (plain : type.attributes = []) (hv : IsConstValue value) :
      MemberBody { kind := .known .const, name, type := some type, value := some value }
  | attributeMember {name special : String} {type : TypeExpr} {isReadonly : Bool}
      (hn : isName name.toList) (ht : type.WellFormed)
      (hs : special ∈ ["", "static", "stringifier"]) :
      MemberBody { kind := .known .attributeMember, name, type := some type, isReadonly, special }
  | operation {name special : String} {type : TypeExpr} {arguments : List Argument}
      (hn : name = "" ∨ isName name.toList) (ht : type.WellFormed) (plain : type.attributes = [])
      (ha : ∀ argument ∈ arguments, argument.WellFormed)
      (hs : special ∈ ["", "getter", "setter", "deleter", "static", "stringifier"]) :
      MemberBody { kind := .known .operation, name, type := some type, arguments, special }
  | stringifier : MemberBody { kind := .known .operation, special := "stringifier" }
  | constructorMember {arguments : List Argument}
      (ha : ∀ argument ∈ arguments, argument.WellFormed) :
      MemberBody { kind := .known .constructorMember, arguments }
  | iterable {types : List TypeExpr} (filled : types ≠ []) (most : types.length ≤ 2)
      (ht : ∀ type ∈ types, type.WellFormed) :
      MemberBody { kind := .known .iterable, typeArguments := types }
  | asyncIterable {types : List TypeExpr} {arguments : List Argument} (filled : types ≠ [])
      (most : types.length ≤ 2) (ht : ∀ type ∈ types, type.WellFormed)
      (ha : ∀ argument ∈ arguments, argument.WellFormed) :
      MemberBody { kind := .known .asyncIterable, typeArguments := types, arguments }
  | maplike {key value : TypeExpr} {isReadonly : Bool} (hk : key.WellFormed)
      (hv : value.WellFormed) :
      MemberBody { kind := .known .maplike, typeArguments := [key, value], isReadonly }
  | setlike {element : TypeExpr} {isReadonly : Bool} (he : element.WellFormed) :
      MemberBody { kind := .known .setlike, typeArguments := [element], isReadonly }

/-- Members of interfaces that can be written. -/
def IsMember (node : Node) : Prop :=
  MemberBody { node with attributes := [] } ∧ ∀ attr ∈ node.attributes, attr.WellFormed

/-- Fields of dictionaries that can be written. Only a required field has a type with extended
attributes, and only one that is not required has a default. -/
inductive IsField : Node → Prop where
  | required {name : String} {type : TypeExpr} {attributes : List ExtAttribute}
      (hn : isName name.toList) (ht : type.WellFormed)
      (ha : ∀ attr ∈ attributes, attr.WellFormed) :
      IsField { kind := .known .field, name, type := some type, isRequired := true, attributes }
  | optional {name : String} {type : TypeExpr} {default : Option String}
      {attributes : List ExtAttribute} (hn : isName name.toList) (ht : type.WellFormed)
      (plain : type.attributes = []) (hd : ∀ text ∈ default, IsDefaultValue text)
      (ha : ∀ attr ∈ attributes, attr.WellFormed) :
      IsField { kind := .known .field, name, type := some type, value := default, attributes }

/-- Definitions that can be written, without their extended attributes and without fragments. -/
inductive DefinitionBody : Node → Prop where
  | interface {name : String} {isPartial : Bool} {inheritance : Option String}
      {members : List Node} (hn : isName name.toList)
      (hi : ∀ base ∈ inheritance, isName base.toList) (hm : ∀ m ∈ members, m.IsMember) :
      DefinitionBody { kind := .known .interface, name, isPartial, inheritance, members }
  | mixin {name : String} {isPartial : Bool} {members : List Node} (hn : isName name.toList)
      (hm : ∀ m ∈ members, m.IsMember) :
      DefinitionBody { kind := .known .interfaceMixin, name, isPartial, members }
  | callbackInterface {name : String} {inheritance : Option String} {members : List Node}
      (hn : isName name.toList) (hi : ∀ base ∈ inheritance, isName base.toList)
      (hm : ∀ m ∈ members, m.IsMember) :
      DefinitionBody { kind := .known .callbackInterface, name, inheritance, members }
  | callback {name : String} {type : TypeExpr} {arguments : List Argument}
      (hn : isName name.toList) (ht : type.WellFormed) (plain : type.attributes = [])
      (ha : ∀ argument ∈ arguments, argument.WellFormed) :
      DefinitionBody { kind := .known .callback, name, type := some type, arguments }
  | namespaceDefinition {name : String} {isPartial : Bool} {members : List Node}
      (hn : isName name.toList) (hm : ∀ m ∈ members, m.IsMember) :
      DefinitionBody { kind := .known .namespaceDefinition, name, isPartial, members }
  | dictionary {name : String} {isPartial : Bool} {inheritance : Option String}
      {fields : List Node} (hn : isName name.toList)
      (hi : ∀ base ∈ inheritance, isName base.toList) (hf : ∀ field ∈ fields, field.IsField) :
      DefinitionBody { kind := .known .dictionary, name, isPartial, inheritance, members := fields }
  | enumeration {name : String} {values : List String} (hn : isName name.toList)
      (filled : values ≠ []) (unquoted : ∀ value ∈ values, '"' ∉ value.toList) :
      DefinitionBody
        { kind := .known .enumeration, name,
          members := values.map fun value => { kind := .known .enumValue, value := some value } }
  | typedef {name : String} {type : TypeExpr} (hn : isName name.toList) (ht : type.WellFormed) :
      DefinitionBody { kind := .known .typedef, name, type := some type }
  | includes {target included : String} (ht : isName target.toList) (hi : isName included.toList) :
      DefinitionBody { kind := .known .includes, target, includes := included }
  | implements {target included : String} (ht : isName target.toList)
      (hi : isName included.toList) :
      DefinitionBody { kind := .known .implements, target, includes := included }

/-- Definitions that can be written, whatever their fragments are. -/
def IsDefinition (node : Node) : Prop :=
  DefinitionBody { node.bare with attributes := [] } ∧ ∀ attr ∈ node.attributes, attr.WellFormed

/-! ### Fragments are not written -/

theorem memberWords_bare (node : Node) : node.bare.memberWords = node.memberWords := by
  cases node
  rfl

theorem fieldWords_bare (node : Node) : node.bare.fieldWords = node.fieldWords := by
  cases node
  rfl

theorem value_bare (node : Node) : node.bare.value = node.value := by
  cases node
  rfl

theorem definitionBodyWords_bare (node : Node) :
    definitionBodyWords { node.bare with attributes := [] } = node.definitionBodyWords := by
  cases node
  simp only [definitionBodyWords, bare, bareAll_eq_map, List.map_map, Function.comp_def,
    memberWords_bare, fieldWords_bare, value_bare]
  rfl

end Node

end WebSpec.Idl
