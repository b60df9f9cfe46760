import WebSpec.Proofs.Idl.Printing

/-!
# What a text says and what its definitions say

Of the tokens of a text, some say something that its definitions keep: names, quoted texts and
numbers, the words of primitive types, and the words of values. `sites` lists the tokens of a tree,
each with the construct that it is a part of, and `Site.payload` is what a token says there.

`Node.payload` reads the same off a node: its extended attributes first, and then its names, types,
arguments, values and members in the order in which the grammar writes them.
-/

namespace WebSpec.Idl

open ContextFree (ParseTree)

/-! ### Tokens -/

namespace Construct

/-- Whether a construct keeps all of its tokens. -/
def isVerbatim : Construct → Bool
  | .primitiveType | .constValue | .defaultValue => true
  | _ => false

/-- Whether a construct is an extended attribute, which begins with a name of its own. -/
def isAttribute : Construct → Bool
  | .plainAttribute | .callAttribute | .namedCallAttribute | .valueAttribute => true
  | _ => false

end Construct

/-- A token in a tree. -/
structure Site where
  /-- The construct that the token is a part of. -/
  construct : Construct
  /-- Whether the token is the own name of an extended attribute. -/
  isOwnName : Bool
  token : Token

/-- What a token says. A name has no underscore in front, unless it is the own name of an extended
attribute, and a quoted text no quotes. -/
def Site.payload (p : Site) : List String :=
  match p.token.terminal with
  | .identifier => [if p.isOwnName then p.token.text else p.token.name]
  | .string => [p.token.content]
  | .integer | .decimal => [p.token.text]
  | _ => if p.construct.isVerbatim then [p.token.text] else []

/-- The construct that the children of a node are parts of. -/
def innermost (around : Construct) (found : Option Construct) : Construct :=
  match found with
  | none | some .part => around
  | some construct => construct

/-- Makes the first token the own name of an extended attribute. -/
def nameFirst : List Site → List Site
  | [] => []
  | first :: rest => { first with isOwnName := true } :: rest

mutual

/-- The tokens of a tree that is a part of a construct, from left to right. -/
def sites (around : Construct) : ParseTree Token → List Site
  | .leaf token => [⟨around, false, token⟩]
  | .node production children =>
    let inside := sitesOfAll (innermost around constructs[production]?) children
    if constructs[production]?.any Construct.isAttribute then nameFirst inside else inside

/-- The tokens of several trees, from left to right. -/
def sitesOfAll (around : Construct) : List (ParseTree Token) → List Site
  | [] => []
  | tree :: rest => sites around tree ++ sitesOfAll around rest

end

theorem map_token_nameFirst (ps : List Site) :
    (nameFirst ps).map Site.token = ps.map Site.token := by
  cases ps <;> rfl

mutual

/-- They are all tokens of the tree. -/
theorem map_token_sites : ∀ (around : Construct) (tree : ParseTree Token),
    (sites around tree).map Site.token = tree.tokens
  | around, .leaf token => rfl
  | around, .node production children => by
    have inside := map_token_sitesOfAll (innermost around constructs[production]?) children
    simp only [sites, ParseTree.tokens]
    split_ifs
    · rw [map_token_nameFirst, inside]
    · exact inside

theorem map_token_sitesOfAll : ∀ (around : Construct) (trees : List (ParseTree Token)),
    (sitesOfAll around trees).map Site.token = ParseTree.tokensOfAll trees
  | around, [] => rfl
  | around, tree :: rest => by
    rw [sitesOfAll, List.map_append, map_token_sites around tree,
      map_token_sitesOfAll around rest, ParseTree.tokensOfAll]

end

/-! ### Types, arguments and extended attributes -/

/-- A name, if it is not empty. -/
def namePayload (name : String) : List String :=
  if name = "" then [] else [name]

/-- The words of the name of a type. -/
def typeNamePayload (name : String) : List String :=
  (primitiveTypes.find? fun words => " ".intercalate words = name).getD [name]

/-- The words of a value, without the quotes of a quoted text. -/
def valuePayload (text : String) : List String :=
  if text = "[]" then ["[", "]"]
  else if text = "\x7b\x7d" then ["\x7b", "\x7d"]
  else
    match text.toList with
    | '"' :: rest => [String.ofList rest.dropLast]
    | _ => [text]

/-- The value of an extended attribute; the wildcard says nothing. -/
def AttributeValue.payload (v : AttributeValue) : List String :=
  match v.form, v.content with
  | .wildcard, _ => []
  | _, .text text => [text]
  | _, .list items => items

mutual

/-- What a type says. -/
def TypeExpr.payload : TypeExpr → List String
  | .named name _ attributes => ExtAttribute.payloadOfAll attributes ++ typeNamePayload name
  | .generic name parameters _ attributes =>
    ExtAttribute.payloadOfAll attributes ++ name :: TypeExpr.payloadOfAll parameters
  | .union members _ attributes =>
    ExtAttribute.payloadOfAll attributes ++ TypeExpr.payloadOfAll members

/-- What several types say. -/
def TypeExpr.payloadOfAll : List TypeExpr → List String
  | [] => []
  | type :: rest => type.payload ++ TypeExpr.payloadOfAll rest

/-- What an extended attribute says. -/
def ExtAttribute.payload : ExtAttribute → List String
  | ⟨name, value, arguments⟩ =>
    name :: (value.elim [] AttributeValue.payload ++
      match arguments with
      | none => []
      | some arguments => Argument.payloadOfAll arguments)

/-- What several extended attributes say. -/
def ExtAttribute.payloadOfAll : List ExtAttribute → List String
  | [] => []
  | attr :: rest => attr.payload ++ ExtAttribute.payloadOfAll rest

/-- What an argument says. -/
def Argument.payload : Argument → List String
  | ⟨name, type, _, _, default, attributes⟩ =>
    ExtAttribute.payloadOfAll attributes ++
      (type.payload ++ name :: default.elim [] valuePayload)

/-- What several arguments say. -/
def Argument.payloadOfAll : List Argument → List String
  | [] => []
  | argument :: rest => argument.payload ++ Argument.payloadOfAll rest

end

@[simp] theorem TypeExpr.payloadOfAll_eq_flatMap (types : List TypeExpr) :
    TypeExpr.payloadOfAll types = types.flatMap TypeExpr.payload := by
  induction types with
  | nil => rfl
  | cons type rest ih => rw [TypeExpr.payloadOfAll, ih, List.flatMap_cons]

@[simp] theorem ExtAttribute.payloadOfAll_eq_flatMap (attributes : List ExtAttribute) :
    ExtAttribute.payloadOfAll attributes = attributes.flatMap ExtAttribute.payload := by
  induction attributes with
  | nil => rfl
  | cons attr rest ih => rw [ExtAttribute.payloadOfAll, ih, List.flatMap_cons]

@[simp] theorem Argument.payloadOfAll_eq_flatMap (arguments : List Argument) :
    Argument.payloadOfAll arguments = arguments.flatMap Argument.payload := by
  induction arguments with
  | nil => rfl
  | cons argument rest ih => rw [Argument.payloadOfAll, ih, List.flatMap_cons]

@[simp] theorem TypeExpr.payload_makeNullable (type : TypeExpr) :
    type.makeNullable.payload = type.payload := by
  cases type <;> rfl

/-- Extended attributes come before the type. -/
theorem TypeExpr.payload_withAttributes {type : TypeExpr} (h : type.attributes = [])
    (attributes : List ExtAttribute) :
    (type.withAttributes attributes).payload =
      attributes.flatMap ExtAttribute.payload ++ type.payload := by
  cases type <;> obtain rfl := h <;> simp [withAttributes, payload]

/-! ### Nodes -/

/-- Whether the name of such a node is written before everything else but its attributes. -/
def NodeKind.beginsWithName : NodeKind → Bool
  | .interface | .interfaceMixin | .dictionary | .namespaceDefinition | .callback
  | .callbackInterface | .enumeration => true
  | _ => false

/-- The value of a node. The value of an enumeration is a text as it is, any other value is written
as in the text. -/
def Kind.valuePayload (kind : Kind) (text : String) : List String :=
  if kind.meaning? = some .enumValue then [text] else Idl.valuePayload text

namespace Node

mutual

/-- What a node says. -/
def payload : Node → List String
  | ⟨kind, name, _, inheritance, members, attributes, arguments, type, typeArguments, _, _, _,
      value, target, includes, _⟩ =>
    let named := kind.meaning?.any NodeKind.beginsWithName
    attributes.flatMap ExtAttribute.payload ++
      ((if named then namePayload name else []) ++
      (inheritance.toList ++
      (type.elim [] TypeExpr.payload ++
      (typeArguments.flatMap TypeExpr.payload ++
      ((if named then [] else namePayload name) ++
      (arguments.flatMap Argument.payload ++
      (value.elim [] kind.valuePayload ++
      (namePayload target ++ (namePayload includes ++ payloadOfAll members)))))))))

/-- What several nodes say. -/
def payloadOfAll : List Node → List String
  | [] => []
  | node :: rest => node.payload ++ payloadOfAll rest

end

@[simp] theorem payloadOfAll_eq_flatMap (nodes : List Node) :
    payloadOfAll nodes = nodes.flatMap payload := by
  induction nodes with
  | nil => rfl
  | cons node rest ih => rw [payloadOfAll, ih, List.flatMap_cons]

mutual

/-- Fragments say nothing. -/
theorem payload_bare : ∀ node : Node, node.bare.payload = node.payload
  | ⟨_, _, _, _, members, _, _, _, _, _, _, _, _, _, _, _⟩ => by
    rw [bare, payload, payload, payloadOfAll_bareAll members]

theorem payloadOfAll_bareAll : ∀ nodes : List Node,
    payloadOfAll (bareAll nodes) = payloadOfAll nodes
  | [] => rfl
  | node :: rest => by
    rw [bareAll, payloadOfAll, payloadOfAll, payload_bare node, payloadOfAll_bareAll rest]

end

@[simp] theorem payload_withFragment (node : Node) (fragment : String) :
    payload { node with fragment := fragment } = node.payload := by
  cases node
  rfl

@[simp] theorem payload_withSpecial (node : Node) (special : String) :
    payload { node with special := special } = node.payload := by
  cases node
  rfl

/-- Extended attributes come before the node. -/
theorem payload_withAttributes {node : Node} (h : node.attributes = [])
    (attributes : List ExtAttribute) :
    payload { node with attributes := attributes } =
      attributes.flatMap ExtAttribute.payload ++ node.payload := by
  cases node
  obtain rfl := h
  simp [payload]

end Node

end WebSpec.Idl
