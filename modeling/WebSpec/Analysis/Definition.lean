import WebSpec.Analysis.Ledger

/-!
# The findings of a definition

What the analysis of one definition finds, as a list of ledger entries. The list depends on the
definition and the well-known types only, not on what was found before: `definitionPlan` gives the
entries, and the name that has to be free for them to count.

`typeEntries`, `argumentEntries`, `memberEntries` and `exposureEntries` are the findings of the
parts: each type that is not well-known is a dependency, and the extended attributes of an
interface, mixin or namespace say where it is exposed, which contexts it declares and which
constructors it has.
-/

namespace WebSpec.Analysis

open Idl (Argument ExtAttribute Node NodeKind TypeExpr)

/-- The built-in types, which are no dependencies. -/
def wellKnownTypes : List String :=
  ["undefined", "void", "any", "boolean", "byte", "octet", "short", "unsigned short", "long",
   "unsigned long", "long long", "unsigned long long", "float", "unrestricted float", "double",
   "unrestricted double", "bigint",
   "DOMString", "ByteString", "USVString", "CSSOMString",
   "object", "symbol", "RegExp", "Error", "DOMException",
   "ArrayBuffer", "SharedArrayBuffer", "DataView", "Int8Array", "Int16Array", "Int32Array",
   "Uint8Array", "Uint16Array", "Uint32Array", "Uint8ClampedArray", "BigInt64Array",
   "BigUint64Array", "Float32Array", "Float64Array", "ArrayBufferView", "BufferSource",
   "AllowSharedBufferSource",
   "DOMTimeStamp", "Function", "VoidFunction"]

/-! ### Types and members -/

/-- A type that `owner` uses by its name. -/
def leafEntries (wellKnown : List String) (owner name : String) : List Entry :=
  .use name :: if wellKnown.contains name then [] else [.depend owner name]

/-- The types that `owner` uses by a type. -/
def typeEntries (wellKnown : List String) (owner : String) (type : TypeExpr) : List Entry :=
  type.leafNames.flatMap (leafEntries wellKnown owner)

/-- The types that `owner` uses by arguments. -/
def argumentEntries (wellKnown : List String) (owner : String) (arguments : List Argument) :
    List Entry :=
  arguments.flatMap fun a => typeEntries wellKnown owner a.type

/-- The types that `owner` uses by one of its members. -/
def memberEntriesOf (wellKnown : List String) (owner : String) (m : Node) : List Entry :=
  let typed := m.type.toList.flatMap (typeEntries wellKnown owner)
  let arguments := argumentEntries wellKnown owner m.arguments
  match m.kind.meaning? with
  | some .attributeMember | some .const | some .field => typed
  | some .operation => if m.special = "stringifier" then [] else typed ++ arguments
  | some .constructorMember => arguments
  | some .iterable | some .asyncIterable | some .maplike | some .setlike =>
    m.typeArguments.flatMap (typeEntries wellKnown owner) ++ arguments
  | _ => []

/-- The types that `owner` uses by the members of a node. -/
def memberEntries (wellKnown : List String) (owner : String) (node : Node) : List Entry :=
  node.members.flatMap (memberEntriesOf wellKnown owner)

/-! ### Exposure -/

/-- The contexts that a definition lists, if it lists any. -/
def listedContexts? (node : Node) : Option (List String) := do
  (← (← node.extAttribute? "Exposed").value).names

/-- The contexts that a definition is visible in. -/
def contextsOf (node : Node) : List Context :=
  match listedContexts? node with
  | some names => names.map some
  | none => [none]

/-- The findings of the contexts that a definition lists. -/
def listedEntries (node : Node) : List Entry :=
  ((listedContexts? node).getD []).flatMap fun context =>
    .listExposed context node.name ::
      if context = "*" then [] else [.depend node.name context]

/-- A global context that a definition declares: unless it is the definition's own name, it is an
alias. -/
def globalEntries (node : Node) (context : String) : List Entry :=
  .declareGlobal context node.name ::
    if context = node.name then [] else [.register context (.node node) true]

/-- The findings of the global contexts that a definition declares. -/
def declaredEntries (node : Node) : List Entry :=
  match node.extAttribute? "Global" with
  | none => []
  | some attr =>
    (attr.value.elim [node.name] (·.names)).flatMap (globalEntries node)

/-- The findings of the primary global that a definition declares. -/
def primaryEntries (node : Node) : List Entry :=
  match node.extAttribute? "PrimaryGlobal" with
  | none => []
  | some attr =>
    match attr.value.elim [node.name] (·.names) with
    | [] => [.abandon]
    | primary :: _ => .declarePrimary primary node.name :: globalEntries node primary

/-- The attributes that declare a constructor under another name. -/
def namedConstructorAttributes : List String :=
  ["NamedConstructor", "LegacyFactoryFunction"]

/-- The attributes that keep an interface object from being visible. -/
def noInterfaceObjectAttributes : List String :=
  ["NoInterfaceObject", "LegacyNoInterfaceObject"]

/-- The findings of an attribute that declares a constructor under another name. -/
def namedConstructorEntries (wellKnown : List String) (node : Node) (attr : ExtAttribute) :
    List Entry :=
  match attr.value with
  | none => [.remark (.namelessConstructor attr.name node.name)]
  | some value =>
    match value.names with
    | [] => [.abandon]
    | name :: _ =>
      [.register name (.extAttribute attr) true, .expose .constructors (contextsOf node) name] ++
        argumentEntries wellKnown node.name (attr.arguments.getD [])

/-- The findings of the constructors of a definition. `Constructor` attributes come before those
with names of their own, and these before constructor members. -/
def constructorEntries (wellKnown : List String) (node : Node) : List Entry :=
  let exposeAs (bucket : Bucket) : Entry := .expose bucket (contextsOf node) node.name
  let constructors := node.attributes.filter (·.name = "Constructor")
  let named := node.attributes.filter fun a => namedConstructorAttributes.contains a.name
  if !constructors.isEmpty then
    exposeAs .constructors :: constructors.flatMap fun attr =>
      argumentEntries wellKnown node.name (attr.arguments.getD [])
  else if !named.isEmpty then named.flatMap (namedConstructorEntries wellKnown node)
  else if node.members.any fun m => m.kind.meaning? = some .constructorMember then
    [exposeAs .constructors]
  else if node.kind.meaning? = some .interface &&
      !node.hasExtAttribute noInterfaceObjectAttributes then
    [exposeAs .functions]
  else []

/-- The findings of the extended attributes of a definition. -/
def exposureEntries (wellKnown : List String) (node : Node) : List Entry :=
  listedEntries node ++ declaredEntries node ++ primaryEntries node ++
    constructorEntries wellKnown node

/-! ### Definitions -/

/-- The findings of a definition. -/
structure Plan where
  /-- The name that the definition takes; if it is taken already, there are no findings. -/
  name? : Option String
  entries : List Entry

/-- Whether definitions of a kind can be visible from scripts. -/
def isExposable : NodeKind → Bool
  | .interface | .interfaceMixin | .namespaceDefinition => true
  | _ => false

/-- The findings of a definition with members. -/
def containerPlan (wellKnown : List String) (kind : NodeKind) (node : Node) : Plan :=
  let name := node.name
  let inherited := (node.inheritance.filter (· ≠ "")).toList.flatMap fun parent =>
    [Entry.depend name parent, .use parent]
  let members := memberEntries wellKnown name node
  if node.isPartial then
    ⟨none, [.extend name node, .depend name name] ++ inherited ++ members⟩
  else
    let exposure := if isExposable kind then exposureEntries wellKnown node else []
    ⟨some name, inherited ++ exposure ++ members⟩

/-- The findings of an includes or implements statement. -/
def relationPlan (node : Node) : Plan :=
  ⟨none, [.extend node.target node, .reference node.target, .depend node.target node.includes,
    .use node.includes]⟩

/-- The diagnostic for a definition of a kind that has no definitions. -/
def unknownDefinition (node : Node) : Diagnostic :=
  { rule := "unknown-definition"
    severity := .warning
    message := "Unhandled IDL definition kind '" ++ node.kind.label ++ "'"
    name := some node.name |>.filter (· ≠ "") }

/-- The findings of a definition. -/
def definitionPlan (wellKnown : List String) (node : Node) : Plan :=
  let typed := node.type.toList.flatMap (typeEntries wellKnown node.name)
  match node.kind.meaning? with
  | some .interface => containerPlan wellKnown .interface node
  | some .interfaceMixin => containerPlan wellKnown .interfaceMixin node
  | some .dictionary => containerPlan wellKnown .dictionary node
  | some .namespaceDefinition => containerPlan wellKnown .namespaceDefinition node
  | some .callbackInterface => containerPlan wellKnown .callbackInterface node
  | some .enumeration => ⟨some node.name, memberEntries wellKnown node.name node⟩
  | some .typedef => ⟨some node.name, typed⟩
  | some .callback =>
    ⟨some node.name, typed ++ argumentEntries wellKnown node.name node.arguments⟩
  | some .includes | some .implements => relationPlan node
  | _ => ⟨none, [.remark (.diagnostic (unknownDefinition node))]⟩

/-- Enters the findings of a definition; says whether all were entered. -/
def Ledger.recordDefinition (wellKnown : List String) (l : Ledger) (node : Node) :
    Ledger × Bool :=
  let plan := definitionPlan wellKnown node
  match plan.name? with
  | none => l.recordAll plan.entries
  | some name =>
    let (l, isNew) := l.register name (.node node) false
    if isNew then l.recordAll plan.entries else (l, true)

end WebSpec.Analysis
