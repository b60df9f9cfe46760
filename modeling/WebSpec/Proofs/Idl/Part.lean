import Mathlib.Logic.Relation
import WebSpec.Proofs.Idl.PiecePayload
import WebSpec.Proofs.Idl.Transcript

/-!
# The parts of a definition

A definition has parts: its members, and the types, arguments and extended attributes of them all.
`Part.Within` says that one part occurs in another, at any depth.

A tree built by hand may have any combination of fields, a tree from a text may not: its kinds and
forms are those that there are, no name in it is empty, and no member has both a type and type
arguments. `Part.IsPlain` says this of a part by itself and `Part.Legible` of everything in it; each
construct preserves it (`Construct.legible_of_combine`), so the definitions in a text are legible
(`legible_of_parse`).
-/

namespace WebSpec.Idl

open ContextFree (ParseTree)

/-- The types that a type is made of. -/
def TypeExpr.components : TypeExpr → List TypeExpr
  | .named _ _ _ => []
  | .generic _ parameters _ _ => parameters
  | .union members _ _ => members

@[simp] theorem TypeExpr.components_makeNullable (type : TypeExpr) :
    type.makeNullable.components = type.components := by
  cases type <;> rfl

@[simp] theorem TypeExpr.attributes_makeNullable (type : TypeExpr) :
    type.makeNullable.attributes = type.attributes := by
  cases type <;> rfl

@[simp] theorem TypeExpr.components_withAttributes (type : TypeExpr)
    (attributes : List ExtAttribute) :
    (type.withAttributes attributes).components = type.components := by
  cases type <;> rfl

@[simp] theorem TypeExpr.attributes_withAttributes (type : TypeExpr)
    (attributes : List ExtAttribute) :
    (type.withAttributes attributes).attributes = attributes := by
  cases type <;> rfl

/-- A part of a definition, or a definition itself. -/
inductive Part where
  | node (node : Node)
  | type (type : TypeExpr)
  | argument (argument : Argument)
  | extAttribute (attr : ExtAttribute)

/-- The form of a value is one that there is. -/
def AttributeValue.IsPlain (v : AttributeValue) : Prop :=
  ∀ name, v.form ≠ .other name

/-- The fields of a node go together. -/
structure Node.IsPlain (node : Node) : Prop where
  kind : ∃ kind, node.kind = .known kind
  inheritance : node.inheritance ≠ some ""
  /-- Nothing is added without a name to add it to. -/
  target : node.target = "" → node.includes = ""
  type : node.typeArguments ≠ [] → node.type = none

namespace Part

/-- The parts that a part consists of. -/
def children : Part → List Part
  | .node n => n.members.map .node ++ n.attributes.map .extAttribute ++ n.arguments.map .argument ++
      n.type.toList.map .type ++ n.typeArguments.map .type
  | .type t => t.components.map .type ++ t.attributes.map .extAttribute
  | .argument a => .type a.type :: a.attributes.map .extAttribute
  | .extAttribute attr => (attr.arguments.getD []).map .argument

/-- A part occurs in another one, at any depth, or is that part. -/
def Within : Part → Part → Prop :=
  Relation.ReflTransGen fun inner outer => inner ∈ outer.children

/-- A part by itself is such as a text gives it. -/
def IsPlain : Part → Prop
  | .node n => n.IsPlain
  | .extAttribute attr => ∀ value ∈ attr.value, value.IsPlain
  | _ => True

/-- Everything in a part is such as a text gives it. -/
def Legible (p : Part) : Prop :=
  ∀ inner, Within inner p → inner.IsPlain

variable {p q : Part}

theorem Legible.of_within (h : p.Legible) (within : Within q p) : q.Legible :=
  fun inner deeper => h inner (deeper.trans within)

theorem legible_iff : p.Legible ↔ p.IsPlain ∧ ∀ child ∈ p.children, child.Legible := by
  constructor
  · exact fun h => ⟨h p .refl, fun child hc => h.of_within (.single hc)⟩
  · rintro ⟨plain, below⟩ inner within
    rcases Relation.ReflTransGen.cases_tail within with rfl | ⟨child, deeper, hc⟩
    · exact plain
    · exact below child hc inner deeper

attribute [local simp] children IsPlain

theorem legible_node {n : Node} : (Part.node n).Legible ↔ n.IsPlain ∧
    (∀ m ∈ n.members, (Part.node m).Legible) ∧
    (∀ attr ∈ n.attributes, (Part.extAttribute attr).Legible) ∧
    (∀ a ∈ n.arguments, (Part.argument a).Legible) ∧
    (∀ t ∈ n.type, (Part.type t).Legible) ∧ ∀ t ∈ n.typeArguments, (Part.type t).Legible := by
  rw [legible_iff]
  simp [or_imp, forall_and]

theorem legible_type {t : TypeExpr} : (Part.type t).Legible ↔
    (∀ c ∈ t.components, (Part.type c).Legible) ∧
    ∀ attr ∈ t.attributes, (Part.extAttribute attr).Legible := by
  rw [legible_iff]
  simp [or_imp, forall_and]

theorem legible_argument {a : Argument} : (Part.argument a).Legible ↔
    (Part.type a.type).Legible ∧ ∀ attr ∈ a.attributes, (Part.extAttribute attr).Legible := by
  rw [legible_iff]
  simp

theorem legible_extAttribute {attr : ExtAttribute} : (Part.extAttribute attr).Legible ↔
    (∀ value ∈ attr.value, value.IsPlain) ∧
    ∀ a ∈ attr.arguments.getD [], (Part.argument a).Legible := by
  rw [legible_iff]
  simp

end Part

/-! ### Pieces -/

/-- What is in a piece is such as a text gives it. -/
def Piece.Legible : Piece → Prop
  | .token t => t.IsSpelled
  | .inheritance name => name ≠ ""
  | .type t => (Part.type t).Legible
  | .argument a => (Part.argument a).Legible
  | .arguments list => ∀ a ∈ list, (Part.argument a).Legible
  | .extAttribute attr => (Part.extAttribute attr).Legible
  | .extAttributes list => ∀ attr ∈ list, (Part.extAttribute attr).Legible
  | .attributeValue value => value.IsPlain
  | .literal _ => True
  | .node n => (Part.node n).Legible

/-- What is in pieces is such as a text gives it. -/
def Pieces.Legible (ps : Pieces) : Prop :=
  ∀ p ∈ ps, p.Legible

namespace Pieces.Legible

variable {ps : Pieces} (legible : ps.Legible)
include legible

theorem name_ne {name : String} (h : name ∈ ps.names) : name ≠ "" :=
  (name_spec (fun _ ht => legible _ ht) h).1

theorem type {t : TypeExpr} (h : t ∈ ps.types) : (Part.type t).Legible :=
  legible _ (mem_of_mem_types h)

theorem node {n : Node} (h : n ∈ ps.nodes) : (Part.node n).Legible :=
  legible _ (mem_nodes.mp h)

theorem arguments : ∀ a ∈ ps.arguments, (Part.argument a).Legible := by
  unfold Pieces.arguments
  cases hf : ps.findSome? _ with
  | none => simp
  | some list =>
    obtain ⟨piece, hp, hs⟩ := List.exists_of_findSome?_eq_some hf
    cases piece with
    | arguments found =>
      obtain rfl := Option.some.inj hs
      exact legible _ hp
    | _ => cases hs

theorem extAttributes : ∀ attr ∈ ps.extAttributes, (Part.extAttribute attr).Legible := by
  unfold Pieces.extAttributes
  cases hf : ps.findSome? _ with
  | none => simp
  | some list =>
    obtain ⟨piece, hp, hs⟩ := List.exists_of_findSome?_eq_some hf
    cases piece with
    | extAttributes found =>
      obtain rfl := Option.some.inj hs
      exact legible _ hp
    | _ => cases hs

theorem inheritance_ne : ps.inheritance? ≠ some "" := by
  intro h
  obtain ⟨piece, hp, hs⟩ := List.exists_of_findSome?_eq_some h
  cases piece with
  | inheritance name =>
    obtain rfl := Option.some.inj hs
    exact legible _ hp rfl
  | _ => cases hs

theorem attributeValue {value : AttributeValue} (h : ps.attributeValue? = some value) :
    value.IsPlain := by
  obtain ⟨piece, hp, hs⟩ := List.exists_of_findSome?_eq_some h
  cases piece with
  | attributeValue found =>
    obtain rfl := Option.some.inj hs
    exact legible _ hp
  | _ => cases hs

theorem container {kind : NodeKind} {piece : Piece} (h : ps.container kind = some piece) :
    piece.Legible := by
  obtain ⟨name, -, h⟩ := Option.bind_eq_some_iff.mp h
  obtain rfl := Option.some.inj h
  refine Part.legible_node.mpr ⟨⟨⟨kind, rfl⟩, legible.inheritance_ne, fun _ => rfl, ?_⟩, ?_⟩
  · exact fun some => absurd rfl some
  · simpa using fun m hm => legible.node hm

theorem relation {kind : NodeKind} {piece : Piece} (h : ps.relation kind = some piece) :
    piece.Legible := by
  unfold Pieces.relation at h
  split at h
  · rename_i target included both
    obtain rfl := Option.some.inj h
    have named : target ≠ "" := legible.name_ne (by simp [both])
    exact Part.legible_node.mpr ⟨⟨⟨kind, rfl⟩, by simp, fun none => absurd none named, by simp⟩,
      by simp⟩
  · cases h

theorem collection (kind : NodeKind) : (ps.collection kind).Legible := by
  refine Part.legible_node.mpr ⟨⟨⟨kind, rfl⟩, by simp, fun _ => rfl, fun _ => rfl⟩, ?_⟩
  simpa using ⟨legible.arguments, fun t ht => legible.type ht⟩

theorem specialMember {special : String} {piece : Piece}
    (h : ps.specialMember special = some piece) : piece.Legible := by
  obtain ⟨node, hn, h⟩ := Option.bind_eq_some_iff.mp h
  obtain rfl := Option.some.inj h
  obtain ⟨plain, parts⟩ := Part.legible_node.mp (legible.node (List.mem_of_mem_head? hn))
  exact Part.legible_node.mpr ⟨⟨plain.kind, plain.inheritance, plain.target, plain.type⟩, parts⟩

/-- A node may have other extended attributes. -/
theorem withAttributes {node : Node} (h : node ∈ ps.nodes) :
    (Part.node { node with attributes := ps.extAttributes }).Legible := by
  obtain ⟨plain, members, -, others⟩ := Part.legible_node.mp (legible.node h)
  exact Part.legible_node.mpr ⟨⟨plain.kind, plain.inheritance, plain.target, plain.type⟩, members,
    legible.extAttributes, others⟩

end Pieces.Legible

/-- A node with nothing but attributes, arguments and a type to look into. -/
theorem Part.legible_of_type {node : Node}
    (attributes : ∀ attr ∈ node.attributes, (Part.extAttribute attr).Legible)
    (arguments : ∀ a ∈ node.arguments, (Part.argument a).Legible)
    (type : ∀ t ∈ node.type, (Part.type t).Legible)
    (kind : ∃ kind, node.kind = .known kind := by exact ⟨_, rfl⟩)
    (inheritance : node.inheritance = none := by rfl) (includes : node.includes = "" := by rfl)
    (members : node.members = [] := by rfl) (typeArguments : node.typeArguments = [] := by rfl) :
    (Part.node node).Legible := by
  refine Part.legible_node.mpr ⟨⟨kind, by simp [inheritance], fun _ => includes, ?_⟩, ?_⟩
  · exact fun some => absurd typeArguments some
  · simpa [members, typeArguments] using ⟨attributes, arguments, type⟩

/-- Constructs preserve it. -/
theorem Construct.legible_of_combine {construct : Construct} {ps : Pieces} {piece : Piece}
    (legible : ps.Legible) (h : construct.combine ps = some piece) : piece.Legible := by
  cases construct <;> simp only [combine, Option.bind_eq_bind, Option.bind_eq_some_iff,
    Option.pure_def, Option.some.injEq, reduceCtorEq] at h
  case interface | mixin | callbackInterface | namespaceDefinition | dictionary =>
    exact legible.container h
  case includesStatement | implementsStatement => exact legible.relation h
  case definition =>
    obtain ⟨node, hn, rfl⟩ := h
    exact legible.withAttributes (List.mem_of_mem_getLast? hn)
  case interfaceMember =>
    obtain ⟨node, hn, rfl⟩ := h
    exact legible.withAttributes (List.mem_of_mem_head? hn)
  case specialOperation =>
    obtain ⟨_, -, h⟩ := h
    exact legible.specialMember h
  case staticMember => exact legible.specialMember h
  case stringifier =>
    split_ifs at h
    · obtain rfl := Option.some.inj h
      exact Part.legible_of_type (by simp) (by simp) (by simp)
    · exact legible.specialMember h
  case iterable | asyncIterable | maplike | setlike =>
    obtain rfl := h
    exact legible.collection _
  case callbackFunction =>
    obtain ⟨_, -, type, ht, rfl⟩ := h
    exact Part.legible_of_type (by simp) legible.arguments
      (by simpa using legible.type (List.mem_of_mem_head? ht))
  case typedef | attributeMember =>
    obtain ⟨_, -, type, ht, rfl⟩ := h
    exact Part.legible_of_type (by simp) (by simp)
      (by simpa using legible.type (List.mem_of_mem_head? ht))
  case const =>
    obtain ⟨_, -, type, ht, _, -, rfl⟩ := h
    exact Part.legible_of_type (by simp) (by simp)
      (by simpa using legible.type (List.mem_of_mem_head? ht))
  case dictionaryMember =>
    obtain ⟨_, -, type, ht, rfl⟩ := h
    exact Part.legible_of_type legible.extAttributes (by simp)
      (by simpa using legible.type (List.mem_of_mem_head? ht))
  case operation =>
    obtain ⟨type, ht, rfl⟩ := h
    exact Part.legible_of_type (by simp) legible.arguments
      (by simpa using legible.type (List.mem_of_mem_head? ht))
  case constructorMember =>
    obtain rfl := h
    exact Part.legible_of_type (by simp) legible.arguments (by simp)
  case enumeration =>
    obtain ⟨_, -, rfl⟩ := h
    refine Part.legible_node.mpr ⟨⟨⟨_, rfl⟩, by simp, fun _ => rfl, by simp⟩, ?_, by simp⟩
    intro m hm
    obtain ⟨t, -, rfl⟩ := List.mem_map.mp hm
    exact Part.legible_of_type (by simp) (by simp) (by simp)
  case inheritance =>
    obtain ⟨name, hn, rfl⟩ := h
    exact legible.name_ne (List.mem_of_mem_head? hn)
  case argumentList =>
    obtain rfl := h
    intro a ha
    obtain ⟨piece, hp, hs⟩ := List.mem_filterMap.mp ha
    cases piece with
    | argument found =>
      obtain rfl := Option.some.inj hs
      exact legible _ hp
    | _ => cases hs
  case attributeList =>
    obtain rfl := h
    intro attr ha
    obtain ⟨piece, hp, hs⟩ := List.mem_filterMap.mp ha
    cases piece with
    | extAttribute found =>
      obtain rfl := Option.some.inj hs
      exact legible _ hp
    | _ => cases hs
  case argument =>
    obtain ⟨_, -, type, ht, rfl⟩ := h
    exact Part.legible_argument.mpr
      ⟨legible.type (List.mem_of_mem_head? ht), legible.extAttributes⟩
  case defaultValue => split at h <;> obtain rfl := Option.some.inj h <;> trivial
  case constValue =>
    obtain ⟨_, -, rfl⟩ := h
    trivial
  case annotatedType =>
    obtain ⟨type, ht, rfl⟩ := h
    have inner := legible.type (List.mem_of_mem_head? ht)
    split_ifs
    · exact inner
    · refine Part.legible_type.mpr ?_
      simpa using ⟨(Part.legible_type.mp inner).1, legible.extAttributes⟩
  case type =>
    obtain ⟨type, ht, rfl⟩ := h
    have inner := legible.type (List.mem_of_mem_head? ht)
    split_ifs
    · refine Part.legible_type.mpr ?_
      simpa using Part.legible_type.mp inner
    · exact inner
  case namedType =>
    obtain ⟨_, -, rfl⟩ := h
    exact Part.legible_type.mpr (by simp [TypeExpr.components, TypeExpr.attributes])
  case primitiveType =>
    obtain rfl := h
    exact Part.legible_type.mpr (by simp [TypeExpr.components, TypeExpr.attributes])
  case genericType =>
    obtain ⟨_, -, rfl⟩ := h
    exact Part.legible_type.mpr ⟨fun t ht => legible.type ht, by simp [TypeExpr.attributes]⟩
  case unionType =>
    obtain rfl := h
    exact Part.legible_type.mpr ⟨fun t ht => legible.type ht, by simp [TypeExpr.attributes]⟩
  case plainAttribute =>
    obtain ⟨_, -, rfl⟩ := h
    exact Part.legible_extAttribute.mpr ⟨by simp, by simp⟩
  case callAttribute =>
    obtain ⟨_, -, rfl⟩ := h
    exact Part.legible_extAttribute.mpr ⟨by simp, legible.arguments⟩
  case namedCallAttribute =>
    obtain ⟨_, -, _, -, rfl⟩ := h
    exact Part.legible_extAttribute.mpr ⟨by simp [AttributeValue.IsPlain], legible.arguments⟩
  case valueAttribute =>
    obtain ⟨_, -, value, hv, rfl⟩ := h
    exact Part.legible_extAttribute.mpr ⟨by simpa using legible.attributeValue hv, by simp⟩
  case identifierValue | stringValue | numberValue =>
    obtain ⟨_, -, rfl⟩ := h
    simp [Pieces.textValue, Piece.Legible, AttributeValue.IsPlain]
  case wildcardValue | identifierListValue =>
    obtain rfl := h
    simp [Pieces.textValue, Piece.Legible, AttributeValue.IsPlain]

/-! ### Trees -/

theorem Piece.Legible.withFragment {piece : Piece} (h : piece.Legible) (fragment : String) :
    (piece.withFragment fragment).Legible := by
  cases piece with
  | node n =>
    obtain ⟨plain, parts⟩ := Part.legible_node.mp h
    exact Part.legible_node.mpr ⟨⟨plain.kind, plain.inheritance, plain.target, plain.type⟩, parts⟩
  | _ => exact h

theorem Piece.Legible.completed {piece : Piece} (h : piece.Legible) (construct : Construct)
    (children : List (ParseTree Token)) : (construct.completed children piece).Legible := by
  unfold Construct.completed
  split_ifs
  · exact h.withFragment _
  · exact h

theorem Piece.Legible.singleton {piece : Piece} (h : piece.Legible) : Pieces.Legible [piece] := by
  intro other ho
  rwa [List.mem_singleton.mp ho]

mutual

theorem legible_of_meaning : ∀ {tree : ParseTree Token} {ps : Pieces},
    (∀ t ∈ tree.tokens, t.IsSpelled) → meaning tree = some ps → ps.Legible
  | .leaf token, ps, spelled, h => by
    obtain rfl := Option.some.inj h
    have single : (Piece.token token).Legible := spelled token (by simp [ParseTree.tokens])
    exact single.singleton
  | .node number children, ps, spelled, h => by
    obtain ⟨inner, construct, hi, -, made⟩ := meaning_node_iff.mp h
    have legible := legible_of_meaningOfAll (by simpa [ParseTree.tokens] using spelled) hi
    rcases made with ⟨-, rfl⟩ | ⟨piece, combined, rfl⟩
    · exact legible
    · exact ((Construct.legible_of_combine legible combined).completed construct children).singleton

theorem legible_of_meaningOfAll : ∀ {trees : List (ParseTree Token)} {ps : Pieces},
    (∀ t ∈ ParseTree.tokensOfAll trees, t.IsSpelled) → meaningOfAll trees = some ps → ps.Legible
  | [], ps, _, h => by
    obtain rfl := Option.some.inj h
    intro piece hp
    cases hp
  | tree :: rest, ps, spelled, h => by
    obtain ⟨head, hh, h⟩ := Option.bind_eq_some_iff.mp h
    obtain ⟨tail, ht, h⟩ := Option.bind_eq_some_iff.mp h
    obtain rfl := Option.some.inj h
    intro piece hp
    rcases List.mem_append.mp hp with hp | hp
    · exact legible_of_meaning
        (fun t member => spelled t (by simp [ParseTree.tokensOfAll, member])) hh piece hp
    · exact legible_of_meaningOfAll
        (fun t member => spelled t (by simp [ParseTree.tokensOfAll, member])) ht piece hp

end

/-- The definitions in a text are such as a text gives them, in all their parts. -/
theorem legible_of_parse {text : String} {definitions : List Node}
    (h : parse text = .ok definitions) {node : Node} (hn : node ∈ definitions) :
    (Part.node node).Legible := by
  obtain ⟨tree, ht, h⟩ := bind_eq_ok.mp h
  obtain rfl := Except.ok.inj h
  obtain ⟨gap, final, -, read, -⟩ := parseTree_eq_ok_iff.mp ht
  have spelled : ∀ t ∈ tree.tokens, t.IsSpelled := fun t member => by
    obtain ⟨accepted, cs, rest, found⟩ := read.exists_starts member
    exact isSpelled_of_starts found
  cases hm : meaning tree with
  | none => simp [definitionsOf, hm] at hn
  | some ps =>
    simp only [definitionsOf, hm, Option.map_some, Option.getD_some] at hn
    exact (legible_of_meaning spelled hm).node hn

end WebSpec.Idl
