import WebSpec.Proofs.Idl.Arrangement
import WebSpec.Proofs.Idl.TokenText

/-!
# What pieces say

The piece that a construct makes says what its pieces say, in the order in which they stand
(`Construct.payload_combine`); the piece of an extended attribute says its own name before that, and
the piece of a construct that is made up of tokens says their texts.
-/

namespace WebSpec.Idl

open ContextFree (Derives DerivesAll ParseTree Production)

/-! ### What pieces say -/

/-- The argument that a piece is, if it is one. -/
def Piece.argument? : Piece → Option Argument
  | .argument a => some a
  | _ => none

/-- The extended attribute that a piece is, if it is one. -/
def Piece.extAttribute? : Piece → Option ExtAttribute
  | .extAttribute a => some a
  | _ => none

/-- What a piece of a construct says. -/
def Piece.payloadIn (around : Construct) : Piece → List String
  | .token t => Site.payload ⟨around, false, t⟩
  | .inheritance name => [name]
  | .type t => t.payload
  | .argument a => a.payload
  | .arguments list => list.flatMap Argument.payload
  | .extAttribute attr => attr.payload
  | .extAttributes list => list.flatMap ExtAttribute.payload
  | .attributeValue value => value.payload
  | .literal text => valuePayload text
  | .node n => n.payload

/-- A piece without a role says nothing. -/
theorem Piece.payloadIn_eq_nil {around : Construct} {piece : Piece}
    (h : around.isVerbatim = false) (mute : piece.role? = none) :
    piece.payloadIn around = [] := by
  cases piece with
  | token t =>
    have mute : t.terminal.role? = none := mute
    cases ht : t.terminal <;> simp_all [payloadIn, Site.payload, Terminal.role?]
  | _ => cases mute

namespace Pieces

variable (ps : Pieces) (around : Construct)

/-- What the pieces with a role say. -/
def said (role : Role) : List String :=
  (ps.playing role).flatMap (Piece.payloadIn around)

theorem said_name : ps.said around .name = ps.names := by
  rw [said, playing_name, List.flatMap_map, names, List.map_eq_flatMap]
  refine List.flatMap_congr fun t ht => ?_
  have identifier : t.terminal = .identifier := by simpa using (List.mem_filter.mp ht).2
  simp [Piece.payloadIn, Site.payload, identifier]

theorem said_quoted : ps.said around .quoted = (ps.tokensOf .string).map Token.content := by
  rw [said, playing_quoted, List.flatMap_map, List.map_eq_flatMap]
  refine List.flatMap_congr fun t ht => ?_
  have string : t.terminal = .string := by simpa using (List.mem_filter.mp ht).2
  simp [Piece.payloadIn, Site.payload, string]

theorem said_type : ps.said around .type = ps.types.flatMap TypeExpr.payload := by
  rw [said, playing_type, List.flatMap_map]
  rfl

theorem said_node : ps.said around .node = ps.nodes.flatMap Node.payload := by
  rw [said, playing_node, List.flatMap_map]
  rfl

theorem said_argument :
    ps.said around .argument = (ps.filterMap Piece.argument?).flatMap Argument.payload := by
  have takes : Takes .argument .argument Piece.argument? := by
    rintro ⟨⟩ <;> simp [Piece.role?, Terminal.role_ne, Piece.argument?]
  rw [said, takes.playing_eq, List.flatMap_map]
  rfl

theorem said_extAttribute : ps.said around .extAttribute =
    (ps.filterMap Piece.extAttribute?).flatMap ExtAttribute.payload := by
  have takes : Takes .extAttribute .extAttribute Piece.extAttribute? := by
    rintro ⟨⟩ <;> simp [Piece.role?, Terminal.role_ne, Piece.extAttribute?]
  rw [said, takes.playing_eq, List.flatMap_map]
  rfl

variable {ps}

theorem mem_of_mem_types {type : TypeExpr} (h : type ∈ ps.types) : .type type ∈ ps := by
  have mem : .type type ∈ ps.playing .type := by
    rw [playing_type]
    exact List.mem_map_of_mem h
  exact (List.mem_filter.mp mem).1

theorem eq_toList_head? {α : Type} {list : List α} (h : list.length ≤ 1) :
    list = list.head?.toList := by
  obtain _ | ⟨a, _ | ⟨b, rest⟩⟩ := list
  · rfl
  · rfl
  · simp at h

theorem said_first_name (once : (ps.playing .name).length ≤ 1) :
    ps.said around .name = ps.name?.toList := by
  rw [playing_name, List.length_map] at once
  rw [said_name, name?]
  exact eq_toList_head? (by rwa [names, List.length_map])

theorem said_first_type (once : (ps.playing .type).length ≤ 1) :
    ps.said around .type = ps.types.head?.elim [] TypeExpr.payload := by
  rw [playing_type, List.length_map] at once
  rw [said_type, eq_toList_head? once]
  cases ps.types.head? <;> simp

theorem said_first_node (once : (ps.playing .node).length ≤ 1) :
    ps.said around .node = ps.nodes.head?.elim [] Node.payload := by
  rw [playing_node, List.length_map] at once
  rw [said_node, eq_toList_head? once]
  cases ps.nodes.head? <;> simp

/-- A single piece with a role is found. -/
theorem said_single {α : Type} {take : Piece → Option α} {found : Option α} {role : Role}
    (make : α → Piece) (takes : Takes role make take) (hf : ps.findSome? take = found)
    (once : (ps.playing role).length ≤ 1) :
    ps.said around role = found.elim [] fun a => (make a).payloadIn around := by
  have playing := takes.playing_eq ps
  rw [playing, List.length_map] at once
  rw [said, playing, ← hf, ← List.head?_filterMap, eq_toList_head? once]
  cases (ps.filterMap take).head? <;> simp

theorem said_literal (once : (ps.playing .literal).length ≤ 1) :
    ps.said around .literal = ps.literal?.elim [] valuePayload :=
  said_single around .literal (by rintro ⟨⟩ <;> simp [Piece.role?, Terminal.role_ne]) rfl once

theorem said_attributeValue (once : (ps.playing .attributeValue).length ≤ 1) :
    ps.said around .attributeValue = ps.attributeValue?.elim [] AttributeValue.payload :=
  said_single around .attributeValue (by rintro ⟨⟩ <;> simp [Piece.role?, Terminal.role_ne])
    rfl once

theorem said_inheritance (once : (ps.playing .inheritance).length ≤ 1) :
    ps.said around .inheritance = ps.inheritance?.toList :=
  (said_single around .inheritance (by rintro ⟨⟩ <;> simp [Piece.role?, Terminal.role_ne])
    (rfl : _ = ps.inheritance?) once).trans (by cases ps.inheritance? <;> rfl)

theorem said_arguments (once : (ps.playing .arguments).length ≤ 1) :
    ps.said around .arguments = ps.arguments.flatMap Argument.payload := by
  unfold Pieces.arguments
  cases hf : ps.findSome? _ <;>
    exact said_single around .arguments
      (by rintro ⟨⟩ <;> simp [Piece.role?, Terminal.role_ne]) hf once

theorem said_extAttributes (once : (ps.playing .extAttributes).length ≤ 1) :
    ps.said around .extAttributes = ps.extAttributes.flatMap ExtAttribute.payload := by
  unfold Pieces.extAttributes
  cases hf : ps.findSome? _ <;>
    exact said_single around .extAttributes
      (by rintro ⟨⟩ <;> simp [Piece.role?, Terminal.role_ne]) hf once

end Pieces

/-! ### Constructs -/

@[simp] theorem namePayload_empty : namePayload "" = [] :=
  rfl

theorem namePayload_of_ne {name : String} (h : name ≠ "") : namePayload name = [name] :=
  if_neg h

theorem typeNamePayload_of_name {name : String} (h : ' ' ∉ name.toList) :
    typeNamePayload name = [name] := by
  unfold typeNamePayload
  cases hf : primitiveTypes.find? _ with
  | none => rfl
  | some words =>
    have same : " ".intercalate words = name := by simpa using List.find?_some hf
    have single : ∀ words ∈ primitiveTypes, ' ' ∉ (" ".intercalate words).toList →
        words = [" ".intercalate words] := by decide
    rw [Option.getD_some, single words (List.mem_of_find?_eq_some hf) (same ▸ h), same]

theorem Pieces.name_spec {ps : Pieces} (spelled : ∀ t, .token t ∈ ps → t.IsSpelled)
    {name : String} (h : name ∈ ps.names) : name ≠ "" ∧ ' ' ∉ name.toList := by
  obtain ⟨t, ht, rfl⟩ := List.mem_map.mp h
  obtain ⟨ht, identifier⟩ := List.mem_filter.mp ht
  obtain ⟨piece, hp, taken⟩ := List.mem_filterMap.mp ht
  cases piece with
  | token other =>
    obtain rfl := Option.some.inj taken
    exact (spelled _ hp).name_spec (by simpa using identifier)
  | _ => cases taken

/-- The node or type in a piece has no extended attributes. -/
def Piece.IsUnattributed : Piece → Prop
  | .node n => n.attributes = []
  | .type t => t.attributes = []
  | _ => True

namespace Construct

/-- Whether a construct gives extended attributes to a node or a type. -/
def isAdornment : Construct → Bool
  | .definition | .interfaceMember | .annotatedType => true
  | _ => false

/-- Whether a construct keeps what its pieces say in their own order. -/
def isRegular : Construct → Bool
  | .part | .stringValue | .numberValue => false
  | construct => !construct.isVerbatim && !construct.isAttribute

end Construct

/-- Pieces of a construct such as its productions supply. -/
structure Supplied (construct : Construct) (ps : Pieces) : Prop where
  arranged : Arranged construct.slots ps
  spelled : ∀ t, .token t ∈ ps → t.IsSpelled
  plain : construct.isAdornment = true → ∀ p ∈ ps, p.IsUnattributed

section Supplied

variable {construct around : Construct} {ps : Pieces} {piece : Piece}

namespace Supplied

variable (supplied : Supplied construct ps)
include supplied

theorem said_eq (loose : construct.isVerbatim = false) :
    ps.flatMap (Piece.payloadIn construct) =
      construct.slots.flatMap fun slot => ps.said construct slot.role :=
  supplied.arranged.flatMap_eq construct.nodup_slots fun _ _ => Piece.payloadIn_eq_nil loose

theorem once {role : Role} (hr : .one role ∈ construct.slots) : (ps.playing role).length ≤ 1 :=
  supplied.arranged.once construct.nodup_slots hr rfl

theorem name (hr : .one .name ∈ construct.slots := by decide) :
    ps.said construct .name = ps.name?.toList :=
  Pieces.said_first_name construct (supplied.once hr)

theorem type (hr : .one .type ∈ construct.slots := by decide) :
    ps.said construct .type = ps.types.head?.elim [] TypeExpr.payload :=
  Pieces.said_first_type construct (supplied.once hr)

theorem node (hr : .one .node ∈ construct.slots := by decide) :
    ps.said construct .node = ps.nodes.head?.elim [] Node.payload :=
  Pieces.said_first_node construct (supplied.once hr)

theorem inheritance (hr : .one .inheritance ∈ construct.slots := by decide) :
    ps.said construct .inheritance = ps.inheritance?.toList :=
  Pieces.said_inheritance construct (supplied.once hr)

theorem literal (hr : .one .literal ∈ construct.slots := by decide) :
    ps.said construct .literal = ps.literal?.elim [] valuePayload :=
  Pieces.said_literal construct (supplied.once hr)

theorem attributeValue (hr : .one .attributeValue ∈ construct.slots := by decide) :
    ps.said construct .attributeValue = ps.attributeValue?.elim [] AttributeValue.payload :=
  Pieces.said_attributeValue construct (supplied.once hr)

theorem arguments (hr : .one .arguments ∈ construct.slots := by decide) :
    ps.said construct .arguments = ps.arguments.flatMap Argument.payload :=
  Pieces.said_arguments construct (supplied.once hr)

theorem extAttributes (hr : .one .extAttributes ∈ construct.slots := by decide) :
    ps.said construct .extAttributes = ps.extAttributes.flatMap ExtAttribute.payload :=
  Pieces.said_extAttributes construct (supplied.once hr)

/-- The last node is the first one, -/
theorem head?_nodes {node : Node} (hn : ps.nodes.getLast? = some node)
    (hr : .one .node ∈ construct.slots := by decide) : ps.nodes.head? = some node := by
  have single := supplied.once hr
  rw [Pieces.playing_node, List.length_map] at single
  rw [Pieces.eq_toList_head? single] at hn
  cases hh : ps.nodes.head? <;> simp_all

/-- and names are not empty. -/
theorem namePayload_eq (name : String) (hn : name ∈ ps.names) : namePayload name = [name] :=
  namePayload_of_ne (Pieces.name_spec supplied.spelled hn).1

end Supplied

namespace Construct

/-- A definition or a member says what its pieces say, -/
theorem payload_node (made : construct.role? = some .node)
    (h : construct.combine ps = some piece) (supplied : Supplied construct ps) :
    piece.payloadIn around = ps.flatMap (Piece.payloadIn construct) := by
  have named (name : String) (hn : ps.name? = some name) : namePayload name = [name] :=
    supplied.namePayload_eq name (List.mem_of_mem_head? hn)
  rw [supplied.said_eq (by cases construct <;> first | rfl | cases made)]
  cases construct <;> simp only [combine, Option.bind_eq_bind, Option.bind_eq_some_iff,
    Option.pure_def, Option.some.injEq, reduceCtorEq] at h
  case definition =>
    obtain ⟨node, hn, rfl⟩ := h
    have plain : node.attributes = [] :=
      supplied.plain rfl _ (Pieces.mem_nodes.mp (List.mem_of_mem_getLast? hn))
    simp [slots, Slot.one, supplied.node, supplied.head?_nodes hn, supplied.extAttributes,
      Piece.payloadIn, Node.payload_withAttributes plain]
  case interfaceMember =>
    obtain ⟨node, hn, rfl⟩ := h
    have plain : node.attributes = [] :=
      supplied.plain rfl _ (Pieces.mem_nodes.mp (List.mem_of_mem_head? hn))
    simp [slots, Slot.one, supplied.node, hn, supplied.extAttributes, Piece.payloadIn,
      Node.payload_withAttributes plain]
  case interface | mixin | callbackInterface | namespaceDefinition | dictionary =>
    obtain ⟨name, hn, h⟩ := Option.bind_eq_some_iff.mp h
    obtain rfl := Option.some.inj h
    simp [slots, Slot.one, Slot.many, supplied.name, hn, named name hn, supplied.inheritance,
      Pieces.said_node, Piece.payloadIn, Node.payload, Kind.meaning?, NodeKind.beginsWithName]
  case callbackFunction =>
    obtain ⟨name, hn, type, ht, rfl⟩ := h
    simp [slots, Slot.one, supplied.name, hn, named name hn, supplied.type, ht, supplied.arguments,
      Piece.payloadIn, Node.payload, Kind.meaning?, NodeKind.beginsWithName]
  case enumeration =>
    obtain ⟨name, hn, rfl⟩ := h
    simp [slots, Slot.one, Slot.many, supplied.name, hn, named name hn, Pieces.said_quoted,
      Piece.payloadIn, Node.payload, Kind.meaning?, NodeKind.beginsWithName, Kind.valuePayload,
      List.flatMap_map, ← List.map_eq_flatMap]
  case typedef | attributeMember =>
    obtain ⟨name, hn, type, ht, rfl⟩ := h
    simp [slots, Slot.one, supplied.name, hn, named name hn, supplied.type, ht, Piece.payloadIn,
      Node.payload, Kind.meaning?, NodeKind.beginsWithName]
  case includesStatement | implementsStatement =>
    unfold Pieces.relation at h
    split at h
    · rename_i target included both
      obtain rfl := Option.some.inj h
      simp [slots, Slot.many, Pieces.said_name, both,
        supplied.namePayload_eq target (by simp [both]),
        supplied.namePayload_eq included (by simp [both]), Piece.payloadIn, Node.payload,
        Kind.meaning?, NodeKind.beginsWithName]
    · cases h
  case const =>
    obtain ⟨name, hn, type, ht, text, hl, rfl⟩ := h
    simp [slots, Slot.one, supplied.name, hn, named name hn, supplied.type, ht, supplied.literal,
      hl, Kind.valuePayload, Piece.payloadIn, Node.payload, Kind.meaning?, NodeKind.beginsWithName]
  case operation =>
    obtain ⟨type, ht, rfl⟩ := h
    have name : namePayload (ps.name?.getD "") = ps.name?.toList := by
      cases hn : ps.name? with
      | none => rfl
      | some name => exact named name hn
    simp [slots, Slot.one, supplied.name, name, supplied.type, ht, supplied.arguments,
      Piece.payloadIn, Node.payload, Kind.meaning?, NodeKind.beginsWithName]
  case specialOperation =>
    obtain ⟨token, -, h⟩ := h
    obtain ⟨node, hn, h⟩ := Option.bind_eq_some_iff.mp h
    obtain rfl := Option.some.inj h
    simp [slots, Slot.one, supplied.node, hn, Piece.payloadIn]
  case stringifier =>
    have hnode := supplied.node
    split_ifs at h with empty
    · obtain rfl := Option.some.inj h
      simp [slots, Slot.one, hnode, List.isEmpty_iff.mp empty, Piece.payloadIn, Node.payload,
        Kind.meaning?, NodeKind.beginsWithName]
    · obtain ⟨node, hn, h⟩ := Option.bind_eq_some_iff.mp h
      obtain rfl := Option.some.inj h
      simp [slots, Slot.one, hnode, hn, Piece.payloadIn]
  case staticMember =>
    obtain ⟨node, hn, h⟩ := Option.bind_eq_some_iff.mp h
    obtain rfl := Option.some.inj h
    simp [slots, Slot.one, supplied.node, hn, Piece.payloadIn]
  case constructorMember =>
    obtain rfl := h
    simp [slots, Slot.one, supplied.arguments, Piece.payloadIn, Node.payload, Kind.meaning?,
      NodeKind.beginsWithName]
  case iterable | asyncIterable | maplike | setlike =>
    obtain rfl := h
    simp [slots, Slot.one, Slot.many, Pieces.collection, Pieces.said_type, supplied.arguments,
      Piece.payloadIn, Node.payload, Kind.meaning?, NodeKind.beginsWithName]
  case dictionaryMember =>
    obtain ⟨name, hn, type, ht, rfl⟩ := h
    simp [slots, Slot.one, supplied.name, hn, named name hn, supplied.type, ht, supplied.literal,
      supplied.extAttributes, Piece.payloadIn, Node.payload, Kind.meaning?, NodeKind.beginsWithName]
    rfl
  all_goals cases made

/-- and so does a type, -/
theorem payload_type (made : construct.role? = some .type) (loose : construct.isVerbatim = false)
    (h : construct.combine ps = some piece) (supplied : Supplied construct ps) :
    piece.payloadIn around = ps.flatMap (Piece.payloadIn construct) := by
  rw [supplied.said_eq loose]
  cases construct <;> simp only [combine, Option.bind_eq_bind, Option.bind_eq_some_iff,
    Option.pure_def, Option.some.injEq, reduceCtorEq] at h
  case annotatedType =>
    obtain ⟨type, ht, rfl⟩ := h
    have plain : type.attributes = [] :=
      supplied.plain rfl _ (Pieces.mem_of_mem_types (List.mem_of_mem_head? ht))
    simp [slots, Slot.one, supplied.type, ht, supplied.extAttributes, Piece.payloadIn]
    split_ifs with empty
    · simp [empty]
    · exact TypeExpr.payload_withAttributes plain _
  case type =>
    obtain ⟨type, ht, rfl⟩ := h
    have same : (if ps.has .questionMark then type.makeNullable else type).payload =
        type.payload := by
      split_ifs <;> simp
    simp [slots, Slot.one, supplied.type, ht, Piece.payloadIn, same]
  case namedType =>
    obtain ⟨name, hn, rfl⟩ := h
    have blank := (Pieces.name_spec supplied.spelled (List.mem_of_mem_head? hn)).2
    simp [slots, Slot.one, supplied.name, hn, Piece.payloadIn, TypeExpr.payload,
      typeNamePayload_of_name blank]
  case genericType =>
    obtain ⟨name, hn, rfl⟩ := h
    simp [slots, Slot.one, Slot.many, supplied.name, hn, Pieces.said_type, Piece.payloadIn,
      TypeExpr.payload]
  case unionType =>
    obtain rfl := h
    simp [slots, Slot.many, Pieces.said_type, Piece.payloadIn, TypeExpr.payload]
  all_goals cases loose <;> cases made

/-- and whatever else keeps its pieces in order. -/
theorem payload_combine (regular : construct.isRegular = true)
    (h : construct.combine ps = some piece) (supplied : Supplied construct ps) :
    piece.payloadIn around = ps.flatMap (Piece.payloadIn construct) := by
  have loose : construct.isVerbatim = false := by
    cases construct <;> first | rfl | cases regular
  by_cases node : construct.role? = some .node
  · exact payload_node node h supplied
  by_cases type : construct.role? = some .type
  · exact payload_type type loose h supplied
  rw [supplied.said_eq loose]
  cases construct <;> simp only [combine, Option.bind_eq_bind, Option.bind_eq_some_iff,
    Option.pure_def, Option.some.injEq, reduceCtorEq] at h
  case inheritance =>
    obtain ⟨name, hn, rfl⟩ := h
    simp [slots, Slot.one, supplied.name, hn, Piece.payloadIn]
  case argument =>
    obtain ⟨name, hn, type, ht, rfl⟩ := h
    simp [slots, Slot.one, supplied.name, hn, supplied.type, ht, supplied.literal,
      supplied.extAttributes, Piece.payloadIn, Argument.payload]
  case argumentList =>
    obtain rfl := h
    simp only [slots, Slot.many, List.flatMap_singleton, Pieces.said_argument, Piece.payloadIn]
    rfl
  case attributeList =>
    obtain rfl := h
    simp only [slots, Slot.many, List.flatMap_singleton, Pieces.said_extAttribute, Piece.payloadIn]
    rfl
  case identifierValue =>
    obtain ⟨name, hn, rfl⟩ := h
    simp [slots, Slot.one, supplied.name, hn, Piece.payloadIn, Pieces.textValue,
      AttributeValue.payload]
  case identifierListValue =>
    obtain rfl := h
    simp [slots, Slot.many, Pieces.said_name, Piece.payloadIn, AttributeValue.payload]
  case wildcardValue =>
    obtain rfl := h
    simp [slots, Piece.payloadIn, Pieces.textValue, AttributeValue.payload]
  all_goals first | exact (node rfl).elim | exact (type rfl).elim | cases regular

/-- An extended attribute says its own name, as it is written, and what its pieces say. -/
theorem payload_combine_attribute {t : Token} (own : construct.isAttribute = true)
    (h : construct.combine (.token t :: ps) = some piece) (supplied : Supplied construct ps)
    (identifier : t.terminal = .identifier) :
    piece.payloadIn around = t.text :: ps.flatMap (Piece.payloadIn construct) := by
  rw [supplied.said_eq (by cases construct <;> first | rfl | cases own)]
  cases construct <;> simp only [combine, Option.bind_eq_bind, Option.bind_eq_some_iff,
    Option.pure_def, Option.some.injEq, reduceCtorEq] at h
  case plainAttribute =>
    obtain ⟨token, ht, rfl⟩ := h
    obtain rfl : t = token := by simpa [Pieces.tokens] using ht
    simp [slots, Piece.payloadIn, ExtAttribute.payload]
  case callAttribute =>
    obtain ⟨token, ht, rfl⟩ := h
    obtain rfl : t = token := by simpa [Pieces.tokens] using ht
    simp [slots, Slot.one, supplied.arguments, Piece.payloadIn, ExtAttribute.payload,
      Pieces.arguments]
  case namedCallAttribute =>
    obtain ⟨name, hn, token, ht, rfl⟩ := h
    obtain rfl : t = token := by simpa [Pieces.tokens] using ht
    have hn : ps.name? = some name := by
      simpa [Pieces.names, Pieces.tokensOf, Pieces.tokens, identifier, Pieces.name?,
        List.head?_eq_getElem?] using hn
    simp [slots, Slot.one, supplied.arguments, Piece.payloadIn, supplied.name, hn,
      AttributeValue.payload, ExtAttribute.payload, Pieces.arguments]
  case valueAttribute =>
    obtain ⟨token, ht, value, hv, rfl⟩ := h
    obtain rfl : t = token := by simpa [Pieces.tokens] using ht
    have hv : ps.attributeValue? = some value := by simpa [Pieces.attributeValue?] using hv
    simp [slots, Slot.one, supplied.attributeValue, hv, Piece.payloadIn, ExtAttribute.payload]
  all_goals cases own

end Construct

end Supplied

/-! ### Constructs of tokens -/

/-- A tree of a terminal is a token, -/
theorem exists_leaf {code : Nat} {tree : ParseTree Token}
    (h : Derives grammar Token.code (.terminal code) tree) : ∃ t, tree = .leaf t := by
  cases h with
  | leaf t => exact ⟨t, rfl⟩

/-- and trees of terminals are tokens. -/
theorem exists_leaves {symbols : List ContextFree.Symbol} {trees : List (ParseTree Token)}
    (h : DerivesAll grammar Token.code symbols trees) (all : symbols.all isTerminal = true) :
    ∃ ts : List Token, trees = ts.map .leaf ∧ symbols = ts.map fun t => .terminal t.code := by
  induction symbols generalizing trees with
  | nil =>
    cases h
    exact ⟨[], rfl, rfl⟩
  | cons symbol rest ih =>
    obtain ⟨terminal, all⟩ := Bool.and_eq_true_iff.mp all
    obtain _ | ⟨first, others⟩ := h
    cases first with
    | leaf t =>
      obtain ⟨ts, rfl, rfl⟩ := ih others all
      exact ⟨t :: ts, rfl, rfl⟩
    | node => cases terminal

theorem meaningOfAll_leaves (ts : List Token) :
    meaningOfAll (ts.map .leaf) = some (ts.map .token) := by
  induction ts with
  | nil => rfl
  | cons t ts ih => simp [meaningOfAll, meaning, ih]

theorem sitesOfAll_leaves (around : Construct) (ts : List Token) :
    sitesOfAll around (ts.map .leaf) = ts.map (Site.mk around false) := by
  induction ts with
  | nil => rfl
  | cons t ts ih => simp [sitesOfAll, sites, ih]

theorem tokens_map_token (ts : List Token) : Pieces.tokens (ts.map .token) = ts := by
  simp [Pieces.tokens, List.filterMap_map]

/-- The terminals that make up constructs. -/
def Construct.spellings : Construct → List (List Terminal)
  | .primitiveType =>
    [[.kwShort], [.kwUnsigned, .kwShort], [.kwLong], [.kwUnsigned, .kwLong], [.kwLong, .kwLong],
     [.kwUnsigned, .kwLong, .kwLong], [.kwFloat], [.kwUnrestricted, .kwFloat], [.kwDouble],
     [.kwUnrestricted, .kwDouble]]
  | .constValue =>
    [[.kwTrue], [.kwFalse], [.integer], [.decimal], [.kwNegativeInfinity], [.kwInfinity], [.kwNaN]]
  | .defaultValue =>
    [[.string], [.kwNull], [.kwUndefined], [.bracketOpen, .bracketClose], [.braceOpen, .braceClose]]
  | .stringValue => [[.string]]
  | .numberValue => [[.integer], [.decimal]]
  | _ => []

/-- Constructs that are neither regular nor extended attributes are made up of terminals; a default
may be a value as well. -/
theorem spelled_productions : ∀ p ∈ productions, p.1 ≠ .part → p.1.isRegular = false →
    p.1.isAttribute = false →
      p.2.right ∈ p.1.spellings.map (·.map fun t => .terminal t.code) ∨
      p.1 = .defaultValue ∧ p.2.right = [.nonterminal Rule.constValue.code] := by
  decide +kernel

section Spelled

variable {construct around : Construct} {ts : List Token} {piece : Piece}

/-- The text of a terminal that has only one. -/
def Terminal.spelling (t : Terminal) : String :=
  t.literal?.getD ""

/-- Tokens of terminals with one text have these texts, -/
theorem map_text_of_literals (spelled : ∀ t ∈ ts, t.IsSpelled)
    (literals : ∀ t ∈ ts.map Token.terminal, t.literal?.isSome = true) :
    ts.map Token.text = (ts.map Token.terminal).map Terminal.spelling := by
  rw [List.map_map]
  refine List.map_congr_left fun t ht => ?_
  obtain ⟨literal, hl⟩ := Option.isSome_iff_exists.mp (literals _ (List.mem_map_of_mem ht))
  simp [(spelled t ht).literal literal hl, Terminal.spelling, hl]

/-- and say them where all tokens are kept. -/
theorem flatMap_payload_of_literals (verbatim : construct.isVerbatim = true)
    (literals : ∀ t ∈ ts.map Token.terminal, t.literal?.isSome = true) :
    (ts.map (Site.mk construct false)).flatMap Site.payload = ts.map Token.text := by
  rw [List.flatMap_map, List.map_eq_flatMap]
  refine List.flatMap_congr fun t ht => ?_
  have literal : t.terminal.literal?.isSome = true := literals _ (List.mem_map_of_mem ht)
  unfold Site.payload
  split
  case h_5 => exact if_pos verbatim
  all_goals
    rename_i terminal
    simp [show t.terminal = _ from terminal, Terminal.literal?] at literal

/-- A value that begins like a number or a word is a single word. -/
theorem valuePayload_of_head {text : String}
    (h : ∀ c ∈ text.toList.head?, c ∉ ['"', '[', '\x7b']) : valuePayload text = [text] := by
  have other (special : String) (first : Char) (hs : special.toList.head? = some first)
      (hf : first ∈ ['"', '[', '\x7b']) : text ≠ special := by
    rintro rfl
    exact h first hs hf
  unfold valuePayload
  rw [if_neg (other "[]" '[' rfl (by decide)), if_neg (other "\x7b\x7d" '\x7b' rfl (by decide))]
  split
  · rename_i rest same
    exact absurd (h '"' (by simp [same])) (by decide)
  · rfl

theorem valuePayload_of_number {text : String} (h : startsNoNumber text.toList = false) :
    valuePayload text = [text] := by
  refine valuePayload_of_head fun c hc special => ?_
  obtain ⟨rest, same⟩ := List.head?_eq_some_iff.mp hc
  rw [same] at h
  rcases (by simpa using special : c = '"' ∨ c = '[' ∨ c = '\x7b') with rfl | rfl | rfl <;>
    cases h

theorem valuePayload_quoted (content : String) : valuePayload (quoted content) = [content] := by
  have spelled : (quoted content).toList = '"' :: (content.toList ++ ['"']) := by simp [quoted]
  have other (special : String) (hs : special.toList.head? ≠ some '"') :
      quoted content ≠ special := by
    rintro rfl
    exact hs (by rw [spelled]; rfl)
  unfold valuePayload
  rw [if_neg (other "[]" (by decide)), if_neg (other "\x7b\x7d" (by decide)), spelled]
  simp

/-- A value says its one token. -/
theorem payload_constValue {t : Token} (h : [t.terminal] ∈ Construct.constValue.spellings)
    (spelled : t.IsSpelled) :
    valuePayload t.text = (Site.mk .constValue false t).payload := by
  by_cases number : t.terminal ∈ [.integer, .decimal]
  · have digits := spelled.number (List.mem_pair.mp number)
    rcases List.mem_pair.mp number with terminal | terminal <;>
      simp [valuePayload_of_number digits, Site.payload, terminal]
  · have words : ∀ spelling ∈ Construct.constValue.spellings, ∀ k ∈ spelling,
        k ∉ [.integer, .decimal] →
        k.literal?.isSome = true ∧ valuePayload k.spelling = [k.spelling] := by
      decide
    obtain ⟨literal, word⟩ := words _ h _ (List.mem_singleton_self _) number
    have literals : ∀ k ∈ [t].map Token.terminal, k.literal?.isSome = true := by simpa using literal
    have text := map_text_of_literals (List.forall_mem_singleton.mpr spelled) literals
    have verbatim : Construct.constValue.isVerbatim = true := rfl
    have kept := flatMap_payload_of_literals verbatim literals
    simp only [List.map_singleton, List.flatMap_singleton, List.cons.injEq, and_true] at text kept
    rw [kept, text, word]

/-- A default says its tokens, a string its content. -/
theorem payload_defaultValue (h : ts.map Token.terminal ∈ Construct.defaultValue.spellings)
    (spelled : ∀ t ∈ ts, t.IsSpelled) :
    valuePayload (String.join (ts.map Token.text)) =
      (ts.map (Site.mk .defaultValue false)).flatMap Site.payload := by
  by_cases string : ts.map Token.terminal = [.string]
  · obtain ⟨u, rfl, terminal⟩ := List.map_eq_singleton_iff.mp string
    obtain ⟨content, text⟩ := (spelled u (List.mem_singleton_self u)).string terminal
    have same : u.content = content := by simp [Token.content, text, quoted]
    simp [Site.payload, terminal, same, text, valuePayload_quoted]
  · have words : ∀ spelling ∈ Construct.defaultValue.spellings, spelling ≠ [.string] →
        (∀ k ∈ spelling, k.literal?.isSome = true) ∧
        valuePayload (String.join (spelling.map Terminal.spelling)) =
          spelling.map Terminal.spelling := by
      decide
    obtain ⟨literals, words⟩ := words _ h string
    rw [flatMap_payload_of_literals rfl literals, map_text_of_literals spelled literals]
    exact words

/-- A primitive type says its words. -/
theorem payload_primitiveType (h : ts.map Token.terminal ∈ Construct.primitiveType.spellings)
    (spelled : ∀ t ∈ ts, t.IsSpelled) :
    typeNamePayload (" ".intercalate (ts.map Token.text)) =
      (ts.map (Site.mk .primitiveType false)).flatMap Site.payload := by
  have words : ∀ spelling ∈ Construct.primitiveType.spellings,
      (∀ k ∈ spelling, k.literal?.isSome = true) ∧
      typeNamePayload (" ".intercalate (spelling.map Terminal.spelling)) =
        spelling.map Terminal.spelling := by
    decide
  obtain ⟨literals, words⟩ := words _ h
  rw [flatMap_payload_of_literals rfl literals, map_text_of_literals spelled literals]
  exact words

theorem Construct.payload_combine_spelled (h : ts.map Token.terminal ∈ construct.spellings)
    (combined : construct.combine (ts.map .token) = some piece)
    (spelled : ∀ t ∈ ts, t.IsSpelled) :
    piece.payloadIn around = (ts.map (Site.mk construct false)).flatMap Site.payload := by
  cases construct <;> simp only [Construct.combine, Option.bind_eq_bind, Option.bind_eq_some_iff,
    Option.pure_def, Option.some.injEq, reduceCtorEq, tokens_map_token] at combined
  case primitiveType =>
    obtain rfl := combined
    exact payload_primitiveType h spelled
  case constValue =>
    obtain ⟨t, ht, rfl⟩ := combined
    have single : ∀ spelling ∈ Construct.constValue.spellings, spelling.length = 1 := by decide
    obtain ⟨u, rfl⟩ := List.length_eq_one_iff.mp ((List.length_map _).symm.trans (single _ h))
    obtain rfl : u = t := Option.some.inj ht
    simpa [Piece.payloadIn] using payload_constValue h (spelled u (List.mem_singleton_self u))
  case defaultValue =>
    have none : Pieces.literal? (ts.map .token) = none := by
      simp [Pieces.literal?, List.findSome?_eq_none_iff]
    rw [none] at combined
    obtain rfl := Option.some.inj combined
    exact payload_defaultValue h spelled
  case stringValue =>
    obtain ⟨t, ht, rfl⟩ := combined
    obtain ⟨u, rfl, string⟩ := List.map_eq_singleton_iff.mp (List.mem_singleton.mp h)
    obtain rfl : u = t := Option.some.inj ht
    simp [Pieces.textValue, Piece.payloadIn, AttributeValue.payload, Site.payload, string]
  case numberValue =>
    obtain ⟨t, ht, rfl⟩ := combined
    rcases List.mem_pair.mp h with one | one <;>
    · obtain ⟨u, rfl, number⟩ := List.map_eq_singleton_iff.mp one
      obtain rfl : u = t := Option.some.inj ht
      simp [Pieces.textValue, Piece.payloadIn, AttributeValue.payload, Site.payload, number]
  all_goals cases h

end Spelled

end WebSpec.Idl
