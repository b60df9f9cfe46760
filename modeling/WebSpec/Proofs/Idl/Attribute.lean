import WebSpec.Idl.Definitions
import WebSpec.Proofs.Idl.Derivation
import WebSpec.Proofs.Outcome

/-!
# Values of extended attributes in a text

A list of names in the text of an extended attribute is not empty, so the value of an extended
attribute stands for at least one name. `Piece.Named` says this of everything that a subtree means;
each construct preserves it, where the production of the only construct that gives lists asks for a
name.
-/

namespace WebSpec.Idl

open ContextFree (Derives DerivesAll ParseTree)

/-! ### Named attributes -/

/-- The value of an attribute, if it has one, stands for at least one name. -/
def ExtAttribute.Named (attr : ExtAttribute) : Prop :=
  ∀ value, attr.value = some value → value.names ≠ []

/-- The extended attributes of a node are named. -/
def Node.Named (node : Node) : Prop :=
  ∀ attr ∈ node.attributes, attr.Named

/-- The extended attributes in a piece are named. -/
def Piece.Named : Piece → Prop
  | .extAttribute attr => attr.Named
  | .extAttributes attributes => ∀ attr ∈ attributes, attr.Named
  | .attributeValue value => value.names ≠ []
  | .node n => n.Named
  | _ => True

/-- The extended attributes in pieces are named. -/
def Pieces.Named (ps : Pieces) : Prop :=
  ∀ piece ∈ ps, piece.Named

theorem Node.named_of_nil {node : Node} (h : node.attributes = []) : node.Named := by
  simp [Node.Named, h]

namespace Pieces

variable {ps : Pieces}

theorem Named.extAttributes (h : ps.Named) : ∀ attr ∈ ps.extAttributes, attr.Named := by
  unfold Pieces.extAttributes
  cases hf : ps.findSome? _ with
  | none => simp
  | some attributes =>
    obtain ⟨piece, hp, hs⟩ := List.exists_of_findSome?_eq_some hf
    cases piece with
    | extAttributes found =>
      obtain rfl := Option.some.inj hs
      exact h _ hp
    | _ => cases hs

theorem Named.attributeValue {value : AttributeValue} (h : ps.Named)
    (hv : ps.attributeValue? = some value) : value.names ≠ [] := by
  obtain ⟨piece, hp, hs⟩ := List.exists_of_findSome?_eq_some hv
  cases piece with
  | attributeValue found =>
    obtain rfl := Option.some.inj hs
    exact h _ hp
  | _ => cases hs

theorem mem_nodes {node : Node} : node ∈ ps.nodes ↔ .node node ∈ ps := by
  simp only [nodes, List.mem_filterMap]
  constructor
  · rintro ⟨piece, hp, hs⟩
    cases piece with
    | node found => exact Option.some.inj hs ▸ hp
    | _ => cases hs
  · exact fun hp => ⟨_, hp, rfl⟩

theorem Named.node {node : Node} (h : ps.Named) (hn : node ∈ ps.nodes) : node.Named :=
  h _ (mem_nodes.mp hn)

theorem Named.specialMember {special : String} {piece : Piece} (h : ps.Named)
    (hs : ps.specialMember special = some piece) : piece.Named := by
  obtain ⟨node, hn, hs⟩ := Option.bind_eq_some_iff.mp hs
  obtain rfl := Option.some.inj hs
  have named : node.Named := h.node (List.mem_of_mem_head? hn)
  exact named

theorem named_container {kind : NodeKind} {piece : Piece} (h : ps.container kind = some piece) :
    piece.Named := by
  obtain ⟨name, -, h⟩ := Option.bind_eq_some_iff.mp h
  obtain rfl := Option.some.inj h
  exact Node.named_of_nil rfl

theorem named_relation {kind : NodeKind} {piece : Piece} (h : ps.relation kind = some piece) :
    piece.Named := by
  unfold relation at h
  split at h
  · obtain rfl := Option.some.inj h
    exact Node.named_of_nil rfl
  · cases h

end Pieces

/-! ### Constructs -/

/-- What a construct gives is named if its pieces are, except that a list has to have a name. -/
theorem Construct.named_of_combine {construct : Construct} {ps : Pieces} {piece : Piece}
    (named : ps.Named) (names : construct = .identifierListValue → ps.names ≠ [])
    (h : construct.combine ps = some piece) : piece.Named := by
  cases construct <;> simp only [combine, Option.bind_eq_bind, Option.bind_eq_some_iff,
    Option.pure_def, Option.some.injEq, reduceCtorEq] at h
  case interface | mixin | callbackInterface | namespaceDefinition | dictionary =>
    exact Pieces.named_container h
  case includesStatement | implementsStatement => exact Pieces.named_relation h
  case definition | interfaceMember =>
    obtain ⟨_, -, rfl⟩ := h
    exact named.extAttributes
  case dictionaryMember =>
    obtain ⟨_, -, _, -, rfl⟩ := h
    exact named.extAttributes
  case specialOperation =>
    obtain ⟨_, -, h⟩ := h
    exact named.specialMember h
  case staticMember => exact named.specialMember h
  case stringifier =>
    split_ifs at h
    · obtain rfl := Option.some.inj h
      exact Node.named_of_nil rfl
    · exact named.specialMember h
  case callbackFunction | typedef | attributeMember =>
    obtain ⟨_, -, _, -, rfl⟩ := h
    exact Node.named_of_nil rfl
  case const =>
    obtain ⟨_, -, _, -, _, -, rfl⟩ := h
    exact Node.named_of_nil rfl
  case enumeration | operation =>
    obtain ⟨_, -, rfl⟩ := h
    exact Node.named_of_nil rfl
  case constructorMember | iterable | asyncIterable | maplike | setlike =>
    obtain rfl := h
    exact Node.named_of_nil rfl
  case attributeList =>
    obtain rfl := h
    intro attr ha
    obtain ⟨piece, hp, hs⟩ := List.mem_filterMap.mp ha
    cases piece with
    | extAttribute found =>
      obtain rfl := Option.some.inj hs
      exact named _ hp
    | _ => cases hs
  case plainAttribute | callAttribute =>
    obtain ⟨_, -, rfl⟩ := h
    rintro _ ⟨⟩
  case namedCallAttribute =>
    obtain ⟨_, -, _, -, rfl⟩ := h
    rintro _ ⟨⟩
    simp [AttributeValue.names]
  case valueAttribute =>
    obtain ⟨_, -, value, hv, rfl⟩ := h
    rintro _ ⟨⟩
    exact named.attributeValue hv
  case identifierValue | stringValue | numberValue =>
    obtain ⟨_, -, rfl⟩ := h
    simp [Pieces.textValue, Piece.Named, AttributeValue.names]
  case wildcardValue =>
    obtain rfl := h
    simp [Pieces.textValue, Piece.Named, AttributeValue.names]
  case identifierListValue =>
    obtain rfl := h
    exact names rfl
  case defaultValue =>
    split at h <;> obtain rfl := Option.some.inj h <;> trivial
  case argument =>
    obtain ⟨_, -, _, -, rfl⟩ := h
    trivial
  case inheritance | constValue | annotatedType | type | namedType | genericType =>
    obtain ⟨_, -, rfl⟩ := h
    trivial
  case argumentList | primitiveType | unionType =>
    obtain rfl := h
    trivial

/-! ### Trees -/

/-- A list of names in the text of an attribute has a name. -/
theorem identifier_mem_of_identifierListValue :
    ∀ p ∈ productions, p.1 = .identifierListValue →
      .terminal Terminal.identifier.code ∈ p.2.right := by
  decide +kernel

theorem exists_production {number : Nat} {p : ContextFree.Production} {construct : Construct}
    (hp : grammar.productions[number]? = some p) (hc : constructs[number]? = some construct) :
    (construct, p) ∈ productions := by
  have hp : (productions.map Prod.snd)[number]? = some p := hp
  have hc : (productions.map Prod.fst)[number]? = some construct := by simpa [constructs] using hc
  rw [List.getElem?_map, Option.map_eq_some_iff] at hp hc
  obtain ⟨⟨_, _⟩, h, rfl⟩ := hp
  obtain ⟨_, h', rfl⟩ := hc
  obtain rfl := Option.some.inj (h.symm.trans h')
  exact List.mem_of_getElem? h

theorem token_mem_meaningOfAll {token : Token} {trees : List (ParseTree Token)} {ps : Pieces}
    (ht : .leaf token ∈ trees) (h : meaningOfAll trees = some ps) : .token token ∈ ps := by
  induction trees generalizing ps with
  | nil => cases ht
  | cons tree rest ih =>
    obtain ⟨first, hf, h⟩ := Option.bind_eq_some_iff.mp h
    obtain ⟨others, ho, h⟩ := Option.bind_eq_some_iff.mp h
    obtain rfl := Option.some.inj h
    rcases List.mem_cons.mp ht with rfl | ht
    · obtain rfl := Option.some.inj hf
      exact List.mem_append_left _ List.mem_cons_self
    · exact List.mem_append_right _ (ih ht ho)

theorem Pieces.names_ne_nil {ps : Pieces} {token : Token} (h : .token token ∈ ps)
    (ht : token.terminal = .identifier) : ps.names ≠ [] := by
  have hm : token ∈ ps.tokensOf .identifier := by
    refine List.mem_filter.mpr ⟨List.mem_filterMap.mpr ⟨_, h, rfl⟩, ?_⟩
    simp [ht]
  intro hn
  rw [names, List.map_eq_nil_iff] at hn
  rw [hn] at hm
  cases hm

theorem Terminal.code_inj {s t : Terminal} (h : s.code = t.code) : s = t := by
  have hs := ofCode?_code s
  rw [h, ofCode?_code] at hs
  exact (Option.some.inj hs).symm

/-- The children of a list of names have a name. -/
theorem names_ne_nil_of_derivesAll {number : Nat} {p : ContextFree.Production}
    {construct : Construct} {children : List (ParseTree Token)} {ps : Pieces}
    (hp : grammar.productions[number]? = some p) (hc : constructs[number]? = some construct)
    (derives : DerivesAll grammar Token.code p.right children)
    (h : meaningOfAll children = some ps) (list : construct = .identifierListValue) :
    ps.names ≠ [] := by
  have asks := identifier_mem_of_identifierListValue _ (exists_production hp hc) list
  obtain ⟨token, ht, hk⟩ := derives.leaf_mem asks
  exact Pieces.names_ne_nil (token_mem_meaningOfAll ht h) (Terminal.code_inj hk)

theorem Piece.Named.withFragment {piece : Piece} (h : piece.Named) (fragment : String) :
    (piece.withFragment fragment).Named := by
  cases piece <;> exact h

theorem Piece.Named.singleton {piece : Piece} (h : piece.Named) : Pieces.Named [piece] := by
  intro other ho
  rwa [List.mem_singleton.mp ho]

mutual

theorem named_of_meaning : ∀ {tree : ParseTree Token} {symbol : ContextFree.Symbol} {ps : Pieces},
    Derives grammar Token.code symbol tree → meaning tree = some ps → ps.Named
  | .leaf token, _, ps, _, h => by
    obtain rfl := Option.some.inj h
    exact Piece.Named.singleton (show (Piece.token token).Named from trivial)
  | .node number children, _, ps, .node hp derives, h => by
    obtain ⟨inner, hi, h⟩ := Option.bind_eq_some_iff.mp h
    obtain ⟨construct, hc, h⟩ := Option.bind_eq_some_iff.mp h
    have named := named_of_meaningOfAll derives hi
    have names := names_ne_nil_of_derivesAll hp hc derives hi
    split at h
    · exact Option.some.inj h ▸ named
    · obtain ⟨piece, hcombine, h⟩ := Option.bind_eq_some_iff.mp h
      obtain rfl := Option.some.inj h
      exact ((Construct.named_of_combine named names hcombine).withFragment _).singleton
    · obtain ⟨piece, hcombine, h⟩ := Option.bind_eq_some_iff.mp h
      obtain rfl := Option.some.inj h
      exact (Construct.named_of_combine named names hcombine).singleton

theorem named_of_meaningOfAll : ∀ {trees : List (ParseTree Token)}
    {symbols : List ContextFree.Symbol} {ps : Pieces},
    DerivesAll grammar Token.code symbols trees → meaningOfAll trees = some ps → ps.Named
  | [], _, ps, _, h => by
    obtain rfl := Option.some.inj h
    intro piece hp
    cases hp
  | tree :: rest, _, ps, .cons first others, h => by
    obtain ⟨head, hh, h⟩ := Option.bind_eq_some_iff.mp h
    obtain ⟨tail, ht, h⟩ := Option.bind_eq_some_iff.mp h
    obtain rfl := Option.some.inj h
    intro piece hp
    rcases List.mem_append.mp hp with hp | hp
    · exact named_of_meaning first hh piece hp
    · exact named_of_meaningOfAll others ht piece hp

end

/-- The extended attributes of the definitions in a text are named. -/
theorem named_of_parse {text : String} {definitions : List Node} (h : parse text = .ok definitions)
    {node : Node} (hn : node ∈ definitions) : node.Named := by
  obtain ⟨tree, ht, h⟩ := bind_eq_ok.mp h
  obtain rfl := Except.ok.inj h
  cases hm : meaning tree with
  | none => simp [definitionsOf, hm] at hn
  | some ps =>
    simp only [definitionsOf, hm, Option.map_some, Option.getD_some] at hn
    exact (named_of_meaning (derives_of_parseTree ht) hm).node hn

end WebSpec.Idl
