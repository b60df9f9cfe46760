import WebSpec.Idl.Piece
import WebSpec.Proofs.ContextFree.Relabeling

/-!
# What layout does not matter for

Of the layout before its tokens, the meaning of a tree keeps only the fragments of the definitions.
`bare` takes both away, from tokens, from nodes and from pieces; every construct respects that
(`Construct.combine_bare`), and so trees whose tokens differ in their layout only mean the same up
to fragments (`exists_meaning_of_map_eq`).
-/

namespace WebSpec.Idl

open ContextFree (ParseTree)

/-- The token without the layout before it. -/
def Token.bare (t : Token) : Token :=
  { t with layout := "" }

namespace Node

mutual

/-- The node without fragments. -/
def bare : Node → Node
  | ⟨kind, name, isPartial, inheritance, members, attributes, arguments, type, typeArguments,
      special, isReadonly, isRequired, value, target, includes, _⟩ =>
    ⟨kind, name, isPartial, inheritance, bareAll members, attributes, arguments, type,
      typeArguments, special, isReadonly, isRequired, value, target, includes, ""⟩

/-- The nodes without fragments. -/
def bareAll : List Node → List Node
  | [] => []
  | node :: rest => node.bare :: bareAll rest

end

theorem bareAll_eq_map (nodes : List Node) : bareAll nodes = nodes.map bare := by
  induction nodes with
  | nil => rfl
  | cons node rest ih => rw [bareAll, ih, List.map_cons]

mutual

/-- Without fragments there are none to take away. -/
theorem bare_bare : ∀ node : Node, node.bare.bare = node.bare
  | ⟨_, _, _, _, members, _, _, _, _, _, _, _, _, _, _, _⟩ => by
    rw [bare, bare, bareAll_bareAll members]

theorem bareAll_bareAll : ∀ nodes : List Node, bareAll (bareAll nodes) = bareAll nodes
  | [] => rfl
  | node :: rest => by rw [bareAll, bareAll, bare_bare node, bareAll_bareAll rest]

end

/-- A node without members is what is left of it and its fragment. -/
theorem eq_of_bare_eq {node other : Node} (childless : node.members = [])
    (same : other.bare = node.bare) : other = { node with fragment := other.fragment } := by
  obtain ⟨_, _, _, _, members, _, _, _, _, _, _, _, _, _, _, _⟩ := node
  obtain ⟨_, _, _, _, members', _, _, _, _, _, _, _, _, _, _, _⟩ := other
  subst childless
  cases members' with
  | nil => simpa [bare, bareAll] using same
  | cons => simp [bare, bareAll] at same

end Node

/-- The piece without layout and fragments. -/
def Piece.bare : Piece → Piece
  | .token t => .token t.bare
  | .node n => .node n.bare
  | piece => piece

/-! ### Pieces -/

namespace Pieces

variable (ps : Pieces)

theorem tokens_bare : tokens (ps.map Piece.bare) = ps.tokens.map Token.bare := by
  induction ps with
  | nil => rfl
  | cons p ps ih => cases p <;> simp_all [tokens, Piece.bare]

theorem types_bare : types (ps.map Piece.bare) = ps.types := by
  induction ps with
  | nil => rfl
  | cons p ps ih => cases p <;> simp_all [types, Piece.bare]

theorem nodes_bare : nodes (ps.map Piece.bare) = ps.nodes.map Node.bare := by
  induction ps with
  | nil => rfl
  | cons p ps ih => cases p <;> simp_all [nodes, Piece.bare]

theorem tokensOf_bare (terminal : Terminal) :
    tokensOf (ps.map Piece.bare) terminal = (ps.tokensOf terminal).map Token.bare := by
  rw [tokensOf, tokens_bare, List.filter_map]
  rfl

theorem names_bare : names (ps.map Piece.bare) = ps.names := by
  rw [names, tokensOf_bare, List.map_map]
  rfl

theorem has_bare (terminal : Terminal) : has (ps.map Piece.bare) terminal = ps.has terminal := by
  rw [has, tokens_bare, List.any_map]
  rfl

theorem arguments_bare : arguments (ps.map Piece.bare) = ps.arguments := by
  induction ps with
  | nil => rfl
  | cons p ps ih => cases p <;> simp_all [arguments, Piece.bare]

theorem extAttributes_bare : extAttributes (ps.map Piece.bare) = ps.extAttributes := by
  induction ps with
  | nil => rfl
  | cons p ps ih => cases p <;> simp_all [extAttributes, Piece.bare]

theorem inheritance?_bare : inheritance? (ps.map Piece.bare) = ps.inheritance? := by
  induction ps with
  | nil => rfl
  | cons p ps ih => cases p <;> simp_all [inheritance?, Piece.bare]

theorem literal?_bare : literal? (ps.map Piece.bare) = ps.literal? := by
  induction ps with
  | nil => rfl
  | cons p ps ih => cases p <;> simp_all [literal?, Piece.bare]

theorem attributeValue?_bare : attributeValue? (ps.map Piece.bare) = ps.attributeValue? := by
  induction ps with
  | nil => rfl
  | cons p ps ih => cases p <;> simp_all [attributeValue?, Piece.bare]

theorem container_bare (kind : NodeKind) :
    container (ps.map Piece.bare) kind = (ps.container kind).map Piece.bare := by
  simp only [container, name?, names_bare, has_bare, inheritance?_bare, nodes_bare]
  cases ps.names.head? with
  | none => rfl
  | some name => simp [Piece.bare, Node.bare, Node.bareAll_eq_map]

theorem relation_bare (kind : NodeKind) :
    relation (ps.map Piece.bare) kind = (ps.relation kind).map Piece.bare := by
  simp only [relation, names_bare]
  split <;> rfl

theorem collection_bare (kind : NodeKind) :
    collection (ps.map Piece.bare) kind = (ps.collection kind).bare := by
  simp only [collection, types_bare, arguments_bare, has_bare]
  rfl

theorem specialMember_bare (special : String) :
    specialMember (ps.map Piece.bare) special = (ps.specialMember special).map Piece.bare := by
  simp only [specialMember, nodes_bare, List.head?_map]
  cases ps.nodes.head? with
  | none => rfl
  | some node => cases node; rfl

end Pieces

/-! ### Constructs -/

/-- Constructs respect what is left without layout and fragments. -/
theorem Construct.combine_bare (construct : Construct) (ps : Pieces) :
    construct.combine (ps.map Piece.bare) = (construct.combine ps).map Piece.bare := by
  cases construct <;> simp only [combine, Pieces.container_bare, Pieces.relation_bare,
    Pieces.collection_bare, Pieces.specialMember_bare, Pieces.name?, Pieces.tokens_bare,
    Pieces.types_bare, Pieces.nodes_bare, Pieces.tokensOf_bare, Pieces.names_bare,
    Pieces.has_bare, Pieces.arguments_bare, Pieces.extAttributes_bare, Pieces.literal?_bare,
    Pieces.attributeValue?_bare, List.head?_map, List.getLast?_map, List.map_map, List.isEmpty_map,
    Option.map_some, Option.map_none]
  case definition =>
    cases ps.nodes.getLast? with
    | none => rfl
    | some node => cases node; rfl
  case interfaceMember =>
    cases ps.nodes.head? with
    | none => rfl
    | some node => cases node; rfl
  case enumeration =>
    cases ps.names.head? with
    | none => rfl
    | some name => simp [Piece.bare, Node.bare, Node.bareAll_eq_map, Node.bareAll, Token.content,
        Token.bare]
  case stringifier => split_ifs <;> rfl
  case argumentList | attributeList =>
    simp only [List.filterMap_map, Piece.bare]
    congr
    funext piece
    cases piece <;> rfl
  case specialOperation => cases ps.tokens.head? <;> rfl
  case defaultValue => cases ps.literal? <;> rfl
  case callbackFunction | typedef | attributeMember | dictionaryMember | argument =>
    cases ps.names.head? <;> cases ps.types.head? <;> rfl
  case const => cases ps.names.head? <;> cases ps.types.head? <;> cases ps.literal? <;> rfl
  case inheritance | namedType | genericType | identifierValue => cases ps.names.head? <;> rfl
  case operation | annotatedType | type => cases ps.types.head? <;> rfl
  case constValue | plainAttribute | callAttribute | stringValue | numberValue =>
    cases ps.tokens.head? <;> rfl
  case namedCallAttribute => cases ps.names[1]? <;> cases ps.tokens.head? <;> rfl
  case valueAttribute => cases ps.tokens.head? <;> cases ps.attributeValue? <;> rfl
  case constructorMember | primitiveType | unionType | identifierListValue | wildcardValue => rfl

theorem Piece.bare_withFragment (fragment : String) (piece : Piece) :
    (piece.withFragment fragment).bare = piece.bare := by
  cases piece with
  | node node => cases node; rfl
  | _ => rfl

/-! ### Trees -/

/-- The piece that a construct has made, for a definition with the text of its tokens. -/
def Construct.completed (construct : Construct) (children : List (ParseTree Token))
    (piece : Piece) : Piece :=
  if construct = .definition then piece.withFragment (fragmentOf (ParseTree.tokensOfAll children))
  else piece

theorem Construct.bare_completed (construct : Construct) (children : List (ParseTree Token))
    (piece : Piece) : (construct.completed children piece).bare = piece.bare := by
  unfold completed
  split_ifs
  · exact piece.bare_withFragment _
  · rfl

/-- A node means what its children mean, if it is a part, and otherwise what its construct makes of
that. -/
theorem meaning_node_iff {number : Nat} {children : List (ParseTree Token)} {ps : Pieces} :
    meaning (.node number children) = some ps ↔
      ∃ inner construct, meaningOfAll children = some inner ∧
        constructs[number]? = some construct ∧
        (construct = .part ∧ ps = inner ∨
          ∃ piece, construct.combine inner = some piece ∧
            ps = [construct.completed children piece]) := by
  constructor
  · intro h
    obtain ⟨inner, hi, h⟩ := Option.bind_eq_some_iff.mp h
    obtain ⟨construct, hc, h⟩ := Option.bind_eq_some_iff.mp h
    refine ⟨inner, construct, hi, hc, ?_⟩
    split at h
    · exact .inl ⟨rfl, (Option.some.inj h).symm⟩
    · obtain ⟨piece, combined, h⟩ := Option.bind_eq_some_iff.mp h
      exact .inr ⟨piece, combined, (Option.some.inj h).symm⟩
    · rename_i other
      obtain ⟨piece, combined, h⟩ := Option.bind_eq_some_iff.mp h
      refine .inr ⟨piece, combined, ?_⟩
      rw [Construct.completed, if_neg other]
      exact (Option.some.inj h).symm
  · rintro ⟨inner, construct, hi, hc, ⟨rfl, rfl⟩ | ⟨piece, combined, rfl⟩⟩
    · simp [meaning, hi, hc]
    · cases construct
      case part => cases combined
      all_goals simp [meaning, hi, hc, combined, Construct.completed]

/-- From pieces that are the same without layout and fragments, constructs make such pieces. -/
theorem exists_combine_eq {ps ps' : Pieces} {construct : Construct} {piece : Piece}
    (same : ps'.map Piece.bare = ps.map Piece.bare) (h : construct.combine ps = some piece) :
    ∃ piece', construct.combine ps' = some piece' ∧ piece'.bare = piece.bare := by
  have hb := construct.combine_bare ps'
  rw [same, construct.combine_bare, h] at hb
  simpa [eq_comm] using hb

mutual

/-- Trees whose tokens differ in their layout only mean the same up to fragments. -/
theorem exists_meaning_of_map_eq : ∀ {tree tree' : ParseTree Token} {ps : Pieces},
    tree'.map Token.bare = tree.map Token.bare → meaning tree = some ps →
      ∃ ps', meaning tree' = some ps' ∧ ps'.map Piece.bare = ps.map Piece.bare
  | .leaf token, .leaf token', ps, same, h => by
    obtain rfl := Option.some.inj h
    refine ⟨[.token token'], rfl, ?_⟩
    simpa [ParseTree.map, Piece.bare] using same
  | .node number children, .node number' children', ps, same, h => by
    obtain ⟨rfl, alike⟩ : number' = number ∧ ParseTree.mapAll Token.bare children' =
        ParseTree.mapAll Token.bare children := by simpa [ParseTree.map] using same
    obtain ⟨inner, construct, hi, hc, made⟩ := meaning_node_iff.mp h
    obtain ⟨inner', hi', same⟩ := exists_meaningOfAll_of_mapAll_eq alike hi
    rcases made with ⟨rfl, rfl⟩ | ⟨piece, combined, rfl⟩
    · exact ⟨inner', meaning_node_iff.mpr ⟨inner', .part, hi', hc, .inl ⟨rfl, rfl⟩⟩, same⟩
    · obtain ⟨piece', combined', same⟩ := exists_combine_eq same combined
      have means := meaning_node_iff.mpr ⟨inner', construct, hi', hc, .inr ⟨piece', combined', rfl⟩⟩
      refine ⟨_, means, ?_⟩
      simp only [List.map_singleton, Construct.bare_completed, same]
  | .leaf _, .node _ _, _, same, _ => by simp [ParseTree.map] at same
  | .node _ _, .leaf _, _, same, _ => by simp [ParseTree.map] at same

theorem exists_meaningOfAll_of_mapAll_eq : ∀ {trees trees' : List (ParseTree Token)} {ps : Pieces},
    ParseTree.mapAll Token.bare trees' = ParseTree.mapAll Token.bare trees →
    meaningOfAll trees = some ps →
      ∃ ps', meaningOfAll trees' = some ps' ∧ ps'.map Piece.bare = ps.map Piece.bare
  | [], [], ps, _, h => ⟨ps, h, rfl⟩
  | tree :: rest, tree' :: rest', ps, same, h => by
    obtain ⟨first, others⟩ := List.cons.inj same
    obtain ⟨head, hh, h⟩ := Option.bind_eq_some_iff.mp h
    obtain ⟨tail, ht, h⟩ := Option.bind_eq_some_iff.mp h
    obtain rfl := Option.some.inj h
    obtain ⟨head', hh', same⟩ := exists_meaning_of_map_eq first hh
    obtain ⟨tail', ht', same'⟩ := exists_meaningOfAll_of_mapAll_eq others ht
    exact ⟨head' ++ tail', by rw [meaningOfAll, hh', ht']; rfl, by simp [same, same']⟩
  | [], _ :: _, _, same, _ => by simp [ParseTree.mapAll] at same
  | _ :: _, [], _, same, _ => by simp [ParseTree.mapAll] at same

end

/-- Trees whose tokens differ in their layout only stand for the same definitions, up to
fragments. -/
theorem definitionsOf_of_map_eq {tree tree' : ParseTree Token}
    (same : tree'.map Token.bare = tree.map Token.bare) :
    ((definitionsOf tree').getD []).map Node.bare =
      ((definitionsOf tree).getD []).map Node.bare := by
  cases means : meaning tree with
  | some ps =>
    obtain ⟨ps', means', alike⟩ := exists_meaning_of_map_eq same means
    simp only [definitionsOf, means, means', Option.map_some, Option.getD_some]
    rw [← Pieces.nodes_bare, alike, Pieces.nodes_bare]
  | none =>
    have means' : meaning tree' = none := by
      by_contra found
      obtain ⟨ps', means'⟩ := Option.ne_none_iff_exists'.mp found
      obtain ⟨ps, found, -⟩ := exists_meaning_of_map_eq same.symm means'
      rw [means] at found
      cases found
    simp [definitionsOf, means, means']

end WebSpec.Idl
