import WebSpec.Proofs.Idl.PiecePayload
import WebSpec.Proofs.Idl.RoundTrip
import WebSpec.Proofs.Idl.Transcript

/-!
# Nothing is lost

What the definitions in a text say is what its tokens say, from left to right
(`payload_of_parse`). Every construct keeps what its pieces say; a construct that gives extended
attributes to a node or a type gets it without any, so that none are overwritten.
-/

namespace WebSpec.Idl

open ContextFree (Derives DerivesAll ParseTree Production)

/-! ### Extended attributes -/

namespace Construct

variable {construct : Construct} {ps : Pieces} {piece : Piece}

/-- Whether a construct makes no node or type with extended attributes of its own. -/
def isUnattributed : Construct → Bool
  | .dictionaryMember => false
  | construct => !construct.isAdornment

/-- Whether a construct gives a node or a type on. -/
def isPassing : Construct → Bool
  | .type | .specialOperation | .stringifier | .staticMember => true
  | _ => false

theorem isUnattributed_combine (plain : construct.isUnattributed = true)
    (bare : construct.isPassing = true → ∀ p ∈ ps, p.IsUnattributed)
    (h : construct.combine ps = some piece) : piece.IsUnattributed := by
  have member (bare : ∀ p ∈ ps, p.IsUnattributed) {special : String} {piece : Piece}
      (h : ps.specialMember special = some piece) : piece.IsUnattributed := by
    obtain ⟨node, hn, h⟩ := Option.bind_eq_some_iff.mp h
    obtain rfl := Option.some.inj h
    have plain : node.attributes = [] :=
      bare _ (Pieces.mem_nodes.mp (List.mem_of_mem_head? hn))
    exact plain
  cases construct <;> simp only [combine, Option.bind_eq_bind, Option.bind_eq_some_iff,
    Option.pure_def, Option.some.injEq, reduceCtorEq] at h
  case interface | mixin | callbackInterface | namespaceDefinition | dictionary =>
    obtain ⟨_, -, h⟩ := Option.bind_eq_some_iff.mp h
    obtain rfl := Option.some.inj h
    rfl
  case includesStatement | implementsStatement =>
    unfold Pieces.relation at h
    split at h
    · obtain rfl := Option.some.inj h
      rfl
    · cases h
  case specialOperation =>
    obtain ⟨_, -, h⟩ := h
    exact member (bare rfl) h
  case staticMember => exact member (bare rfl) h
  case stringifier =>
    split_ifs at h
    · obtain rfl := Option.some.inj h
      rfl
    · exact member (bare rfl) h
  case type =>
    obtain ⟨type, ht, rfl⟩ := h
    have plain : type.attributes = [] :=
      bare rfl _ (Pieces.mem_of_mem_types (List.mem_of_mem_head? ht))
    split_ifs
    · cases type <;> exact plain
    · exact plain
  case const =>
    obtain ⟨_, -, _, -, _, -, rfl⟩ := h
    rfl
  case callbackFunction | typedef | attributeMember =>
    obtain ⟨_, -, _, -, rfl⟩ := h
    rfl
  case enumeration | operation | namedType | genericType =>
    obtain ⟨_, -, rfl⟩ := h
    rfl
  case constructorMember | iterable | asyncIterable | maplike | setlike | primitiveType |
      unionType =>
    obtain rfl := h
    rfl
  case defaultValue => split at h <;> obtain rfl := Option.some.inj h <;> trivial
  case argument | namedCallAttribute | valueAttribute =>
    obtain ⟨_, -, _, -, rfl⟩ := h
    trivial
  case argumentList | attributeList | identifierListValue | wildcardValue =>
    obtain rfl := h
    trivial
  case inheritance | constValue | plainAttribute | callAttribute | identifierValue |
      stringValue | numberValue =>
    obtain ⟨_, -, rfl⟩ := h
    trivial
  all_goals cases plain

end Construct

/-- Whether the nodes and types that derivations from a rule mean have no extended attributes. -/
def Rule.isUnattributed : Rule → Bool
  | .root | .start | .definitions | .definition | .interfaceMembers | .interfaceMember
  | .dictionaryMembers | .dictionaryMember | .annotatedType | .moreTypes
  | .moreAlternatives => false
  | _ => true

/-- The same of a symbol. -/
def isUnattributed : ContextFree.Symbol → Bool
  | .terminal _ => true
  | .nonterminal code => Rule.all[code]?.any Rule.isUnattributed

/-- A construct and its production agree on which pieces have no extended attributes. -/
structure AttributesAgree (construct : Construct) (p : Production) : Prop where
  /-- What derivations from the left side mean has some just if the construct gives them. -/
  left : construct ≠ .part → isUnattributed (.nonterminal p.left) = true →
    construct.isUnattributed = true
  /-- A part gives pieces without any on. -/
  part : construct = .part → isUnattributed (.nonterminal p.left) = true →
    p.right.all isUnattributed = true
  /-- A construct that gives some to a node or a type gets it without any. -/
  right : (construct.isAdornment || construct.isPassing) = true →
    p.right.all isUnattributed = true

instance (construct : Construct) (p : Production) : Decidable (AttributesAgree construct p) :=
  decidable_of_iff (_ ∧ _ ∧ _)
    ⟨fun h => ⟨h.1, h.2.1, h.2.2⟩, fun h => ⟨h.left, h.part, h.right⟩⟩

theorem attributesAgree_productions : ∀ p ∈ productions, AttributesAgree p.1 p.2 := by
  decide +kernel

/-! ### Trees -/

/-- The pieces that a tree of a symbol means say what its tokens say. -/
structure Conserved (symbol : ContextFree.Symbol) (tree : ParseTree Token) (ps : Pieces) :
    Prop where
  block : IsBlock symbol ps
  plain : isUnattributed symbol = true → ∀ p ∈ ps, p.IsUnattributed
  spelled : ∀ t, .token t ∈ ps → t.IsSpelled
  payload : ∀ around, (sites around tree).flatMap Site.payload =
    ps.flatMap (Piece.payloadIn around)

/-- The pieces that trees of some symbols mean say what their tokens say. -/
structure ConservedAll (symbols : List ContextFree.Symbol) (trees : List (ParseTree Token))
    (ps : Pieces) : Prop where
  blocks : Blocks symbols ps
  plain : symbols.all isUnattributed = true → ∀ p ∈ ps, p.IsUnattributed
  spelled : ∀ t, .token t ∈ ps → t.IsSpelled
  payload : ∀ around, (sitesOfAll around trees).flatMap Site.payload =
    ps.flatMap (Piece.payloadIn around)

section Nodes

variable {construct around : Construct} {p : Production} {children : List (ParseTree Token)}
  {ps : Pieces} {piece : Piece}

/-- A tree of a value means a value. -/
theorem exists_literal {tree : ParseTree Token}
    (h : Derives grammar Token.code (.nonterminal Rule.constValue.code) tree)
    (means : meaning tree = some ps) : ∃ text, ps = [.literal text] := by
  obtain ⟨number, p, children, rfl, hp, left, -⟩ := h.exists_children
  obtain ⟨construct, hc, mem⟩ := exists_construct hp
  obtain rfl : construct = .constValue := (sole_productions _ mem).2 left
  obtain ⟨inner, -, means⟩ := Option.bind_eq_some_iff.mp means
  obtain ⟨found, hf, means⟩ := Option.bind_eq_some_iff.mp means
  obtain rfl := Option.some.inj (hc.symm.trans hf)
  obtain ⟨piece, combined, means⟩ := Option.bind_eq_some_iff.mp means
  obtain ⟨t, -, combined⟩ := Option.bind_eq_some_iff.mp combined
  obtain rfl := Option.some.inj combined
  exact ⟨t.text, (Option.some.inj means).symm⟩

theorem payload_attribute (mem : (construct, p) ∈ productions)
    (owned : construct.isAttribute = true)
    (derives : DerivesAll grammar Token.code p.right children)
    (means : meaningOfAll children = some ps) (conserved : ConservedAll p.right children ps)
    (h : construct.combine ps = some piece) :
    (nameFirst (sitesOfAll construct children)).flatMap Site.payload =
      piece.payloadIn around := by
  obtain ⟨begins, follows⟩ := (arranges_productions _ mem).owned owned
  have payload := conserved.payload construct
  have blocks := conserved.blocks
  obtain ⟨number, right⟩ := p
  obtain _ | ⟨symbol, symbols⟩ := right
  · cases begins
  obtain rfl := Option.some.inj begins
  obtain _ | @⟨_, front, _, qs, first, others⟩ := blocks
  obtain ⟨t, rfl, code⟩ := first.token _ rfl
  have identifier : t.terminal = .identifier := Terminal.code_inj code
  obtain _ | @⟨_, child, _, trees, own, _⟩ := derives
  obtain ⟨u, rfl⟩ := exists_leaf own
  have same : u = t := by
    obtain ⟨_, -, means⟩ := Option.bind_eq_some_iff.mp means
    exact Piece.token.inj (List.cons.inj (Option.some.inj means)).1
  subst same
  rw [sitesOfAll, sites] at payload ⊢
  have rest : (sitesOfAll construct trees).flatMap Site.payload =
      qs.flatMap (Piece.payloadIn construct) := by
    simpa [Piece.payloadIn] using payload
  have supplied : Supplied construct qs :=
    ⟨arranged_of_follows others follows,
      fun v hv => conserved.spelled v (List.mem_cons_of_mem _ hv), fun adornment q hq =>
        conserved.plain ((attributesAgree_productions _ mem).right (by simp [adornment])) q
          (List.mem_cons_of_mem _ hq)⟩
  rw [Construct.payload_combine_attribute owned h supplied identifier]
  simp [nameFirst, rest, Site.payload, identifier]

theorem payload_spelled (mem : (construct, p) ∈ productions) (group : construct ≠ .part)
    (irregular : construct.isRegular = false) (own : construct.isAttribute = false)
    (derives : DerivesAll grammar Token.code p.right children)
    (means : meaningOfAll children = some ps) (conserved : ConservedAll p.right children ps)
    (h : construct.combine ps = some piece) :
    (sitesOfAll construct children).flatMap Site.payload = piece.payloadIn around := by
  rcases spelled_productions _ mem group irregular own with spelling | ⟨default, value⟩
  · obtain ⟨spelling, hs, same⟩ := List.mem_map.mp spelling
    have terminals : p.right.all isTerminal = true := by
      rw [← same]
      simp [isTerminal]
    obtain ⟨ts, rfl, codes⟩ := exists_leaves derives terminals
    rw [meaningOfAll_leaves] at means
    obtain rfl := Option.some.inj means
    have terminals : ts.map Token.terminal = spelling := by
      have same : (ts.map Token.terminal).map (fun k => ContextFree.Symbol.terminal k.code) =
          spelling.map fun k => ContextFree.Symbol.terminal k.code := by
        rw [List.map_map, same, codes]
        rfl
      exact List.map_injective_iff.mpr
        (fun k k' h => Terminal.code_inj (ContextFree.Symbol.terminal.inj h)) same
    rw [sitesOfAll_leaves]
    refine (Construct.payload_combine_spelled (terminals ▸ hs) h fun t ht => ?_).symm
    exact conserved.spelled t (List.mem_map_of_mem ht)
  · obtain rfl : construct = .defaultValue := default
    obtain ⟨number, right⟩ := p
    obtain rfl : right = _ := value
    obtain _ | @⟨_, child, _, _, derives, _ | _⟩ := derives
    have means : meaning child = some ps := by
      rw [meaningOfAll] at means
      simpa [meaningOfAll] using means
    obtain ⟨text, rfl⟩ := exists_literal derives means
    obtain rfl : Piece.literal text = piece := by
      simpa [Construct.combine, Pieces.literal?] using h
    simpa [Piece.payloadIn] using conserved.payload .defaultValue

/-- A construct makes a piece of what it says. -/
theorem payload_node (mem : (construct, p) ∈ productions) (group : construct ≠ .part)
    (derives : DerivesAll grammar Token.code p.right children)
    (means : meaningOfAll children = some ps) (conserved : ConservedAll p.right children ps)
    (h : construct.combine ps = some piece) {number : Nat}
    (hc : constructs[number]? = some construct) :
    (sites around (.node number children)).flatMap Site.payload = piece.payloadIn around := by
  have inner : innermost around (some construct) = construct := by
    cases construct <;> first | rfl | exact absurd rfl group
  rw [sites, hc, inner]
  simp only [Option.any_some]
  split_ifs with owned
  · exact payload_attribute mem owned derives means conserved h
  · have own : construct.isAttribute = false := by simpa using owned
    cases regular : construct.isRegular with
    | false => exact payload_spelled mem group regular own derives means conserved h
    | true =>
      have loose : construct.isVerbatim = false := by
        cases construct <;> first | rfl | cases regular
      rw [conserved.payload construct, Construct.payload_combine regular h
        ⟨arranged_of_follows conserved.blocks
            ((arranges_productions _ mem).regular group loose own),
          conserved.spelled, fun adornment =>
            conserved.plain ((attributesAgree_productions _ mem).right (by simp [adornment]))⟩]

/-- The piece that a construct makes. -/
theorem conserved_of_combine (mem : (construct, p) ∈ productions) (group : construct ≠ .part)
    (conserved : ConservedAll p.right children ps) (h : construct.combine ps = some piece)
    {number : Nat} (payload : ∀ around, (sites around (.node number children)).flatMap
      Site.payload = piece.payloadIn around) :
    Conserved (.nonterminal p.left) (.node number children) [piece] where
  block := isBlock_singleton
    (((arranges_productions _ mem).role group).trans (Construct.role_of_combine h).symm)
  plain left := by
    rw [List.forall_mem_singleton]
    have agree := attributesAgree_productions _ mem
    exact Construct.isUnattributed_combine (agree.left group left)
      (fun passing => conserved.plain (agree.right (by simp [passing]))) h
  spelled t ht := by
    have made : ∀ role, construct.role? = some role → role ∉ [.name, .quoted, .number] := by
      cases construct <;> simp [Construct.role?]
    have role := Construct.role_of_combine h
    rw [← List.mem_singleton.mp ht] at role
    cases hr : construct.role? with
    | none => exact absurd (by cases construct <;> first | rfl | cases hr) group
    | some found => exact absurd (role.trans hr) (Terminal.role_ne (made found hr))
  payload around := by rw [payload, List.flatMap_singleton]

theorem Conserved.withFragment {symbol : ContextFree.Symbol} {tree : ParseTree Token}
    (h : Conserved symbol tree [piece]) (fragment : String) :
    Conserved symbol tree [piece.withFragment fragment] := by
  cases piece with
  | node n =>
    have self : Piece.node n ∈ [Piece.node n] := List.mem_singleton_self _
    refine ⟨⟨fun code same => ?_, fun none => ?_, fun slot hs => ⟨?_, fun _ => ?_⟩⟩,
      fun plain => ?_, ?_, fun around => ?_⟩
    · obtain ⟨t, ht, -⟩ := h.block.token code same
      cases ht
    · rw [List.forall_mem_singleton]
      exact h.block.mute none (.node n) self
    · rw [List.forall_mem_singleton]
      exact (h.block.fills slot hs).role (.node n) self
    · exact List.length_filter_le ..
    · rw [List.forall_mem_singleton]
      exact h.plain plain (.node n) self
    · rintro t (_ | ⟨_, ⟨⟩⟩)
    · rw [h.payload]
      simp [Piece.withFragment, Piece.payloadIn]
  | _ => exact h

end Nodes

mutual

/-- Whatever a tree means says what its tokens say. -/
theorem conserved_of_meaning : ∀ {symbol : ContextFree.Symbol} {tree : ParseTree Token}
    {ps : Pieces}, Derives grammar Token.code symbol tree → (∀ t ∈ tree.tokens, t.IsSpelled) →
      meaning tree = some ps → Conserved symbol tree ps
  | _, .leaf t, _, .leaf _, spelled, means => by
    obtain rfl := Option.some.inj means
    refine ⟨isBlock_token t, fun _ => ?_, fun u hu => ?_, fun around => rfl⟩
    · rw [List.forall_mem_singleton]
      trivial
    · obtain rfl := Piece.token.inj (List.mem_singleton.mp hu)
      exact spelled u (List.mem_singleton_self u)
  | _, .node number children, ps, .node hp derives, spelled, means => by
    obtain ⟨inner, hi, means⟩ := Option.bind_eq_some_iff.mp means
    obtain ⟨construct, hc, means⟩ := Option.bind_eq_some_iff.mp means
    have mem := exists_production hp hc
    have conserved := conservedAll_of_meaningOfAll derives spelled hi
    have made (group : construct ≠ .part) {piece : Piece}
        (h : construct.combine inner = some piece) :=
      conserved_of_combine mem group conserved h fun around =>
        payload_node mem group derives hi conserved h hc
    split at means
    · obtain rfl := Option.some.inj means
      refine ⟨isBlock_of_arranged
          (arranged_of_follows conserved.blocks ((arranges_productions _ mem).part rfl)),
        fun plain => conserved.plain ((attributesAgree_productions _ mem).part rfl plain),
        conserved.spelled, fun around => ?_⟩
      rw [sites, hc]
      exact conserved.payload around
    · obtain ⟨piece, hcombine, means⟩ := Option.bind_eq_some_iff.mp means
      obtain rfl := Option.some.inj means
      exact (made (by simp) hcombine).withFragment _
    · obtain ⟨piece, hcombine, means⟩ := Option.bind_eq_some_iff.mp means
      obtain rfl := Option.some.inj means
      exact made ‹_› hcombine

theorem conservedAll_of_meaningOfAll : ∀ {symbols : List ContextFree.Symbol}
    {trees : List (ParseTree Token)} {ps : Pieces}, DerivesAll grammar Token.code symbols trees →
      (∀ t ∈ ParseTree.tokensOfAll trees, t.IsSpelled) → meaningOfAll trees = some ps →
      ConservedAll symbols trees ps
  | _, [], _, .nil, _, means => by
    obtain rfl := Option.some.inj means
    exact ⟨.nil, by simp, by simp, fun _ => rfl⟩
  | _, tree :: rest, _, .cons first others, spelled, means => by
    obtain ⟨head, hh, means⟩ := Option.bind_eq_some_iff.mp means
    obtain ⟨tail, ht, means⟩ := Option.bind_eq_some_iff.mp means
    obtain rfl := Option.some.inj means
    rw [ParseTree.tokensOfAll, List.forall_mem_append] at spelled
    have front := conserved_of_meaning first spelled.1 hh
    have back := conservedAll_of_meaningOfAll others spelled.2 ht
    refine ⟨.cons front.block back.blocks, fun plain => ?_, fun t ht => ?_, fun around => ?_⟩
    · obtain ⟨plain, plains⟩ := Bool.and_eq_true_iff.mp plain
      exact List.forall_mem_append.mpr ⟨front.plain plain, back.plain plains⟩
    · exact (List.mem_append.mp ht).elim (front.spelled t) (back.spelled t)
    · rw [sitesOfAll, List.flatMap_append, List.flatMap_append, front.payload, back.payload]

end

/-! ### Texts -/

/-- Nothing is lost: what the definitions in a text say is what its tokens say, from left to
right. -/
theorem payload_of_parse {text : String} {definitions : List Node}
    (h : parse text = .ok definitions) :
    ∃ tree gap, parseTree text = .ok tree ∧ text.toList = textOf tree.tokens ++ gap ∧
      (∀ t ∈ tree.tokens, IsGap t.layout.toList) ∧ IsGap (gap ++ ['\n']) ∧
      (sites .part tree).map Site.token = tree.tokens ∧
      definitions.flatMap Node.payload = (sites .part tree).flatMap Site.payload := by
  obtain ⟨tree, ht, h⟩ := bind_eq_ok.mp h
  obtain rfl := Except.ok.inj h
  obtain ⟨gap, final, split, read, -⟩ := parseTree_eq_ok_iff.mp ht
  have starts : ∀ t ∈ tree.tokens, ∃ accepted cs rest, t.Starts accepted cs rest :=
    fun t member => read.exists_starts member
  refine ⟨tree, gap, ht, split, fun t member => ?_, read.closes, map_token_sites _ tree, ?_⟩
  · obtain ⟨accepted, cs, rest, found⟩ := starts t member
    exact found.isGap
  · obtain ⟨ps, means, -⟩ := exists_meaning (derives_of_parseTree ht)
    have conserved := conserved_of_meaning (derives_of_parseTree ht) (fun t member => by
      obtain ⟨accepted, cs, rest, found⟩ := starts t member
      exact isSpelled_of_starts found) means
    have said : ps.flatMap (Piece.payloadIn .part) = ps.nodes.flatMap Node.payload := by
      rw [(conserved.block.fills (.many .node) rfl).flatMap_eq
        fun p _ => Piece.payloadIn_eq_nil rfl]
      exact ps.said_node .part
    rw [conserved.payload, said, definitionsOf, means]
    rfl

/-- A dictionary with an own name that begins with an underscore, a primitive type of two words, and
two defaults. -/
theorem payload_of_parse_dictionary :
    let text := "[ _Exposed = _Window ] dictionary _Options : _Base \x7b " ++
      "unsigned long _size = \"big\" ; _sequence < _Kind > _kinds = [ ] ; \x7d ;"
    ∃ definitions tree gap, parse text = .ok definitions ∧ parseTree text = .ok tree ∧
      text.toList = textOf tree.tokens ++ gap ∧
      (sites .part tree).map Site.token = tree.tokens ∧
      definitions.flatMap Node.payload = (sites .part tree).flatMap Site.payload ∧
      (sites .part tree).flatMap Site.payload =
        ["_Exposed", "Window", "Options", "Base", "unsigned", "long", "size", "big", "sequence",
         "Kind", "kinds", "[", "]"] := by
  intro text
  let kinds : TypeExpr := .generic "sequence" [.named "Kind" false []] false []
  let options : Node :=
    { kind := .known .dictionary, name := "Options", inheritance := some "Base",
      attributes := [⟨"_Exposed", some ⟨.identifier, .text "Window"⟩, none⟩],
      members :=
        [{ kind := .known .field, name := "size",
           type := some (.named "unsigned long" false []), value := some "\"big\"" },
         { kind := .known .field, name := "kinds", type := some kinds, value := some "[]" }] }
  have size : TypeExpr.WellFormed (.named "unsigned long" false []) := by
    have known : ["unsigned", "long"] ∈ primitiveTypes := by decide
    exact .primitive known (by simp)
  have kinds_formed : kinds.WellFormed :=
    .generic (by decide) (by simp) (List.forall_mem_singleton.mpr (.named (by decide) (by simp)))
      (by simp)
  have big : IsDefaultValue (quoted "big") := .quoted (by decide)
  have formed : ∀ d ∈ [options], d.IsDefinition := by
    refine List.forall_mem_singleton.mpr ⟨.dictionary (by decide) ?_ ?_, ?_⟩
    · rintro _ ⟨⟩
      decide
    · refine List.forall_mem_cons.mpr ⟨.optional (by decide) size rfl ?_ (by simp),
        List.forall_mem_singleton.mpr (.optional (by decide) kinds_formed rfl ?_ (by simp))⟩
      · rintro _ ⟨⟩
        exact big
      · rintro _ ⟨⟩
        exact .word (by decide)
    · exact List.forall_mem_singleton.mpr (.value (by decide) (.identifier (by decide)))
  obtain ⟨definitions, parsed, same⟩ := parse_of_spells (spells_definitions formed)
  rw [show " ".intercalate ([options].flatMap Node.words) = text by decide] at parsed
  obtain ⟨tree, gap, read, split, -, -, tokens, said⟩ := payload_of_parse parsed
  refine ⟨definitions, tree, gap, parsed, read, split, tokens, said, ?_⟩
  have bare (nodes : List Node) : nodes.flatMap Node.payload =
      (nodes.map Node.bare).flatMap Node.payload := by
    rw [List.flatMap_map]
    exact List.flatMap_congr fun node _ => (Node.payload_bare node).symm
  rw [← said, bare, same, ← bare]
  decide

end WebSpec.Idl
