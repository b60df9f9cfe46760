import WebSpec.Proofs.Idl.Conservation

/-!
# What underscores do not matter for

A name means the same with an underscore in front of it, unless it is the own name of an extended
attribute (`Site.Escapes`). To a construct, names are respelled then (`Piece.Respelled`). Most
constructs read nothing else of a name than what it spells; those that keep the text of a token
have no names among their tokens (`nameless_productions`), or keep the own name of an extended
attribute. So trees whose names are escaped mean the same (`exists_meaning_of_escapes`).
-/

namespace WebSpec.Idl

open ContextFree (Derives DerivesAll ParseTree Symbol)

/-! ### Tokens -/

/-- A token, or a name with an underscore in front of its first letter. -/
inductive Token.Escapes (t : Token) : Token → Prop where
  | kept : t.Escapes t
  | escaped (identifier : t.terminal = .identifier)
      (letter : ∃ c ∈ t.text.toList.head?, c.isAlpha = true) :
      t.Escapes { t with text := escape t.text }

/-- The token of a site, or a name that may be escaped there: the own name of an extended attribute
may not. -/
inductive Site.Escapes (p : Site) : Token → Prop where
  | kept : p.Escapes p.token
  | escaped (identifier : p.token.terminal = .identifier) (other : p.isOwnName = false)
      (letter : ∃ c ∈ p.token.text.toList.head?, c.isAlpha = true) :
      p.Escapes { p.token with text := escape p.token.text }

theorem Site.Escapes.token {p : Site} {t : Token} (h : p.Escapes t) : p.token.Escapes t := by
  cases h with
  | kept => exact .kept
  | escaped identifier _ letter => exact .escaped identifier letter

/-- Fewer tokens may be escaped where the first one is an own name. -/
theorem escapes_of_nameFirst {ps : List Site} {tokens : List Token}
    (h : List.Forall₂ Site.Escapes (nameFirst ps) tokens) :
    List.Forall₂ Site.Escapes ps tokens := by
  cases ps with
  | nil => exact h
  | cons p ps =>
    obtain _ | ⟨first, others⟩ := h
    refine .cons ?_ others
    cases first with
    | kept => exact .kept
    | escaped _ other _ => cases other

/-- The token without its layout and text. -/
def Token.kind (t : Token) : Token :=
  { t with layout := "", text := "" }

theorem toList_escape (name : String) : (escape name).toList = '_' :: name.toList := by
  rw [escape, String.toList_append]
  rfl

namespace Token.Escapes

variable {t t' : Token} (h : t.Escapes t')
include h

theorem kind_eq : t'.kind = t.kind := by
  cases h <;> rfl

/-- The name is the same. -/
theorem name_eq : t'.name = t.name := by
  cases h with
  | kept => rfl
  | escaped _ letter =>
    obtain ⟨first, head, alpha⟩ := letter
    obtain ⟨others, split⟩ := List.head?_eq_some_iff.mp head
    have plain : t.name = t.text := by
      rw [Token.name, split]
      split
      · rename_i same
        obtain rfl := (List.cons.inj same).1
        cases alpha
      · rfl
    rw [plain]
    exact Token.name_escape t.text

end Token.Escapes

/-! ### Pieces -/

/-- A piece, or a name that is spelled otherwise. -/
inductive Piece.Respelled : Piece → Piece → Prop where
  | same (p : Piece) : Respelled p p
  | name {t t' : Token} (identifier : t.terminal = .identifier)
      (identifier' : t'.terminal = .identifier) (same : t'.name = t.name) :
      Respelled (.token t) (.token t')

theorem Token.Escapes.respelled {t t' : Token} (h : t.Escapes t') :
    (Piece.token t.bare).Respelled (.token t'.bare) := by
  have same := h.name_eq
  cases h with
  | kept => exact .same _
  | escaped identifier _ => exact .name identifier identifier same

namespace Pieces

variable {ps ps' : Pieces} (h : List.Forall₂ Piece.Respelled ps ps')
include h

/-- Where names are respelled, what looks at no more of a name than what it spells sees the same. -/
theorem map_respelled {α : Type} {take : Piece → α}
    (agree : ∀ {t t' : Token}, t.terminal = .identifier → t'.terminal = .identifier →
      t'.name = t.name → take (.token t') = take (.token t)) : ps'.map take = ps.map take := by
  induction h with
  | nil => rfl
  | cons first _ ih =>
    rw [List.map_cons, List.map_cons, ih]
    cases first with
    | same => rfl
    | name identifier identifier' same => rw [agree identifier identifier' same]

theorem filterMap_respelled {α : Type} {take : Piece → Option α}
    (agree : ∀ {t t' : Token}, t.terminal = .identifier → t'.terminal = .identifier →
      t'.name = t.name → take (.token t') = take (.token t)) :
    ps'.filterMap take = ps.filterMap take := by
  rw [← Function.id_comp take, ← List.filterMap_map, ← List.filterMap_map, map_respelled h agree]

theorem findSome?_respelled {α : Type} {take : Piece → Option α}
    (agree : ∀ {t t' : Token}, t.terminal = .identifier → t'.terminal = .identifier →
      t'.name = t.name → take (.token t') = take (.token t)) :
    ps'.findSome? take = ps.findSome? take := by
  rw [← Function.id_comp take, ← List.findSome?_map, ← List.findSome?_map, map_respelled h agree]

theorem types_respelled : ps'.types = ps.types :=
  filterMap_respelled h fun _ _ _ => rfl

theorem nodes_respelled : ps'.nodes = ps.nodes :=
  filterMap_respelled h fun _ _ _ => rfl

theorem arguments_respelled : ps'.arguments = ps.arguments := by
  rw [arguments, arguments, findSome?_respelled h fun _ _ _ => rfl]

theorem extAttributes_respelled : ps'.extAttributes = ps.extAttributes := by
  rw [extAttributes, extAttributes, findSome?_respelled h fun _ _ _ => rfl]

theorem inheritance?_respelled : ps'.inheritance? = ps.inheritance? :=
  findSome?_respelled h fun _ _ _ => rfl

theorem literal?_respelled : ps'.literal? = ps.literal? :=
  findSome?_respelled h fun _ _ _ => rfl

theorem attributeValue?_respelled : ps'.attributeValue? = ps.attributeValue? :=
  findSome?_respelled h fun _ _ _ => rfl

theorem terminals_respelled :
    ps'.tokens.map Token.terminal = ps.tokens.map Token.terminal := by
  simp only [tokens, List.map_filterMap]
  exact filterMap_respelled h fun identifier identifier' _ => by simp [identifier, identifier']

theorem names_respelled : ps'.names = ps.names := by
  simp only [names, tokensOf, tokens, List.filter_filterMap, List.map_filterMap]
  exact filterMap_respelled h fun identifier identifier' same => by
    simp [Option.filter, identifier, identifier', same]

theorem has_respelled (terminal : Terminal) : ps'.has terminal = ps.has terminal := by
  have same := congrArg (List.any · (· = terminal)) (terminals_respelled h)
  simpa [has, List.any_map, Function.comp_def] using same

theorem tokensOf_respelled {terminal : Terminal} (other : terminal ≠ .identifier) :
    ps'.tokensOf terminal = ps.tokensOf terminal := by
  simp only [tokensOf, tokens, List.filter_filterMap]
  exact filterMap_respelled h fun identifier identifier' _ => by
    simp [Option.filter, identifier, identifier', other.symm]

/-- Pieces without names stay as they are. -/
theorem eq_of_respelled (nameless : ∀ p ∈ ps, p.role? ≠ some .name) : ps' = ps := by
  induction h with
  | nil => rfl
  | cons first _ ih =>
    obtain ⟨other, others⟩ := List.forall_mem_cons.mp nameless
    rw [ih others]
    cases first with
    | same => rfl
    | name identifier => exact absurd (Terminal.role_eq_name.mpr identifier) other

end Pieces

/-! ### Constructs -/

namespace Construct

/-- Whether a construct keeps the text of a token that is not the own name of an extended
attribute. -/
def keepsText : Construct → Bool
  | .primitiveType | .constValue | .defaultValue | .specialOperation | .stringValue
  | .numberValue => true
  | _ => false

/-- Constructs do not look at how names are spelled, but for the own names of extended
attributes. -/
theorem combine_respelled {construct : Construct} {ps ps' : Pieces}
    (h : List.Forall₂ Piece.Respelled ps ps') (texts : construct.keepsText = true → ps' = ps)
    (own : construct.isAttribute = true → ps'.tokens.head? = ps.tokens.head?) :
    construct.combine ps' = construct.combine ps := by
  cases construct
  case primitiveType | constValue | defaultValue | specialOperation | stringValue | numberValue =>
    rw [texts rfl]
  case plainAttribute | callAttribute | namedCallAttribute | valueAttribute =>
    simp only [combine, own rfl, Pieces.arguments_respelled h, Pieces.names_respelled h,
      Pieces.attributeValue?_respelled h]
  case enumeration =>
    have values := Pieces.tokensOf_respelled h (by decide : Terminal.string ≠ .identifier)
    simp only [combine, Pieces.name?, Pieces.names_respelled h, values]
  case argumentList | attributeList =>
    simp only [combine]
    rw [Pieces.filterMap_respelled h fun _ _ _ => rfl]
  all_goals simp only [combine, Pieces.container, Pieces.relation, Pieces.collection,
    Pieces.specialMember, Pieces.name?, Pieces.types_respelled h, Pieces.nodes_respelled h,
    Pieces.names_respelled h, Pieces.has_respelled h, Pieces.arguments_respelled h,
    Pieces.extAttributes_respelled h, Pieces.inheritance?_respelled h, Pieces.literal?_respelled h]

/-- A construct that keeps the text of a token has no names. -/
theorem nameless_productions : ∀ p ∈ productions, p.1.keepsText = true →
    ∀ symbol ∈ p.2.right, (slotOf? symbol).map Slot.role ≠ some .name := by
  decide +kernel

end Construct

theorem Piece.role?_bare (p : Piece) : p.bare.role? = p.role? := by
  cases p <;> rfl

/-- Where no symbol means pieces of a role, there are none. -/
theorem role?_ne_of_blocks {role : Role} {symbols : List Symbol} {ps : Pieces}
    (blocks : Blocks symbols ps)
    (absent : ∀ symbol ∈ symbols, (slotOf? symbol).map Slot.role ≠ some role) :
    ∀ p ∈ ps, p.role? ≠ some role := by
  induction blocks with
  | nil => simp
  | @cons symbol symbols ps qs block _ ih =>
    obtain ⟨first, others⟩ := List.forall_mem_cons.mp absent
    refine List.forall_mem_append.mpr ⟨fun p hp same => ?_, ih others⟩
    cases hs : slotOf? symbol with
    | none =>
      rw [block.mute hs p hp] at same
      cases same
    | some slot =>
      rcases (block.fills slot hs).role p hp with none | filled
      · rw [none] at same
        cases same
      · rw [hs] at first
        exact first (filled.symm.trans same)

/-! ### Trees -/

theorem forall₂_of_append {α β : Type} {R : α → β → Prop} {front back : List α}
    {front' back' : List β} (length : front'.length = front.length)
    (h : List.Forall₂ R (front ++ back) (front' ++ back')) :
    List.Forall₂ R front front' ∧ List.Forall₂ R back back' := by
  have first := List.forall₂_take_append _ _ _ h
  have last := List.forall₂_drop_append _ _ _ h
  rw [length, List.take_left] at first
  rw [length, List.drop_left] at last
  exact ⟨first, last⟩

/-- The token that trees begin with is the first one among their pieces. -/
theorem head?_tokens_of_leaf {t : Token} {trees : List (ParseTree Token)} {ps : Pieces}
    (means : meaningOfAll (.leaf t :: trees) = some ps) : ps.tokens.head? = some t := by
  obtain ⟨_, -, means⟩ := Option.bind_eq_some_iff.mp means
  obtain rfl := Option.some.inj means
  rfl

section Nodes

variable {construct : Construct} {p : ContextFree.Production}
  {children children' : List (ParseTree Token)} {ps ps' : Pieces}

/-- The own name of an extended attribute is kept. -/
theorem head?_tokens_of_escapes (mem : (construct, p) ∈ productions)
    (owned : construct.isAttribute = true)
    (derives : DerivesAll grammar Token.code p.right children)
    (alike : ParseTree.mapAll Token.kind children' = ParseTree.mapAll Token.kind children)
    (escapes : List.Forall₂ Site.Escapes (nameFirst (sitesOfAll construct children))
      (ParseTree.tokensOfAll children'))
    (means : meaningOfAll children = some ps) (means' : meaningOfAll children' = some ps') :
    ps'.tokens.head? = ps.tokens.head? := by
  obtain ⟨begins, -⟩ := (arranges_productions _ mem).owned owned
  obtain ⟨number, right⟩ := p
  obtain _ | ⟨symbol, symbols⟩ := right
  · cases begins
  obtain rfl := Option.some.inj begins
  obtain _ | @⟨_, child, _, trees, leaf, _⟩ := derives
  obtain ⟨own, rfl⟩ := exists_leaf leaf
  obtain _ | ⟨_ | _, trees'⟩ := children' <;>
    simp only [ParseTree.mapAll, ParseTree.map, List.cons.injEq, reduceCtorEq, false_and] at alike
  rename_i own'
  obtain _ | ⟨first, _⟩ := escapes
  have same : own' = own := by
    cases first with
    | kept => rfl
    | escaped _ other _ => cases other
  rw [head?_tokens_of_leaf means, head?_tokens_of_leaf means', same]

/-- From pieces whose names are respelled, a construct makes the same piece, up to fragments. -/
theorem exists_combine_of_respelled {piece : Piece}
    (alike : List.Forall₂ Piece.Respelled (ps.map Piece.bare) (ps'.map Piece.bare))
    (texts : construct.keepsText = true → ∀ p ∈ ps, p.role? ≠ some .name)
    (own : construct.isAttribute = true → ps'.tokens.head? = ps.tokens.head?)
    (h : construct.combine ps = some piece) :
    ∃ piece', construct.combine ps' = some piece' ∧ piece'.bare = piece.bare := by
  have same : construct.combine (ps'.map Piece.bare) = construct.combine (ps.map Piece.bare) := by
    refine Construct.combine_respelled alike (fun keeps => ?_) (fun owned => ?_)
    · refine Pieces.eq_of_respelled alike (List.forall_mem_map.mpr fun p hp => ?_)
      rw [Piece.role?_bare]
      exact texts keeps p hp
    · rw [Pieces.tokens_bare, Pieces.tokens_bare, List.head?_map, List.head?_map, own owned]
  rw [Construct.combine_bare, Construct.combine_bare, h] at same
  simpa using same

end Nodes

mutual

/-- Trees whose names are escaped mean the same, up to how names are spelled and fragments. -/
theorem exists_meaning_of_escapes : ∀ {symbol : Symbol} {tree tree' : ParseTree Token}
    {ps : Pieces}, Derives grammar Token.code symbol tree →
      (∀ t ∈ tree.tokens, t.IsSpelled) → tree'.map Token.kind = tree.map Token.kind →
      meaning tree = some ps → ∀ around : Construct,
      List.Forall₂ Site.Escapes (sites around tree) tree'.tokens →
      ∃ ps', meaning tree' = some ps' ∧
        List.Forall₂ Piece.Respelled (ps.map Piece.bare) (ps'.map Piece.bare)
  | _, .leaf t, .leaf t', _, _, _, _, means => by
    intro around escapes
    obtain rfl := Option.some.inj means
    obtain _ | ⟨escapes, -⟩ := escapes
    exact ⟨[.token t'], rfl, .cons escapes.token.respelled .nil⟩
  | _, .node number children, .node number' children', ps, derives, spelled, same, means => by
    intro around escapes
    obtain ⟨rfl, alike⟩ : number' = number ∧ ParseTree.mapAll Token.kind children' =
        ParseTree.mapAll Token.kind children := by simpa [ParseTree.map] using same
    obtain _ | ⟨hp, derives⟩ := derives
    obtain ⟨inner, construct, hi, hc, made⟩ := meaning_node_iff.mp means
    have mem := exists_production hp hc
    have conserved := conservedAll_of_meaningOfAll derives spelled hi
    rw [sites, hc, Option.any_some] at escapes
    have inside : List.Forall₂ Site.Escapes
        (sitesOfAll (innermost around (some construct)) children)
        (ParseTree.tokensOfAll children') := by
      split_ifs at escapes
      · exact escapes_of_nameFirst escapes
      · exact escapes
    obtain ⟨inner', hi', respelled⟩ :=
      exists_meaningOfAll_of_escapes derives spelled alike hi _ inside
    rcases made with ⟨rfl, rfl⟩ | ⟨piece, combined, rfl⟩
    · exact ⟨inner', meaning_node_iff.mpr ⟨inner', .part, hi', hc, .inl ⟨rfl, rfl⟩⟩, respelled⟩
    · obtain ⟨piece', combined', same⟩ : ∃ piece', construct.combine inner' = some piece' ∧
          piece'.bare = piece.bare := by
        refine exists_combine_of_respelled respelled (fun keeps => ?_) (fun owned => ?_) combined
        · exact role?_ne_of_blocks conserved.blocks (Construct.nameless_productions _ mem keeps)
        · have inner : innermost around (some construct) = construct := by
            cases construct <;> first | rfl | cases owned
          rw [if_pos owned, inner] at escapes
          exact head?_tokens_of_escapes mem owned derives alike escapes hi hi'
      have means' :=
        meaning_node_iff.mpr ⟨inner', construct, hi', hc, .inr ⟨piece', combined', rfl⟩⟩
      refine ⟨_, means', ?_⟩
      simp only [List.map_singleton, Construct.bare_completed, same]
      exact .cons (.same _) .nil
  | _, .leaf _, .node _ _, _, _, _, alike, _ => by simp [ParseTree.map] at alike
  | _, .node _ _, .leaf _, _, _, _, alike, _ => by simp [ParseTree.map] at alike

theorem exists_meaningOfAll_of_escapes : ∀ {symbols : List Symbol}
    {trees trees' : List (ParseTree Token)} {ps : Pieces},
    DerivesAll grammar Token.code symbols trees →
      (∀ t ∈ ParseTree.tokensOfAll trees, t.IsSpelled) →
      ParseTree.mapAll Token.kind trees' = ParseTree.mapAll Token.kind trees →
      meaningOfAll trees = some ps → ∀ around : Construct,
      List.Forall₂ Site.Escapes (sitesOfAll around trees) (ParseTree.tokensOfAll trees') →
      ∃ ps', meaningOfAll trees' = some ps' ∧
        List.Forall₂ Piece.Respelled (ps.map Piece.bare) (ps'.map Piece.bare)
  | _, [], [], _, _, _, _, means => by
    intro around escapes
    obtain rfl := Option.some.inj means
    exact ⟨[], rfl, .nil⟩
  | _, tree :: rest, tree' :: rest', _, derives, spelled, alike, means => by
    intro around escapes
    obtain _ | ⟨first, others⟩ := derives
    obtain ⟨same, sames⟩ := List.cons.inj alike
    obtain ⟨head, hh, means⟩ := Option.bind_eq_some_iff.mp means
    obtain ⟨tail, ht, means⟩ := Option.bind_eq_some_iff.mp means
    obtain rfl := Option.some.inj means
    rw [ParseTree.tokensOfAll, List.forall_mem_append] at spelled
    have length : tree'.tokens.length = (sites around tree).length := by
      rw [← List.length_map Site.token, map_token_sites, ← List.length_map Token.kind,
        ← ParseTree.tokens_map, same, ParseTree.tokens_map, List.length_map]
    obtain ⟨front, back⟩ := forall₂_of_append length escapes
    obtain ⟨head', hh', alike⟩ :=
      exists_meaning_of_escapes first spelled.1 same hh _ front
    obtain ⟨tail', ht', alikes⟩ :=
      exists_meaningOfAll_of_escapes others spelled.2 sames ht _ back
    refine ⟨head' ++ tail', by rw [meaningOfAll, hh', ht']; rfl, ?_⟩
    rw [List.map_append, List.map_append]
    exact List.rel_append alike alikes
  | _, [], _ :: _, _, _, _, alike, _ => by simp [ParseTree.mapAll] at alike
  | _, _ :: _, [], _, _, _, alike, _ => by simp [ParseTree.mapAll] at alike

end

/-- Trees whose names are escaped stand for the same definitions, up to fragments. -/
theorem definitionsOf_of_escapes {symbol : Symbol} {tree tree' : ParseTree Token}
    (derives : Derives grammar Token.code symbol tree)
    (spelled : ∀ t ∈ tree.tokens, t.IsSpelled) (alike : tree'.map Token.kind = tree.map Token.kind)
    {around : Construct} (escapes : List.Forall₂ Site.Escapes (sites around tree) tree'.tokens) :
    ((definitionsOf tree').getD []).map Node.bare =
      ((definitionsOf tree).getD []).map Node.bare := by
  obtain ⟨ps, means, -⟩ := exists_meaning derives
  obtain ⟨ps', means', respelled⟩ :=
    exists_meaning_of_escapes derives spelled alike means _ escapes
  simp only [definitionsOf, means, means', Option.map_some, Option.getD_some]
  rw [← Pieces.nodes_bare, ← Pieces.nodes_bare, Pieces.nodes_respelled respelled]

end WebSpec.Idl
