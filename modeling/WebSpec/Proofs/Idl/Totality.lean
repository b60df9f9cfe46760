import WebSpec.Proofs.Idl.Attribute

/-!
# Every derivation has a meaning

A construct gives no answer only where a piece that it needs is missing. `Construct.needs` lists
what each construct needs and `Construct.gives?` what it makes of it, and the right side of every
production supplies what its construct needs (`serves_productions`). So every derivation tree has a
meaning (`exists_meaning`).
-/

namespace WebSpec.Idl

open ContextFree (Derives DerivesAll ParseTree Production Symbol)

/-! ### Sorts of pieces -/

/-- The sorts of pieces that constructs cannot do without. -/
inductive PieceSort where
  | token | name | type | node | literal | attributeValue
  deriving DecidableEq

/-- Whether a piece is of a sort. -/
def PieceSort.holds : PieceSort → Piece → Bool
  | .token, .token _ => true
  | .name, .token t => t.terminal = .identifier
  | .type, .type _ => true
  | .node, .node _ => true
  | .literal, .literal _ => true
  | .attributeValue, .attributeValue _ => true
  | _, _ => false

namespace Pieces

variable (ps : Pieces)

/-- The number of pieces of a sort. -/
def amount (sort : PieceSort) : Nat :=
  ps.countP sort.holds

theorem length_tokens : ps.tokens.length = ps.amount .token := by
  induction ps with
  | nil => rfl
  | cons p ps ih => cases p <;> simp_all [tokens, amount, PieceSort.holds, List.countP_cons]

theorem length_names : ps.names.length = ps.amount .name := by
  induction ps with
  | nil => rfl
  | cons p ps ih =>
    cases p with
    | token t =>
      by_cases name : t.terminal = .identifier <;>
        simp_all [names, tokensOf, tokens, amount, PieceSort.holds]
    | _ => simp_all [names, tokensOf, tokens, amount, PieceSort.holds]

theorem length_types : ps.types.length = ps.amount .type := by
  induction ps with
  | nil => rfl
  | cons p ps ih => cases p <;> simp_all [types, amount, PieceSort.holds, List.countP_cons]

theorem length_nodes : ps.nodes.length = ps.amount .node := by
  induction ps with
  | nil => rfl
  | cons p ps ih => cases p <;> simp_all [nodes, amount, PieceSort.holds, List.countP_cons]

variable {ps}

theorem exists_token (h : 0 < ps.amount .token) : ∃ t, ps.tokens.head? = some t := by
  rw [← length_tokens] at h
  exact ⟨_, List.head?_eq_some_head (List.ne_nil_of_length_pos h)⟩

theorem exists_name (h : 0 < ps.amount .name) : ∃ name, ps.name? = some name := by
  rw [← length_names] at h
  exact ⟨_, List.head?_eq_some_head (List.ne_nil_of_length_pos h)⟩

theorem exists_type (h : 0 < ps.amount .type) : ∃ type, ps.types.head? = some type := by
  rw [← length_types] at h
  exact ⟨_, List.head?_eq_some_head (List.ne_nil_of_length_pos h)⟩

theorem exists_node (h : 0 < ps.amount .node) : ∃ node rest, ps.nodes = node :: rest := by
  rw [← length_nodes] at h
  exact List.exists_cons_of_ne_nil (List.ne_nil_of_length_pos h)

theorem exists_literal? (h : 0 < ps.amount .literal) : ∃ text, ps.literal? = some text := by
  rw [← Option.isSome_iff_exists, literal?, List.findSome?_isSome_iff]
  obtain ⟨piece, hp, holds⟩ := List.countP_pos_iff.mp h
  exact ⟨piece, hp, by cases piece <;> first | rfl | cases holds⟩

theorem exists_attributeValue? (h : 0 < ps.amount .attributeValue) :
    ∃ value, ps.attributeValue? = some value := by
  rw [← Option.isSome_iff_exists, attributeValue?, List.findSome?_isSome_iff]
  obtain ⟨piece, hp, holds⟩ := List.countP_pos_iff.mp h
  exact ⟨piece, hp, by cases piece <;> first | rfl | cases holds⟩

end Pieces

/-! ### Constructs -/

/-- How many pieces of which sorts a construct needs. -/
def Construct.needs : Construct → List (PieceSort × Nat)
  | .definition | .interfaceMember | .staticMember => [(.node, 1)]
  | .interface | .mixin | .callbackInterface | .namespaceDefinition | .dictionary | .enumeration
  | .inheritance | .namedType | .genericType | .identifierValue => [(.name, 1)]
  | .includesStatement | .implementsStatement => [(.name, 2)]
  | .callbackFunction | .typedef | .dictionaryMember | .attributeMember | .argument =>
    [(.name, 1), (.type, 1)]
  | .const => [(.name, 1), (.type, 1), (.literal, 1)]
  | .operation | .annotatedType | .type => [(.type, 1)]
  | .specialOperation => [(.token, 1), (.node, 1)]
  | .constValue | .plainAttribute | .callAttribute | .stringValue | .numberValue => [(.token, 1)]
  | .namedCallAttribute => [(.token, 1), (.name, 2)]
  | .valueAttribute => [(.token, 1), (.attributeValue, 1)]
  | _ => []

/-- Whether a construct needs no more names than it asks for. -/
def Construct.isRelation : Construct → Bool
  | .includesStatement | .implementsStatement => true
  | _ => false

/-- The sort of the piece that a construct makes, of those that other constructs need. -/
def Construct.gives? : Construct → Option PieceSort
  | .part | .inheritance | .argumentList | .argument | .attributeList | .plainAttribute
  | .callAttribute | .namedCallAttribute | .valueAttribute => none
  | .defaultValue | .constValue => some .literal
  | .annotatedType | .type | .namedType | .genericType | .primitiveType | .unionType => some .type
  | .identifierValue | .identifierListValue | .wildcardValue | .stringValue | .numberValue =>
    some .attributeValue
  | _ => some .node

/-- A construct makes a piece of what it needs. -/
theorem Construct.exists_combine {construct : Construct} {ps : Pieces} (group : construct ≠ .part)
    (served : ∀ need ∈ construct.needs, need.2 ≤ ps.amount need.1)
    (two : construct.isRelation = true → ps.amount .name = 2) :
    ∃ piece, construct.combine ps = some piece ∧
      ∀ sort, construct.gives? = some sort → sort.holds piece = true := by
  cases construct
  case part => exact absurd rfl group
  case definition =>
    obtain ⟨node, rest, hn⟩ := Pieces.exists_node (served (.node, 1) (by simp [needs]))
    simp [combine, hn, gives?, PieceSort.holds, List.getLast?_cons]
  case interfaceMember | staticMember =>
    obtain ⟨node, rest, hn⟩ := Pieces.exists_node (served (.node, 1) (by simp [needs]))
    simp [combine, Pieces.specialMember, hn, gives?, PieceSort.holds]
  case specialOperation =>
    obtain ⟨token, ht⟩ := Pieces.exists_token (served (.token, 1) (by simp [needs]))
    obtain ⟨node, rest, hn⟩ := Pieces.exists_node (served (.node, 1) (by simp [needs]))
    simp [combine, Pieces.specialMember, ht, hn, gives?, PieceSort.holds]
  case stringifier =>
    cases hn : ps.nodes <;> simp [combine, Pieces.specialMember, hn, gives?, PieceSort.holds]
  case interface | mixin | callbackInterface | namespaceDefinition | dictionary | enumeration |
      inheritance | namedType | genericType | identifierValue =>
    obtain ⟨name, hn⟩ := Pieces.exists_name (served (.name, 1) (by simp [needs]))
    simp [combine, Pieces.container, Pieces.textValue, hn, gives?, PieceSort.holds]
  case includesStatement | implementsStatement =>
    have both := two rfl
    rw [← ps.length_names] at both
    obtain ⟨target, included, hn⟩ := List.length_eq_two.mp both
    simp [combine, Pieces.relation, hn, gives?, PieceSort.holds]
  case callbackFunction | typedef | dictionaryMember | attributeMember | argument =>
    obtain ⟨name, hn⟩ := Pieces.exists_name (served (.name, 1) (by simp [needs]))
    obtain ⟨type, ht⟩ := Pieces.exists_type (served (.type, 1) (by simp [needs]))
    simp [combine, hn, ht, gives?, PieceSort.holds]
  case const =>
    obtain ⟨name, hn⟩ := Pieces.exists_name (served (.name, 1) (by simp [needs]))
    obtain ⟨type, ht⟩ := Pieces.exists_type (served (.type, 1) (by simp [needs]))
    obtain ⟨text, hl⟩ := Pieces.exists_literal? (served (.literal, 1) (by simp [needs]))
    simp [combine, hn, ht, hl, gives?, PieceSort.holds]
  case operation | annotatedType | type =>
    obtain ⟨type, ht⟩ := Pieces.exists_type (served (.type, 1) (by simp [needs]))
    simp [combine, ht, gives?, PieceSort.holds]
  case constValue | plainAttribute | callAttribute | stringValue | numberValue =>
    obtain ⟨token, ht⟩ := Pieces.exists_token (served (.token, 1) (by simp [needs]))
    simp [combine, Pieces.textValue, ht, gives?, PieceSort.holds]
  case namedCallAttribute =>
    obtain ⟨token, ht⟩ := Pieces.exists_token (served (.token, 1) (by simp [needs]))
    have second := served (.name, 2) (by simp [needs])
    rw [← ps.length_names] at second
    simp [combine, ht, List.getElem?_eq_getElem second, gives?]
  case valueAttribute =>
    obtain ⟨token, ht⟩ := Pieces.exists_token (served (.token, 1) (by simp [needs]))
    obtain ⟨value, hv⟩ :=
      Pieces.exists_attributeValue? (served (.attributeValue, 1) (by simp [needs]))
    simp [combine, ht, hv, gives?]
  case defaultValue =>
    cases hl : ps.literal? <;> simp [combine, hl, gives?, PieceSort.holds]
  all_goals simp [combine, Pieces.collection, Pieces.textValue, gives?, PieceSort.holds]

/-! ### Productions -/

/-- The sort of a piece that every derivation from a rule means, of those that constructs need. -/
def Rule.gives? : Rule → Option PieceSort
  | .definition | .definitionBody | .interface | .mixin | .callbackInterface | .callbackFunction
  | .namespaceDefinition | .dictionary | .enumeration | .typedef | .includesStatement
  | .implementsStatement | .interfaceMember | .memberBody | .const | .attributeMember | .operation
  | .specialOperation | .stringifier | .staticMember | .constructorMember | .iterable
  | .asyncIterable | .maplike | .setlike | .dictionaryMember => some .node
  | .default | .defaultValue | .constValue => some .literal
  | .annotatedType | .type | .singleType | .namedType | .genericType | .primitiveType
  | .unionType => some .type
  | .attributeValue => some .attributeValue
  | _ => none

/-- Whether every derivation from a symbol means a piece of a sort. -/
def supplies (sort : PieceSort) : Symbol → Bool
  | .terminal code => sort = .token || sort = .name && code = Terminal.identifier.code
  | .nonterminal code => Rule.all[code]?.bind Rule.gives? = some sort

/-- The number of pieces of a sort that every derivation from some symbols means. -/
def supply (sort : PieceSort) (symbols : List Symbol) : Nat :=
  symbols.countP (supplies sort)

/-- Whether a symbol is a terminal. -/
def isTerminal : Symbol → Bool
  | .terminal _ => true
  | .nonterminal _ => false

/-- Whether the right side of a production supplies what its construct needs, and the construct
makes what derivations from the left side mean. -/
def serves (construct : Construct) (p : Production) : Bool :=
  let given := Rule.all[p.left]?.bind Rule.gives?
  if construct = .part then given.all fun sort => 0 < supply sort p.right
  else
    construct.needs.all (fun need => need.2 ≤ supply need.1 p.right) &&
      given.all (fun sort => construct.gives? = some sort) &&
      (!construct.isRelation || p.right.all isTerminal && supply .name p.right = 2)

theorem serves_productions : ∀ p ∈ productions, serves p.1 p.2 = true := by
  decide +kernel

/-- All productions of a definition, and all of a value, have the same construct. -/
theorem sole_productions : ∀ p ∈ productions,
    (p.2.left = Rule.definition.code → p.1 = .definition) ∧
      (p.2.left = Rule.constValue.code → p.1 = .constValue) := by
  decide +kernel

/-! ### Trees -/

/-- The pieces are of the sorts that derivations from some symbols mean, and there are no others if
the symbols are terminals. -/
def Pieces.Serves (ps : Pieces) (symbols : List Symbol) : Prop :=
  ∀ sort, supply sort symbols ≤ ps.amount sort ∧
    (symbols.all isTerminal = true → ps.amount sort = supply sort symbols)

theorem Pieces.Serves.append {ps qs : Pieces} {first second : List Symbol} (h : ps.Serves first)
    (h' : qs.Serves second) : Pieces.Serves (ps ++ qs) (first ++ second) := by
  intro sort
  have amount : Pieces.amount (ps ++ qs) sort = ps.amount sort + qs.amount sort :=
    List.countP_append
  have supplied : supply sort (first ++ second) = supply sort first + supply sort second :=
    List.countP_append
  rw [amount, supplied, List.all_append, Bool.and_eq_true]
  exact ⟨Nat.add_le_add (h sort).1 (h' sort).1,
    fun all => by rw [(h sort).2 all.1, (h' sort).2 all.2]⟩

theorem serves_token (t : Token) : Pieces.Serves [.token t] [.terminal t.code] := by
  have name : t.code = Terminal.identifier.code ↔ t.terminal = .identifier :=
    ⟨Terminal.code_inj, fun same => by rw [Token.code, same]⟩
  intro sort
  have same : Pieces.amount [.token t] sort = supply sort [.terminal t.code] := by
    cases sort <;>
      simp [Pieces.amount, supply, supplies, PieceSort.holds, List.countP_cons, name]
  exact ⟨Nat.le_of_eq same.symm, fun _ => same⟩

/-- One piece of a sort that derivations from a rule mean serves it. -/
theorem serves_of_holds {left : Nat} {ps : Pieces}
    (h : ∀ sort, Rule.all[left]?.bind Rule.gives? = some sort → 0 < ps.amount sort) :
    ps.Serves [.nonterminal left] := by
  intro sort
  refine ⟨?_, by simp [isTerminal]⟩
  simp only [supply, supplies, List.countP_singleton, decide_eq_true_eq]
  split_ifs with given
  · exact h sort given
  · exact Nat.zero_le _

theorem serves_singleton {left : Nat} {piece : Piece}
    (h : ∀ sort, Rule.all[left]?.bind Rule.gives? = some sort → sort.holds piece = true) :
    Pieces.Serves [piece] [.nonterminal left] :=
  serves_of_holds fun sort given => by simp [Pieces.amount, h sort given]

@[simp] theorem PieceSort.holds_withFragment (sort : PieceSort) (piece : Piece)
    (fragment : String) : sort.holds (piece.withFragment fragment) = sort.holds piece := by
  cases piece <;> cases sort <;> rfl

theorem exists_construct {number : Nat} {p : Production}
    (hp : grammar.productions[number]? = some p) :
    ∃ construct, constructs[number]? = some construct ∧ (construct, p) ∈ productions := by
  have found : (productions.map Prod.snd)[number]? = some p := hp
  rw [List.getElem?_map, Option.map_eq_some_iff] at found
  obtain ⟨⟨construct, _⟩, found, rfl⟩ := found
  exact ⟨construct, by simp [constructs, found], List.mem_of_getElem? found⟩

/-- A part of a construct passes the pieces of its right side on. -/
theorem serves_of_part {p : Production} {ps : Pieces} (hp : (.part, p) ∈ productions)
    (h : ps.Serves p.right) : ps.Serves [.nonterminal p.left] := by
  have served := serves_productions _ hp
  simp only [serves, if_true, Option.all_eq_true, decide_eq_true_eq] at served
  exact serves_of_holds fun sort given => Nat.lt_of_lt_of_le (served sort given) (h sort).1

/-- A construct makes a piece of the pieces of its right side. -/
theorem exists_combine_of_serves {construct : Construct} {p : Production} {ps : Pieces}
    (hp : (construct, p) ∈ productions) (group : construct ≠ .part) (h : ps.Serves p.right) :
    ∃ piece, construct.combine ps = some piece ∧
      ∀ sort, Rule.all[p.left]?.bind Rule.gives? = some sort → sort.holds piece = true := by
  have served := serves_productions _ hp
  simp only [serves, if_neg group, Bool.and_eq_true, List.all_eq_true, decide_eq_true_eq,
    Option.all_eq_true, Bool.or_eq_true, Bool.not_eq_true'] at served
  obtain ⟨⟨needs, given⟩, relation⟩ := served
  obtain ⟨piece, combined, holds⟩ := Construct.exists_combine group
    (fun need hn => Nat.le_trans (needs need hn) (h need.1).1)
    (fun two => by
      obtain ⟨all, count⟩ := relation.resolve_left (by simp [two])
      rw [(h .name).2 (List.all_eq_true.mpr all), count])
  exact ⟨piece, combined, fun sort hs => holds sort (given sort hs)⟩

mutual

/-- Every derivation has a meaning. -/
theorem exists_meaning : ∀ {symbol : Symbol} {tree : ParseTree Token},
    Derives grammar Token.code symbol tree → ∃ ps, meaning tree = some ps ∧ ps.Serves [symbol]
  | _, _, .leaf token => ⟨[.token token], rfl, serves_token token⟩
  | _, .node number children, .node hp derives => by
    obtain ⟨ps, means, served⟩ := exists_meaningOfAll derives
    obtain ⟨construct, hc, mem⟩ := exists_construct hp
    rw [meaning, means]
    simp only [Option.bind_eq_bind, Option.bind_some, hc]
    split
    · exact ⟨ps, rfl, serves_of_part mem served⟩
    · obtain ⟨piece, combined, holds⟩ := exists_combine_of_serves mem (by simp) served
      rw [combined]
      exact ⟨_, rfl, serves_singleton (by simpa using holds)⟩
    · obtain ⟨piece, combined, holds⟩ := exists_combine_of_serves mem ‹_› served
      rw [combined]
      exact ⟨_, rfl, serves_singleton holds⟩

theorem exists_meaningOfAll : ∀ {symbols : List Symbol} {trees : List (ParseTree Token)},
    DerivesAll grammar Token.code symbols trees →
      ∃ ps, meaningOfAll trees = some ps ∧ ps.Serves symbols
  | _, _, .nil => ⟨[], rfl, fun sort => ⟨Nat.zero_le _, fun _ => rfl⟩⟩
  | _, _, .cons first others => by
    obtain ⟨head, hh, served⟩ := exists_meaning first
    obtain ⟨tail, ht, servedToo⟩ := exists_meaningOfAll others
    exact ⟨head ++ tail, by simp [meaningOfAll, hh, ht], served.append servedToo⟩

end

end WebSpec.Idl
