import Mathlib.Data.List.Forall2
import Mathlib.Data.List.Induction
import WebSpec.Proofs.Idl.Bare
import WebSpec.Proofs.Idl.TableCheck
import WebSpec.Proofs.Idl.Totality

/-!
# The trees of definitions

The tree of a text is a list of trees, one for each definition, and means what they mean one after
the other (`meaning_whole`). The tree of a definition means one node, and its fragment is the text
of the tree without the layout in front (`exists_node`); so layout in front does not matter for it
(`definitionOf_leftward`).
-/

namespace WebSpec.Idl

open ContextFree (Derives DerivesAll Entry Leftward ParseTree Repetition)

/-! ### Lists of definitions -/

/-- A tree of a definition. -/
def IsDefinitionTree (tree : ParseTree Token) : Prop :=
  Derives grammar Token.code (.nonterminal Rule.definition.code) tree

theorem meaningOfAll_singleton (tree : ParseTree Token) : meaningOfAll [tree] = meaning tree := by
  rw [meaningOfAll]
  cases meaning tree <;> simp [meaningOfAll]

theorem meaningOfAll_concat (trees : List (ParseTree Token)) (tree : ParseTree Token) :
    meaningOfAll (trees ++ [tree]) = (do pure ((← meaningOfAll trees) ++ (← meaning tree))) := by
  induction trees with
  | nil =>
    rw [List.nil_append, meaningOfAll_singleton]
    cases meaning tree <;> rfl
  | cons first rest ih =>
    rw [List.cons_append, meaningOfAll, ih, meaningOfAll]
    cases meaning first <;> cases meaningOfAll rest <;> cases meaning tree <;> simp

theorem meaning_part {number : Nat} (h : constructs[number]? = some .part)
    (children : List (ParseTree Token)) :
    meaning (.node number children) = meaningOfAll children := by
  rw [meaning]
  cases meaningOfAll children <;> simp [h]

theorem part_definitionList :
    ∀ number ∈ [definitionList.empty, definitionList.filled, definitionList.one,
      definitionList.more], constructs[number]? = some .part := by
  decide +kernel

theorem meaning_base (trees : List (ParseTree Token)) :
    meaningOfAll ((definitionList.base trees).map Entry.tree) = meaningOfAll trees := by
  induction trees using List.reverseRecOn with
  | nil => rfl
  | append_singleton trees tree ih =>
    rw [Repetition.base_append_singleton, meaningOfAll_concat, ← ih]
    rcases definitionList.base_cases trees with empty | ⟨list, filled⟩
    · rw [empty, Repetition.grow, List.map_singleton, meaningOfAll_singleton,
        meaning_part (part_definitionList _ (by simp)), meaningOfAll_singleton]
      cases meaning tree <;> rfl
    · rw [filled, Repetition.grow, List.map_singleton, meaningOfAll_singleton,
        meaning_part (part_definitionList _ (by simp)), List.map_singleton,
        meaningOfAll_singleton, ← meaningOfAll_singleton list, ← meaningOfAll_concat]
      rfl

/-- The tree of some definitions means what they mean one after the other. -/
theorem meaning_whole (trees : List (ParseTree Token)) :
    meaning (definitionList.whole trees) = meaningOfAll trees := by
  rw [← meaning_base trees, Repetition.whole]
  rcases definitionList.base_cases trees with empty | ⟨list, filled⟩
  · rw [empty]
    exact meaning_part (part_definitionList _ (by simp)) []
  · rw [filled]
    exact meaning_part (part_definitionList _ (by simp)) [list]

theorem derivesAll_of_derives {number : Nat} {p : ContextFree.Production}
    {children : List (ParseTree Token)} {symbol : ContextFree.Symbol}
    (hp : table.productions[number]? = some p)
    (h : Derives grammar Token.code symbol (.node number children)) :
    DerivesAll grammar Token.code p.right children := by
  obtain _ | @⟨_, p', _, hp', derives⟩ := h
  have same : grammar.productions[number]? = some p := by simpa [table_productions] using hp
  rw [hp'] at same
  exact Option.some.inj same ▸ derives

theorem isDefinitionTree_of_base {trees : List (ParseTree Token)}
    (h : ∀ entry ∈ definitionList.base trees, ∃ symbol,
      Derives grammar Token.code symbol entry.tree) :
    ∀ tree ∈ trees, IsDefinitionTree tree := by
  induction trees using List.reverseRecOn with
  | nil => simp
  | append_singleton trees tree ih =>
    rw [Repetition.base_append_singleton] at h
    rcases definitionList.base_cases trees with empty | ⟨list, filled⟩
    · rw [empty, Repetition.grow] at h
      obtain ⟨_, derives⟩ := h _ (List.mem_singleton_self _)
      obtain _ | ⟨element, _⟩ := derivesAll_of_derives repeats_definitions.one derives
      rw [List.forall_mem_append, List.forall_mem_singleton]
      exact ⟨ih (by simp [empty]), element⟩
    · rw [filled, Repetition.grow] at h
      obtain ⟨_, derives⟩ := h _ (List.mem_singleton_self _)
      obtain _ | ⟨before, _ | ⟨element, _⟩⟩ :=
        derivesAll_of_derives repeats_definitions.more derives
      rw [List.forall_mem_append, List.forall_mem_singleton]
      exact ⟨ih (by simpa [filled] using ⟨_, before⟩), element⟩

/-- In the tree of a text there are trees of definitions. -/
theorem isDefinitionTree_of_whole {trees : List (ParseTree Token)}
    (h : Derives grammar Token.code (.nonterminal Rule.start.code) (definitionList.whole trees)) :
    ∀ tree ∈ trees, IsDefinitionTree tree := by
  refine isDefinitionTree_of_base fun entry he => ?_
  rcases definitionList.base_cases trees with empty | ⟨list, filled⟩
  · simp [empty] at he
  · rw [filled, List.mem_singleton] at he
    subst he
    rw [Repetition.whole, filled] at h
    obtain _ | ⟨list, _⟩ := derivesAll_of_derives repeats_definitions.filled h
    exact ⟨_, list⟩

/-! ### One definition -/

/-- A tree of a definition means one node, whose fragment is the text of the tree. -/
theorem exists_node {tree : ParseTree Token} (h : IsDefinitionTree tree) :
    ∃ node, meaning tree = some [.node node] ∧ node.fragment = fragmentOf tree.tokens := by
  unfold IsDefinitionTree at h
  obtain ⟨number, p, children, rfl, hp, left, derives⟩ := h.exists_children
  obtain ⟨construct, hc, mem⟩ := exists_construct hp
  obtain rfl : construct = .definition := (sole_productions _ mem).1 left
  obtain ⟨ps, means, served⟩ := exists_meaningOfAll derives
  obtain ⟨piece, combined, holds⟩ := exists_combine_of_serves mem (by simp) served
  have sort := holds .node (by rw [left]; decide)
  cases piece with
  | node node =>
    refine ⟨{ node with fragment := fragmentOf (ParseTree.tokensOfAll children) }, ?_, rfl⟩
    simp [meaning, means, hc, combined, Piece.withFragment]
  | _ => cases sort

/-- The definition that a tree means. -/
def definitionOf (tree : ParseTree Token) : Node :=
  match definitionsOf tree with
  | some [node] => node
  | _ => { kind := .given "" }

theorem definitionOf_eq {tree : ParseTree Token} {node : Node}
    (h : meaning tree = some [.node node]) : definitionOf tree = node := by
  simp [definitionOf, definitionsOf, h, Pieces.nodes]

theorem fragment_definitionOf {tree : ParseTree Token} (h : IsDefinitionTree tree) :
    (definitionOf tree).fragment = fragmentOf tree.tokens := by
  obtain ⟨node, means, fragment⟩ := exists_node h
  rw [definitionOf_eq means, fragment]

theorem meaningOfAll_definitions {trees : List (ParseTree Token)}
    (h : ∀ tree ∈ trees, IsDefinitionTree tree) :
    meaningOfAll trees = some ((trees.map definitionOf).map .node) := by
  induction trees with
  | nil => rfl
  | cons tree rest ih =>
    rw [List.forall_mem_cons] at h
    obtain ⟨node, means, -⟩ := exists_node h.1
    simp [meaningOfAll, means, ih h.2, definitionOf_eq means]

/-- The tree of some definitions stands for each of them, in order. -/
theorem definitionsOf_whole {trees : List (ParseTree Token)}
    (h : ∀ tree ∈ trees, IsDefinitionTree tree) :
    definitionsOf (definitionList.whole trees) = some (trees.map definitionOf) := by
  rw [definitionsOf, meaning_whole, meaningOfAll_definitions h]
  simp [Pieces.nodes, List.filterMap_map, Function.comp_def]

/-- A text means the definitions whose trees are in its tree. -/
theorem parse_of_whole {text : String} {trees : List (ParseTree Token)}
    (h : parseTree text = .ok (definitionList.whole trees)) :
    parse text = .ok (trees.map definitionOf) := by
  have definitions := isDefinitionTree_of_whole (derives_of_parseTree h)
  simp [parse, h, definitionsOf_whole definitions, pure, Except.pure, bind, Except.bind]

/-! ### Layout in front -/

/-- Tokens that differ in the layout before them at most. -/
def Token.Like (t t' : Token) : Prop :=
  t'.bare = t.bare

theorem Token.Like.symm (t t' : Token) (h : t.Like t') : t'.Like t :=
  Eq.symm h

/-- Lists that differ in their first elements at most, where these are related. -/
inductive SameBehind {α : Type} (related : α → α → Prop) : List α → List α → Prop where
  | refl (l : List α) : SameBehind related l l
  | head {a b : α} (l : List α) : related a b → SameBehind related (a :: l) (b :: l)

theorem SameBehind.append {α : Type} {related : α → α → Prop} {l l' : List α}
    (h : SameBehind related l l') (more : List α) :
    SameBehind related (l ++ more) (l' ++ more) := by
  cases h with
  | refl l => exact .refl _
  | head l same => exact .head _ same

/-- Pieces that are the same up to the layout before a token. -/
def Piece.Like (piece piece' : Piece) : Prop :=
  ∃ t t' : Token, t.Like t' ∧ piece = .token t ∧ piece' = .token t'

/-- No construct takes notice of the layout before its tokens. -/
theorem Construct.combine_cons (construct : Construct) (terminal : Terminal)
    (layout layout' text : String) (ps : Pieces) :
    construct.combine (.token ⟨terminal, layout', text⟩ :: ps) =
      construct.combine (.token ⟨terminal, layout, text⟩ :: ps) := by
  have names : Pieces.names (.token ⟨terminal, layout', text⟩ :: ps) =
      Pieces.names (.token ⟨terminal, layout, text⟩ :: ps) := by
    by_cases name : terminal = .identifier <;>
      simp [Pieces.names, Pieces.tokensOf, Pieces.tokens, name, Token.name]
  cases construct <;> simp only [combine, Pieces.container, Pieces.relation, Pieces.name?, names]
  case enumeration =>
    by_cases quoted : terminal = .string <;>
      simp [Pieces.tokensOf, Pieces.tokens, quoted, Token.content]
  all_goals rfl

theorem Construct.combine_like {construct : Construct} {ps ps' : Pieces}
    (h : SameBehind Piece.Like ps ps') : construct.combine ps' = construct.combine ps := by
  cases h with
  | refl => rfl
  | @head piece piece' l like =>
    obtain ⟨⟨terminal, layout, text⟩, ⟨terminal', layout', text'⟩, like, rfl, rfl⟩ := like
    obtain ⟨rfl, rfl⟩ : terminal' = terminal ∧ text' = text := by
      simpa [Token.Like, Token.bare] using like
    exact construct.combine_cons _ _ _ _ _

theorem fragmentOf_like {tokens tokens' : List Token} (h : SameBehind Token.Like tokens tokens') :
    fragmentOf tokens' = fragmentOf tokens := by
  cases h with
  | refl => rfl
  | @head t t' l like => simpa [fragmentOf, Token.bare] using congrArg Token.text like

theorem tokens_leftward {tree tree' : ParseTree Token} (h : Leftward Token.Like tree tree') :
    SameBehind Token.Like tree.tokens tree'.tokens := by
  induction h with
  | refl => exact .refl _
  | leaf like => exact .head [] like
  | node _ ih => exact ih.append _

theorem exists_meaning_leftward {tree tree' : ParseTree Token} (h : Leftward Token.Like tree tree')
    {ps : Pieces} (means : meaning tree = some ps) :
    ∃ ps', meaning tree' = some ps' ∧ SameBehind Piece.Like ps ps' := by
  induction h generalizing ps with
  | refl => exact ⟨ps, means, .refl ps⟩
  | @leaf t t' like =>
    obtain rfl := Option.some.inj means
    exact ⟨_, rfl, .head [] ⟨t, t', like, rfl, rfl⟩⟩
  | @node number tree tree' rest first ih =>
    obtain ⟨inner, hi, means⟩ := Option.bind_eq_some_iff.mp means
    obtain ⟨construct, hc, means⟩ := Option.bind_eq_some_iff.mp means
    obtain ⟨head, hh, hi⟩ := Option.bind_eq_some_iff.mp hi
    obtain ⟨tail, ht, hi⟩ := Option.bind_eq_some_iff.mp hi
    obtain rfl := Option.some.inj hi
    obtain ⟨head', hh', like⟩ := ih hh
    have same := like.append tail
    rw [meaning, meaningOfAll, hh', ht]
    simp only [Option.bind_eq_bind, Option.bind_some, Option.pure_def, hc,
      Construct.combine_like same,
      show fragmentOf (ParseTree.tokensOfAll (tree' :: rest)) =
        fragmentOf (ParseTree.tokensOfAll (tree :: rest)) from
        fragmentOf_like ((tokens_leftward first).append (ParseTree.tokensOfAll rest))]
    split at means
    · exact ⟨_, rfl, Option.some.inj means ▸ same⟩
    · exact ⟨ps, means, .refl ps⟩
    · exact ⟨ps, means, .refl ps⟩

/-- The layout in front of a definition does not matter for what it means. -/
theorem definitionOf_leftward {tree tree' : ParseTree Token} (definition : IsDefinitionTree tree)
    (h : Leftward Token.Like tree tree') : definitionOf tree' = definitionOf tree := by
  obtain ⟨node, means, -⟩ := exists_node definition
  obtain ⟨ps, means', same⟩ := exists_meaning_leftward h means
  cases same with
  | refl => rw [definitionOf_eq means, definitionOf_eq means']
  | head l like =>
    obtain ⟨_, _, -, same, -⟩ := like
    cases same

theorem map_definitionOf_leftward {trees trees' : List (ParseTree Token)}
    (definitions : ∀ tree ∈ trees, IsDefinitionTree tree)
    (h : List.Forall₂ (Leftward Token.Like) trees trees') :
    trees'.map definitionOf = trees.map definitionOf := by
  induction h with
  | nil => rfl
  | cons first _ ih =>
    rw [List.forall_mem_cons] at definitions
    rw [List.map_cons, List.map_cons, definitionOf_leftward definitions.1 first, ih definitions.2]

end WebSpec.Idl
