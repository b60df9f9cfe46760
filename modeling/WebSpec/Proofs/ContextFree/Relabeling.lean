import Mathlib.Tactic.Common
import WebSpec.Proofs.ContextFree.Completeness

/-!
# Trees with other tokens

A tree keeps its derivation when its tokens are replaced by others of the same kinds, and so do the
places of its tokens. `exists_map_eq` finds the tree for other tokens, where `f` keeps of a token
what both have in common. A parser takes no notice of what its tokens are but for their kinds, so
that it does the same with other tokens on its stack (`push_of_map_eq`, `finish_of_map_eq`).
-/

namespace WebSpec.ContextFree

variable {τ : Type} {f : τ → τ}

namespace ParseTree

mutual

/-- The tree with other tokens. -/
def map (f : τ → τ) : ParseTree τ → ParseTree τ
  | .leaf token => .leaf (f token)
  | .node production children => .node production (mapAll f children)

/-- The trees with other tokens. -/
def mapAll (f : τ → τ) : List (ParseTree τ) → List (ParseTree τ)
  | [] => []
  | tree :: rest => tree.map f :: mapAll f rest

end

theorem mapAll_eq_map (f : τ → τ) (trees : List (ParseTree τ)) :
    mapAll f trees = trees.map (map f) := by
  induction trees with
  | nil => rfl
  | cons tree rest ih => rw [mapAll, ih, List.map_cons]

mutual

theorem tokens_map (f : τ → τ) : ∀ tree : ParseTree τ, (tree.map f).tokens = tree.tokens.map f
  | .leaf _ => rfl
  | .node _ children => tokensOfAll_mapAll f children

theorem tokensOfAll_mapAll (f : τ → τ) :
    ∀ trees : List (ParseTree τ), tokensOfAll (mapAll f trees) = (tokensOfAll trees).map f
  | [] => rfl
  | tree :: rest => by
    rw [mapAll, tokensOfAll, tokensOfAll, List.map_append, tokens_map f tree,
      tokensOfAll_mapAll f rest]

end

mutual

/-- For tokens that have the same in common with those of a tree there is a tree that does. -/
theorem exists_map_eq : ∀ (tree : ParseTree τ) {tokens : List τ},
    tokens.map f = tree.tokens.map f → ∃ tree' : ParseTree τ, tree'.map f = tree.map f ∧
      tree'.tokens = tokens
  | .leaf token, tokens, h => by
    obtain ⟨token', rfl, same⟩ := List.map_eq_singleton_iff.mp h
    exact ⟨.leaf token', by rw [map, map, same], rfl⟩
  | .node production children, tokens, h => by
    obtain ⟨children', hc, rfl⟩ := exists_mapAll_eq children h
    exact ⟨.node production children', by rw [map, map, hc], rfl⟩

theorem exists_mapAll_eq : ∀ (trees : List (ParseTree τ)) {tokens : List τ},
    tokens.map f = (tokensOfAll trees).map f → ∃ trees' : List (ParseTree τ),
      mapAll f trees' = mapAll f trees ∧ tokensOfAll trees' = tokens
  | [], tokens, h => ⟨[], rfl, (List.map_eq_nil_iff.mp h).symm⟩
  | tree :: rest, tokens, h => by
    rw [tokensOfAll, List.map_append] at h
    obtain ⟨first, others, rfl, hf, ho⟩ := List.map_eq_append_iff.mp h
    obtain ⟨tree', ht, rfl⟩ := exists_map_eq tree hf
    obtain ⟨rest', hr, rfl⟩ := exists_mapAll_eq rest ho
    exact ⟨tree' :: rest', by rw [mapAll, mapAll, ht, hr], rfl⟩

end

section Derivations

variable {g : Grammar} {kind : τ → Nat}

mutual

theorem derives_map_iff (same : ∀ token, kind (f token) = kind token) :
    ∀ {tree : ParseTree τ} {symbol : Symbol},
      Derives g kind symbol (tree.map f) ↔ Derives g kind symbol tree
  | .leaf token, symbol => by
    constructor
    · rintro (_ | _)
      rw [same]
      exact .leaf token
    · rintro (_ | _)
      rw [← same]
      exact .leaf (f token)
  | .node production children, symbol => by
    constructor
    · rintro (_ | ⟨hp, derives⟩)
      exact .node hp ((derivesAll_mapAll_iff same).mp derives)
    · rintro (_ | ⟨hp, derives⟩)
      exact .node hp ((derivesAll_mapAll_iff same).mpr derives)

theorem derivesAll_mapAll_iff (same : ∀ token, kind (f token) = kind token) :
    ∀ {trees : List (ParseTree τ)} {symbols : List Symbol},
      DerivesAll g kind symbols (mapAll f trees) ↔ DerivesAll g kind symbols trees
  | [], symbols => .rfl
  | tree :: rest, symbols => by
    constructor
    · rintro (_ | ⟨first, others⟩)
      exact .cons ((derives_map_iff same).mp first) ((derivesAll_mapAll_iff same).mp others)
    · rintro (_ | ⟨first, others⟩)
      exact .cons ((derives_map_iff same).mpr first) ((derivesAll_mapAll_iff same).mpr others)

end

end Derivations

section Places

variable {fits : List Nat → τ → Prop}

mutual

theorem fitsAt_map_iff (same : ∀ begun token, fits begun (f token) ↔ fits begun token) :
    ∀ {tree : ParseTree τ} {begun : List Nat},
      (tree.map f).FitsAt fits begun ↔ tree.FitsAt fits begun
  | .leaf token, begun => same begun token
  | .node _ _, _ => allFit_mapAll_iff same

theorem allFit_mapAll_iff (same : ∀ begun token, fits begun (f token) ↔ fits begun token) :
    ∀ {trees : List (ParseTree τ)} {begun : List Nat},
      AllFit fits begun (mapAll f trees) ↔ AllFit fits begun trees
  | [], _ => .rfl
  | tree :: rest, _ => by
    rw [mapAll, AllFit, AllFit, fitsAt_map_iff same, allFit_mapAll_iff same]

end

end Places

end ParseTree

/-! ### Stacks -/

/-- The entry with other tokens. -/
def Entry.map (f : τ → τ) (entry : Entry τ) : Entry τ :=
  { entry with tree := entry.tree.map f }

namespace Table

variable {table : Table} {stack : Stack τ}

theorem state_map (f : τ → τ) (stack : Stack τ) :
    Stack.state (stack.map (Entry.map f)) = stack.state := by
  cases stack <;> rfl

theorem accepted_map (f : τ → τ) (stack : Stack τ) :
    table.accepted (stack.map (Entry.map f)) = table.accepted stack := by
  rw [accepted, accepted, state_map]

theorem reduce_map (f : τ → τ) (number : Nat) (stack : Stack τ) :
    table.reduce number (stack.map (Entry.map f)) =
      (table.reduce number stack).map (List.map (Entry.map f)) := by
  rw [reduce, reduce]
  cases table.productions[number]? with
  | none => rfl
  | some p =>
    have symbols : Entry.symbol ∘ Entry.map f = (Entry.symbol : Entry τ → Symbol) := rfl
    simp only [Option.bind_eq_bind, Option.bind_some, ← List.map_take, ← List.map_drop,
      ← List.map_reverse, List.map_map, symbols, state_map]
    split_ifs
    · cases table.goto? (Stack.state (stack.drop p.right.length)) (.nonterminal p.left) with
      | none => rfl
      | some state => simp [Entry.map, ParseTree.map, ParseTree.mapAll_eq_map, Function.comp_def]
    · rfl

theorem settleWithin_map (f : τ → τ) (terminal fuel : Nat) (stack : Stack τ) :
    table.settleWithin terminal (stack.map (Entry.map f)) fuel =
      (table.settleWithin terminal stack fuel).map (List.map (Entry.map f)) := by
  induction fuel generalizing stack with
  | zero => rfl
  | succ fuel ih =>
    rw [settleWithin, settleWithin, state_map]
    cases table.reduction? stack.state terminal with
    | none => rfl
    | some number =>
      simp only [reduce_map]
      cases table.reduce number stack with
      | none => rfl
      | some reduced => exact ih reduced

theorem push_map (f : τ → τ) (terminal : Nat) (token : τ) (stack : Stack τ) :
    table.push (stack.map (Entry.map f)) terminal (f token) =
      (table.push stack terminal token).map (List.map (Entry.map f)) := by
  rw [push, push, settle, settle, settleWithin_map, List.length_map]
  cases table.settleWithin terminal stack _ with
  | none => rfl
  | some settled =>
    simp only [Option.map_some, Option.bind_eq_bind, Option.bind_some, state_map]
    cases table.goto? settled.state (.terminal terminal) <;> rfl

theorem finish_map (f : τ → τ) (stack : Stack τ) :
    table.finish (stack.map (Entry.map f)) = (table.finish stack).map (ParseTree.map f) := by
  rw [finish, finish, settle, settle, settleWithin_map, List.length_map]
  cases table.settleWithin table.endMark stack _ with
  | none => rfl
  | some settled =>
    obtain _ | ⟨entry, _ | ⟨second, others⟩⟩ := settled
    · rfl
    · simp only [Option.map_some, Option.bind_eq_bind, Option.bind_some, List.map_cons,
        List.map_nil, Entry.map]
      split_ifs <;> rfl
    · rfl

section

variable {stack' next : Stack τ}
  (alike : stack'.map (Entry.map f) = stack.map (Entry.map f))
include alike

theorem accepted_of_map_eq : table.accepted stack' = table.accepted stack := by
  rw [← accepted_map f stack', alike, accepted_map]

/-- A token that has the same in common leads to a stack that does. -/
theorem push_of_map_eq {terminal : Nat} {token token' : τ} (same : f token' = f token)
    (pushed : table.push stack terminal token = some next) :
    ∃ next', table.push stack' terminal token' = some next' ∧
      next'.map (Entry.map f) = next.map (Entry.map f) := by
  have pushed' : table.push (stack'.map (Entry.map f)) terminal (f token') = _ := push_map ..
  rw [alike, same, push_map, pushed] at pushed'
  exact Option.map_eq_some_iff.mp pushed'.symm

theorem finish_of_map_eq {tree : ParseTree τ} (finished : table.finish stack = some tree) :
    ∃ tree', table.finish stack' = some tree' ∧ tree'.map f = tree.map f := by
  have finished' : table.finish (stack'.map (Entry.map f)) = _ := finish_map ..
  rw [alike, finish_map, finished] at finished'
  exact Option.map_eq_some_iff.mp finished'.symm

end

end Table

end WebSpec.ContextFree
