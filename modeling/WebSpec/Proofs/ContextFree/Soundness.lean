import Mathlib.Tactic.Common
import WebSpec.ContextFree.Table

/-!
# Parser stacks hold derivations

Whatever a parse table says, every tree on a stack derives its symbol: a token is put there under
its own terminal, and a replacement checks the symbols that it takes. So the tree that `finish`
gives is a derivation of the start symbol. The tokens of the trees are those that were read, in
order (`push_tokens`).
-/

namespace WebSpec.ContextFree

variable {τ : Type} {g : Grammar} {kind : τ → Nat}

theorem derivesAll_of_forall {entries : List (Entry τ)}
    (h : ∀ entry ∈ entries, Derives g kind entry.symbol entry.tree) :
    DerivesAll g kind (entries.map Entry.symbol) (entries.map Entry.tree) := by
  induction entries with
  | nil => exact .nil
  | cons entry rest ih =>
    exact .cons (h entry List.mem_cons_self) (ih fun e he => h e (List.mem_cons_of_mem entry he))

theorem DerivesAll.append {first second : List Symbol} {trees others : List (ParseTree τ)}
    (h : DerivesAll g kind first trees) (ho : DerivesAll g kind second others) :
    DerivesAll g kind (first ++ second) (trees ++ others) := by
  induction first generalizing trees with
  | nil => cases h; exact ho
  | cons symbol rest ih =>
    obtain _ | ⟨head, tail⟩ := h
    exact .cons head (ih tail)

theorem ParseTree.tokensOfAll_append (trees others : List (ParseTree τ)) :
    tokensOfAll (trees ++ others) = tokensOfAll trees ++ tokensOfAll others := by
  induction trees with
  | nil => rfl
  | cons tree rest ih =>
    rw [List.cons_append, tokensOfAll, ih, tokensOfAll, List.append_assoc]

/-- A tree of a nonterminal is a node of one of its productions. -/
theorem Derives.exists_children {code : Nat} {tree : ParseTree τ}
    (h : Derives g kind (.nonterminal code) tree) :
    ∃ number p children, tree = .node number children ∧ g.productions[number]? = some p ∧
      p.left = code ∧ DerivesAll g kind p.right children := by
  generalize hs : Symbol.nonterminal code = symbol at h
  obtain _ | @⟨number, p, children, hp, derives⟩ := h
  · cases hs
  · exact ⟨number, p, children, rfl, hp, (Symbol.nonterminal.inj hs).symm, derives⟩

/-- Where a terminal stands in a right side, there is a token of it. -/
theorem DerivesAll.leaf_mem {symbols : List Symbol} {trees : List (ParseTree τ)} {code : Nat}
    (h : DerivesAll g kind symbols trees) (hc : .terminal code ∈ symbols) :
    ∃ token, .leaf token ∈ trees ∧ kind token = code := by
  induction symbols generalizing trees with
  | nil => cases hc
  | cons symbol rest ih =>
    obtain _ | ⟨first, others⟩ := h
    rcases List.mem_cons.mp hc with rfl | hc
    · cases first with
      | leaf token => exact ⟨token, List.mem_cons_self, rfl⟩
    · obtain ⟨token, ht, hk⟩ := ih others hc
      exact ⟨token, List.mem_cons_of_mem _ ht, hk⟩

theorem ParseTree.mem_tokensOfAll {trees : List (ParseTree τ)} {token : τ}
    (h : .leaf token ∈ trees) : token ∈ tokensOfAll trees := by
  induction trees with
  | nil => cases h
  | cons tree rest ih =>
    rw [tokensOfAll, List.mem_append]
    rcases List.mem_cons.mp h with rfl | h
    · exact .inl (List.mem_singleton_self token)
    · exact .inr (ih h)

/-- Every tree on a stack derives its symbol. -/
def Stack.Sound (g : Grammar) (kind : τ → Nat) (stack : Stack τ) : Prop :=
  ∀ entry ∈ stack, Derives g kind entry.symbol entry.tree

theorem Stack.sound_nil : Stack.Sound g kind [] := by
  simp [Stack.Sound]

theorem Stack.Sound.cons {stack : Stack τ} {entry : Entry τ} (h : stack.Sound g kind)
    (he : Derives g kind entry.symbol entry.tree) : Stack.Sound g kind (entry :: stack) := by
  rintro e he'
  rcases List.mem_cons.mp he' with rfl | he'
  · exact he
  · exact h e he'

/-- The tokens on a stack, in the order in which they were read. -/
def Stack.tokens (stack : Stack τ) : List τ :=
  ParseTree.tokensOfAll (stack.reverse.map Entry.tree)

theorem Stack.tokens_cons (entry : Entry τ) (stack : Stack τ) :
    Stack.tokens (entry :: stack) = stack.tokens ++ entry.tree.tokens := by
  rw [tokens, List.reverse_cons, List.map_append, ParseTree.tokensOfAll_append, tokens]
  simp [ParseTree.tokensOfAll]

namespace Table

variable {table : Table} {stack stack' : Stack τ}

/-- A replacement takes the right side of a production from the stack and puts its left side
there. -/
theorem reduce_eq_some {number : Nat} (h : table.reduce number stack = some stack') :
    ∃ p state, table.productions[number]? = some p ∧
      (stack.take p.right.length).reverse.map Entry.symbol = p.right ∧
      table.goto? (Stack.state (stack.drop p.right.length)) (.nonterminal p.left) = some state ∧
      stack' = ⟨state, .nonterminal p.left,
        .node number ((stack.take p.right.length).reverse.map Entry.tree)⟩ ::
          stack.drop p.right.length := by
  obtain ⟨p, hp, h⟩ := Option.bind_eq_some_iff.mp h
  simp only at h
  split_ifs at h with symbols
  obtain ⟨state, goto, h⟩ := Option.bind_eq_some_iff.mp h
  exact ⟨p, state, hp, symbols, goto, (Option.some.inj h).symm⟩

section

variable (same : table.productions = g.productions.toArray)
include same

theorem reduce_sound {number : Nat} (sound : stack.Sound g kind)
    (h : table.reduce number stack = some stack') : Stack.Sound g kind stack' := by
  obtain ⟨p, state, hp, symbols, -, rfl⟩ := reduce_eq_some h
  refine Stack.Sound.cons (fun e he => sound e (List.mem_of_mem_drop he)) ?_
  refine .node (by simpa [same] using hp) ?_
  have popped : ∀ e ∈ (stack.take p.right.length).reverse, Derives g kind e.symbol e.tree :=
    fun e he => sound e (List.mem_of_mem_take (List.mem_reverse.mp he))
  have children := derivesAll_of_forall popped
  rwa [symbols] at children

theorem settleWithin_sound {terminal fuel : Nat} (sound : stack.Sound g kind)
    (h : table.settleWithin terminal stack fuel = some stack') : Stack.Sound g kind stack' := by
  induction fuel generalizing stack with
  | zero => cases h
  | succ fuel ih =>
    unfold settleWithin at h
    split at h
    · exact Option.some.inj h ▸ sound
    · obtain ⟨reduced, hr, h⟩ := Option.bind_eq_some_iff.mp h
      exact ih (reduce_sound same sound hr) h

theorem push_sound {token : τ} (sound : stack.Sound g kind)
    (h : table.push stack (kind token) token = some stack') : Stack.Sound g kind stack' := by
  obtain ⟨settled, hs, h⟩ := Option.bind_eq_some_iff.mp h
  obtain ⟨state, -, h⟩ := Option.bind_eq_some_iff.mp h
  obtain rfl := Option.some.inj h
  exact (settleWithin_sound same sound hs).cons (.leaf token)

/-- The tree that the end of the input leads to derives the start symbol. -/
theorem finish_sound {tree : ParseTree τ} (sound : stack.Sound g kind)
    (h : table.finish stack = some tree) : Derives g kind (.nonterminal table.start) tree := by
  obtain ⟨settled, hs, h⟩ := Option.bind_eq_some_iff.mp h
  have sound := settleWithin_sound same sound hs
  split at h
  · rename_i entry
    split_ifs at h with symbol
    obtain rfl := Option.some.inj h
    rw [← symbol]
    exact sound entry List.mem_cons_self
  · cases h

end

/-! ### Tokens -/

theorem reduce_tokens {number : Nat} (h : table.reduce number stack = some stack') :
    stack'.tokens = stack.tokens := by
  obtain ⟨p, state, -, -, -, rfl⟩ := reduce_eq_some h
  rw [Stack.tokens_cons, ParseTree.tokens, Stack.tokens, Stack.tokens,
    ← ParseTree.tokensOfAll_append, ← List.map_append, ← List.reverse_append,
    List.take_append_drop]

theorem settleWithin_tokens {terminal fuel : Nat}
    (h : table.settleWithin terminal stack fuel = some stack') : stack'.tokens = stack.tokens := by
  induction fuel generalizing stack with
  | zero => cases h
  | succ fuel ih =>
    unfold settleWithin at h
    split at h
    · rw [Option.some.inj h]
    · obtain ⟨reduced, hr, h⟩ := Option.bind_eq_some_iff.mp h
      rw [ih h, reduce_tokens hr]

/-- A token that is read is put behind the others. -/
theorem push_tokens {terminal : Nat} {token : τ}
    (h : table.push stack terminal token = some stack') :
    stack'.tokens = stack.tokens ++ [token] := by
  obtain ⟨settled, hs, h⟩ := Option.bind_eq_some_iff.mp h
  obtain ⟨state, -, h⟩ := Option.bind_eq_some_iff.mp h
  obtain rfl := Option.some.inj h
  rw [Stack.tokens_cons, settleWithin_tokens hs, ParseTree.tokens]

end Table

end WebSpec.ContextFree
