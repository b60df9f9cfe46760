import WebSpec.Proofs.ContextFree.Completeness

/-!
# What a table accepts

A table made of complete states reads a list of tokens to a tree just if the tree derives the start
symbol and has these tokens: `parse?_eq_some_iff`. One half holds of any table, since a stack holds
derivations of what was read; the other half is the run that a derivation stands for. So no list of
tokens has two derivations.
-/

namespace WebSpec.ContextFree

open Relation

variable {τ : Type} {g : Grammar} {states : List State} {starts : StartTable} {table : Table}
  {kind : τ → Nat}

mutual

theorem ParseTree.fitsAt_of_forall {fits : List Nat → τ → Prop}
    (any : ∀ begun token, fits begun token) :
    ∀ (tree : ParseTree τ) (begun : List Nat), tree.FitsAt fits begun
  | .leaf token, begun => any begun token
  | .node number children, begun => ParseTree.allFit_of_any any children (number :: begun)

theorem ParseTree.allFit_of_any {fits : List Nat → τ → Prop}
    (any : ∀ begun token, fits begun token) :
    ∀ (trees : List (ParseTree τ)) (begun : List Nat), ParseTree.AllFit fits begun trees
  | [], _ => trivial
  | tree :: rest, begun =>
    ⟨ParseTree.fitsAt_of_forall any tree begun, ParseTree.allFit_of_any any rest []⟩

end

namespace Table

variable {stack stack' : Stack τ} {tokens : List τ} {tree : ParseTree τ}

theorem pushAll_cons (token : τ) :
    table.pushAll kind stack (token :: tokens) =
      (table.push stack (kind token) token).bind fun stack => table.pushAll kind stack tokens :=
  List.foldlM_cons

/-! ### Trees of accepted tokens -/

/-- Tokens that are read are put behind the others. -/
theorem pushAll_tokens (h : table.pushAll kind stack tokens = some stack') :
    stack'.tokens = stack.tokens ++ tokens := by
  induction tokens generalizing stack with
  | nil =>
    obtain rfl := Option.some.inj h
    rw [List.append_nil]
  | cons token rest ih =>
    rw [pushAll_cons] at h
    obtain ⟨next, pushed, h⟩ := Option.bind_eq_some_iff.mp h
    rw [ih h, push_tokens pushed, List.append_assoc, List.singleton_append]

/-- The tree that the end of the input leads to has the tokens that were read. -/
theorem finish_tokens (h : table.finish stack = some tree) : tree.tokens = stack.tokens := by
  obtain ⟨settled, hs, h⟩ := Option.bind_eq_some_iff.mp h
  rw [← settleWithin_tokens hs]
  split at h
  · split_ifs at h
    obtain rfl := Option.some.inj h
    exact (Stack.tokens_cons _ []).symm
  · cases h

theorem pushAll_sound (same : table.productions = g.productions.toArray)
    (sound : stack.Sound g kind) (h : table.pushAll kind stack tokens = some stack') :
    stack'.Sound g kind := by
  induction tokens generalizing stack with
  | nil => exact Option.some.inj h ▸ sound
  | cons token rest ih =>
    rw [pushAll_cons] at h
    obtain ⟨next, pushed, h⟩ := Option.bind_eq_some_iff.mp h
    exact ih (push_sound same sound pushed) h

/-- The tree of a list of tokens derives the start symbol and has these tokens. -/
theorem derives_of_parse? (same : table.productions = g.productions.toArray)
    (h : table.parse? kind tokens = some tree) :
    Derives g kind (.nonterminal table.start) tree ∧ tree.tokens = tokens := by
  obtain ⟨stack, pushed, finished⟩ := Option.bind_eq_some_iff.mp h
  refine ⟨finish_sound same (pushAll_sound same Stack.sound_nil pushed) finished, ?_⟩
  rw [finish_tokens finished, pushAll_tokens pushed]
  rfl

/-! ### Runs of derivations -/

section

variable (complete : g.Complete states starts) (made : table.MadeOf g states)
include complete made

/-- Reading all tokens does the moves up to the end of the input. -/
theorem pushAll_of_moves {reads : Stack τ → τ → Prop} {final : Stack τ}
    (h : ReflTransGen (Moves table kind reads) (stack, tokens) (final, [])) :
    ∃ stack', table.pushAll kind stack tokens = some stack' ∧
      ReflTransGen (Moves table kind reads) (stack', []) (final, []) := by
  induction tokens generalizing stack with
  | nil => exact ⟨stack, rfl, h⟩
  | cons token rest ih =>
    obtain ⟨-, next, -, -, -, pushed, moves⟩ := push_of_moves complete made h
    obtain ⟨stack', read, moves⟩ := ih moves
    exact ⟨stack', by rw [pushAll_cons, pushed, Option.bind_some, read], moves⟩

variable (bound : ∀ token, kind token < starts.width) (last : table.endMark < starts.width)
include bound last

/-- The tokens of a tree that derives the start symbol lead to this tree. -/
theorem parse?_of_derives (derives : Derives g kind (.nonterminal g.start) tree) :
    table.parse? kind tree.tokens = some tree := by
  obtain ⟨number, -, children, rfl, -⟩ := derives.exists_children
  obtain ⟨state, moves, done⟩ := moves_of_derives_start complete made bound last
    (fun _ _ _ _ _ _ _ => trivial) derives
    (ParseTree.allFit_of_any (fun _ _ => trivial) children [number])
  obtain ⟨stack, read, moves⟩ := pushAll_of_moves complete made moves
  rw [← made.start] at moves
  rw [parse?, ParseTree.tokens, read]
  exact finish_of_moves complete made moves done

/-- A list of tokens leads to a tree just if the tree derives the start symbol and has these
tokens. -/
theorem parse?_eq_some_iff :
    table.parse? kind tokens = some tree ↔
      Derives g kind (.nonterminal g.start) tree ∧ tree.tokens = tokens := by
  constructor
  · intro h
    exact made.start ▸ derives_of_parse? made.productions h
  · rintro ⟨derives, rfl⟩
    exact parse?_of_derives complete made bound last derives

end

end Table

end WebSpec.ContextFree
