import Mathlib.Data.List.Forall2
import WebSpec.Proofs.ContextFree.Repetition

/-!
# Reading on top of other elements

Two parsers that read the same tokens, one on top of some elements and one on top of others, stay
beside each other: what each has read since is a list of elements that differ in their first tokens
at most, and perhaps a part of another one. `Beside` is kept by every token that is accepted
(`push_beside`), and at the end of the input each parser has the tree of all its elements
(`finish_beside`).
-/

namespace WebSpec.ContextFree

variable {τ : Type} {table : Table} {r : Repetition} {similar : τ → τ → Prop}

/-! ### Between elements -/

/-- Some elements have been read, and the stack is as good as with nothing on top of them. -/
structure Table.Between (table : Table) (r : Repetition) (elements : List (ParseTree τ))
    (stack : Stack τ) : Prop where
  accepted : table.accepted stack = r.starts
  push : ∀ terminal, r.starts.has terminal = true → terminal ≠ r.endMark → ∀ token,
    table.push stack terminal token = table.push (r.base elements) terminal token
  finish : table.finish stack = some (r.whole elements)

/-- Stacks of parsers that have read the same tokens, on top of different elements. -/
inductive Repetition.Beside (r : Repetition) (similar : τ → τ → Prop)
    (elements others : List (ParseTree τ)) : Stack τ → Stack τ → Prop where
  | between {more more' : List (ParseTree τ)} : List.Forall₂ (Leftward similar) more more' →
    Beside r similar elements others (r.base (elements ++ more)) (r.base (others ++ more'))
  | within {more more' : List (ParseTree τ)} {stack stack' : Stack τ} :
    List.Forall₂ (Leftward similar) more more' →
    r.Alongside similar (elements ++ more) (others ++ more') stack stack' →
      Beside r similar elements others stack stack'

theorem Repetition.beside_base (elements others : List (ParseTree τ)) :
    r.Beside similar elements others (r.base elements) (r.base others) := by
  have none : List.Forall₂ (Leftward similar) [] [] := .nil
  simpa using Beside.between none

theorem Repetition.Alongside.beside {elements others : List (ParseTree τ)}
    {stack stack' : Stack τ} (h : r.Alongside similar elements others stack stack') :
    r.Beside similar elements others stack stack' := by
  have none : List.Forall₂ (Leftward similar) [] [] := .nil
  exact .within none (by simpa using h)

theorem Repetition.Beside.symm (symmetric : ∀ t t', similar t t' → similar t' t)
    {elements others : List (ParseTree τ)} {stack stack' : Stack τ}
    (h : r.Beside similar elements others stack stack') :
    r.Beside similar others elements stack' stack := by
  have flip {more more' : List (ParseTree τ)} (same : List.Forall₂ (Leftward similar) more more') :
      List.Forall₂ (Leftward similar) more' more :=
    same.flip.imp fun _ _ h => h.symm symmetric
  cases h with
  | between same => exact .between (flip same)
  | within same alongside => exact .within (flip same) (alongside.symm symmetric)

namespace Table.Repeats

variable (reps : table.Repeats r) {g : Grammar} {states : List State} {starts : StartTable}
  (complete : g.Complete states starts) (made : table.MadeOf g states)
  {elements others : List (ParseTree τ)} {stack stack' : Stack τ}
include reps

theorem accepted_base (elements : List (ParseTree τ)) :
    table.accepted (r.base elements) = r.starts := by
  rw [accepted_eq]
  refine reps.accepted_whole _ ?_
  rcases r.base_cases elements with empty | ⟨tree, list⟩
  · rw [empty]
    simp [Stack.state, reps.reduction_empty]
  · rw [list]
    simp [Stack.state, reps.reduction_filled]

theorem accepted_beside (beside : r.Beside similar elements others stack stack') :
    table.accepted stack' = table.accepted stack := by
  cases beside with
  | between => rw [reps.accepted_base, reps.accepted_base]
  | within _ alongside => rw [accepted_eq, accepted_eq, alongside.state.1]

include complete made

theorem between_base (elements : List (ParseTree τ)) :
    table.Between r elements (r.base elements) where
  accepted := reps.accepted_base elements
  push _ _ _ _ := rfl
  finish := reps.finish_base complete made elements

theorem between_of_hasWhole {element : ParseTree τ}
    (whole : table.HasWhole r elements element stack) :
    table.Between r (elements ++ [element]) stack where
  accepted := by
    rw [accepted_eq]
    exact reps.accepted_whole _ whole.calls
  push _ hs more token := reps.push_of_hasWhole complete made whole hs more token
  finish := reps.finish_of_hasWhole complete made whole

/-- The first token of an element goes onto any elements. -/
theorem push_first (others : List (ParseTree τ)) {terminal : Nat} {token token' : τ}
    {next : Stack τ} (more : terminal ≠ r.endMark)
    (same : Leftward similar (.leaf token) (.leaf token'))
    (h : table.push (r.base elements) terminal token = some next) :
    ∃ next', table.push (r.base others) terminal token' = some next' ∧
      r.Alongside similar elements others next next' := by
  rw [reps.push_base complete made elements more] at h
  obtain ⟨state, goto, rfl⟩ := Option.map_eq_some_iff.mp h
  refine ⟨r.above [] ⟨state, .terminal terminal, .leaf token'⟩ others, ?_, ?_⟩
  · rw [reps.push_base complete made others more, goto, Option.map_some]
  · exact .intro [] (reps.inside_token _ goto) ⟨rfl, rfl, same⟩

/-- A token that is accepted goes onto both stacks. -/
theorem push_beside (beside : r.Beside similar elements others stack stack') {terminal : Nat}
    {token : τ} {next : Stack τ} (accepts : (table.accepted stack).has terminal = true)
    (more : terminal ≠ r.endMark) (h : table.push stack terminal token = some next) :
    ∃ next', table.push stack' terminal token = some next' ∧
      r.Beside similar elements others next next' := by
  cases beside with
  | between same =>
    obtain ⟨next', pushed, alongside⟩ := reps.push_first complete made _ more (.refl _) h
    exact ⟨next', pushed, .within same alongside⟩
  | within same alongside =>
    rcases reps.push_alongside complete made alongside h with
      ⟨next', pushed, result⟩ | ⟨element, element', leftward, whole, whole'⟩
    · exact ⟨next', pushed, .within same result⟩
    · -- The element on top is whole on both stacks, and the token starts another one.
      have between := reps.between_of_hasWhole complete made whole
      have between' := reps.between_of_hasWhole complete made whole'
      rw [between.accepted] at accepts
      rw [between.push _ accepts more] at h
      obtain ⟨next', pushed, result⟩ := reps.push_first complete made _ more (.refl _) h
      rw [← between'.push _ accepts more] at pushed
      rw [List.append_assoc, List.append_assoc] at result
      exact ⟨next', pushed, .within (List.rel_append same (.cons leftward .nil)) result⟩

/-- The end of the input comes between elements. -/
theorem finish_beside (beside : r.Beside similar elements others stack stack')
    {tree : ParseTree τ} (h : table.finish stack = some tree) :
    ∃ more more', List.Forall₂ (Leftward similar) more more' ∧
      table.Between r (elements ++ more) stack ∧ table.Between r (others ++ more') stack' := by
  cases beside with
  | between same =>
    exact ⟨_, _, same, reps.between_base complete made _, reps.between_base complete made _⟩
  | @within more more' _ _ same alongside =>
    obtain ⟨element, element', leftward, whole, whole'⟩ := reps.finish_alongside alongside h
    have between := reps.between_of_hasWhole complete made whole
    have between' := reps.between_of_hasWhole complete made whole'
    rw [List.append_assoc] at between between'
    exact ⟨more ++ [element], more' ++ [element'], List.rel_append same (.cons leftward .nil),
      between, between'⟩

end Table.Repeats

end WebSpec.ContextFree
