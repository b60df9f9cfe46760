import Mathlib.Data.List.Induction
import WebSpec.Proofs.ContextFree.Completeness

/-!
# Elements one after the other

What a grammar describes may be a list of elements. While a parser reads an element, it keeps the
tree of all elements before it at the bottom of its stack, and `Table.Repeats` says what makes it
take no notice of this tree: after an element everything is as it was in the beginning.

So the elements at the bottom can be replaced by any others, and along with them the first token of
the element on top by a similar one, and the parser does the same with the next token
(`push_base`, `push_alongside`) and at the end of the input (`finish_base`, `finish_alongside`).
`Alongside` relates two stacks that differ in this way.
-/

namespace WebSpec.ContextFree

open Relation

/-! ### Trees with another first token -/

section Leftward

variable {τ : Type} {similar : τ → τ → Prop}

/-- Trees that differ in their first token at most, where the two first tokens are similar. -/
inductive Leftward (similar : τ → τ → Prop) : ParseTree τ → ParseTree τ → Prop where
  | refl (tree : ParseTree τ) : Leftward similar tree tree
  | leaf {token token' : τ} : similar token token' → Leftward similar (.leaf token) (.leaf token')
  | node {production : Nat} {tree tree' : ParseTree τ} {rest : List (ParseTree τ)} :
    Leftward similar tree tree' →
      Leftward similar (.node production (tree :: rest)) (.node production (tree' :: rest))

theorem Leftward.symm (symmetric : ∀ t t', similar t t' → similar t' t) {tree tree' : ParseTree τ}
    (h : Leftward similar tree tree') : Leftward similar tree' tree := by
  induction h with
  | refl tree => exact .refl tree
  | leaf h => exact .leaf (symmetric _ _ h)
  | node _ ih => exact .node ih

/-- Entries of a stack that differ in the first token of their trees at most. -/
structure Entry.Resembles (similar : τ → τ → Prop) (entry entry' : Entry τ) : Prop where
  state : entry'.state = entry.state
  symbol : entry'.symbol = entry.symbol
  tree : Leftward similar entry.tree entry'.tree

theorem Entry.Resembles.symm (symmetric : ∀ t t', similar t t' → similar t' t)
    {entry entry' : Entry τ} (h : entry.Resembles similar entry') :
    entry'.Resembles similar entry :=
  ⟨h.state.symm, h.symbol.symm, h.tree.symm symmetric⟩

end Leftward

/-! ### Repetitions -/

/-- How a grammar repeats elements. -/
structure Repetition where
  /-- The nonterminals. -/
  start : Nat
  list : Nat
  element : Nat
  /-- The terminal that ends the input. -/
  endMark : Nat
  /-- The productions: no element, a list of elements, a list of one, a list with one more. -/
  empty : Nat
  filled : Nat
  one : Nat
  more : Nat
  /-- The states after a list, after its first element, after another one, and at the end. -/
  again : Nat
  first : Nat
  further : Nat
  done : Nat
  /-- What is accepted where an element may start. -/
  starts : TerminalSet

namespace Repetition

variable {τ : Type} (r : Repetition)

/-- The symbols that do not occur inside of an element. -/
def outer : List Symbol :=
  [.nonterminal r.start, .nonterminal r.list, .nonterminal r.element]

/-- The states that are not reached inside of an element. -/
def outside : List Nat :=
  [0, r.again, r.first, r.further, r.done]

/-- The stack with one more element at the bottom. -/
def grow (base : Stack τ) (element : ParseTree τ) : Stack τ :=
  match base with
  | [] => [⟨r.again, .nonterminal r.list, .node r.one [element]⟩]
  | entry :: _ => [⟨r.again, .nonterminal r.list, .node r.more [entry.tree, element]⟩]

/-- The stack after some elements. -/
def base (elements : List (ParseTree τ)) : Stack τ :=
  elements.foldl r.grow []

/-- The tree of some elements. -/
def whole (elements : List (ParseTree τ)) : ParseTree τ :=
  match r.base elements with
  | [] => .node r.empty []
  | entry :: _ => .node r.filled [entry.tree]

/-- The stack with a whole element on top of others. -/
def topped (elements : List (ParseTree τ)) (element : ParseTree τ) : Stack τ :=
  ⟨if (r.base elements).isEmpty then r.first else r.further, .nonterminal r.element, element⟩ ::
    r.base elements

/-- Entries inside of an element. -/
def Inside (entries : List (Entry τ)) : Prop :=
  ∀ entry ∈ entries, entry.symbol ∉ r.outer ∧ entry.state ∉ r.outside

/-- The stack while an element is read on top of others: the first entry of the element, and what is
above it. -/
def above (top : List (Entry τ)) (bottom : Entry τ) (elements : List (ParseTree τ)) : Stack τ :=
  top ++ bottom :: r.base elements

variable {r}

theorem base_append_singleton (elements : List (ParseTree τ)) (element : ParseTree τ) :
    r.base (elements ++ [element]) = r.grow (r.base elements) element := by
  simp [base]

theorem base_cases (elements : List (ParseTree τ)) :
    r.base elements = [] ∨ ∃ tree, r.base elements = [⟨r.again, .nonterminal r.list, tree⟩] := by
  induction elements using List.reverseRecOn with
  | nil => exact .inl rfl
  | append_singleton elements element =>
    rw [base_append_singleton]
    unfold grow
    split <;> exact .inr ⟨_, rfl⟩

theorem tokens_base (elements : List (ParseTree τ)) :
    (r.base elements).tokens = ParseTree.tokensOfAll elements := by
  induction elements using List.reverseRecOn with
  | nil => rfl
  | append_singleton elements element ih =>
    rw [base_append_singleton, ParseTree.tokensOfAll_append, ← ih]
    rcases r.base_cases elements with empty | ⟨tree, list⟩
    · simp [empty, grow, Stack.tokens, ParseTree.tokensOfAll, ParseTree.tokens]
    · simp [list, grow, Stack.tokens, ParseTree.tokensOfAll, ParseTree.tokens]

/-- Stacks that differ in the elements at the bottom, and in the first token of the element on top
of them. -/
inductive Alongside (r : Repetition) (similar : τ → τ → Prop)
    (elements others : List (ParseTree τ)) : Stack τ → Stack τ → Prop where
  | intro (top : List (Entry τ)) {bottom bottom' : Entry τ} :
    r.Inside (top ++ [bottom]) → bottom.Resembles similar bottom' →
      Alongside r similar elements others (r.above top bottom elements) (r.above top bottom' others)

variable {similar : τ → τ → Prop} {elements others : List (ParseTree τ)} {stack stack' : Stack τ}

theorem Inside.mono {entries entries' : List (Entry τ)} (h : r.Inside entries)
    (sub : entries' ⊆ entries) : r.Inside entries' :=
  fun entry he => h entry (sub he)

theorem Inside.append {entries entries' : List (Entry τ)} (h : r.Inside entries)
    (h' : r.Inside entries') : r.Inside (entries ++ entries') := fun entry he =>
  (List.mem_append.mp he).elim (h entry) (h' entry)

theorem Inside.resembles {bottom bottom' : Entry τ} (h : r.Inside [bottom])
    (same : bottom.Resembles similar bottom') : r.Inside [bottom'] := by
  have inside := h bottom List.mem_cons_self
  intro entry he
  obtain rfl := List.mem_singleton.mp he
  rwa [same.symbol, same.state]

theorem Alongside.symm (symmetric : ∀ t t', similar t t' → similar t' t)
    (h : r.Alongside similar elements others stack stack') :
    r.Alongside similar others elements stack' stack := by
  obtain ⟨top, inside, same⟩ := h
  have bottom := (inside.mono (List.subset_append_right _ _)).resembles same
  exact ⟨top, (inside.mono (List.subset_append_left _ _)).append bottom, same.symm symmetric⟩

theorem Alongside.cons (h : r.Alongside similar elements others stack stack') {entry : Entry τ}
    (he : r.Inside [entry]) :
    r.Alongside similar elements others (entry :: stack) (entry :: stack') := by
  obtain ⟨top, inside, same⟩ := h
  exact .intro (entry :: top) (he.append inside) same

/-- Both stacks have reached the same state, inside of an element. -/
theorem Alongside.state (h : r.Alongside similar elements others stack stack') :
    Stack.state stack' = Stack.state stack ∧ Stack.state stack ∉ r.outside := by
  obtain @⟨top, bottom, bottom', inside, same⟩ := h
  cases top with
  | nil => exact ⟨same.state, (inside bottom (by simp)).2⟩
  | cons entry top => exact ⟨rfl, (inside entry (by simp)).2⟩

end Repetition

/-- The terminals that are accepted in a state. -/
def Table.acceptedIn (table : Table) (state : Nat) : TerminalSet :=
  (table.rows[state]?).elim 0 Row.accepted

theorem Table.accepted_eq {τ : Type} (table : Table) (stack : Stack τ) :
    table.accepted stack = table.acceptedIn stack.state := by
  unfold accepted acceptedIn
  cases table.rows[stack.state]? <;> rfl

/-- A table that repeats elements. An element is whole where the end of the input calls for a
replacement, and then everything that may start an element calls for it as well. -/
structure Table.Repeats (table : Table) (r : Repetition) : Prop where
  start : table.start = r.start
  endMark : table.endMark = r.endMark
  empty : table.productions[r.empty]? = some ⟨r.start, []⟩
  filled : table.productions[r.filled]? = some ⟨r.start, [.nonterminal r.list]⟩
  one : table.productions[r.one]? = some ⟨r.list, [.nonterminal r.element]⟩
  more : table.productions[r.more]? =
    some ⟨r.list, [.nonterminal r.list, .nonterminal r.element]⟩
  goto_start : table.goto? 0 (.nonterminal r.start) = some r.done
  goto_list : table.goto? 0 (.nonterminal r.list) = some r.again
  goto_first : table.goto? 0 (.nonterminal r.element) = some r.first
  goto_further : table.goto? r.again (.nonterminal r.element) = some r.further
  /-- After a list of elements everything inside of the next one leads where it leads at first. -/
  goto_again : ∀ symbol ∉ r.outer, table.goto? r.again symbol = table.goto? 0 symbol
  /-- Elements stand at the bottom only, -/
  goto_element : ∀ state target, table.goto? state (.nonterminal r.element) = some target →
    state ∈ r.outside
  /-- and what is inside of them does not lead out. -/
  goto_inside : ∀ state, ∀ symbol ∉ r.outer, ∀ target,
    table.goto? state symbol = some target → target ∉ r.outside
  /-- Once an element is not whole, it is not without more tokens. -/
  goto_partial : ∀ state terminal number p, table.reduction? state r.endMark = none →
    table.reduction? state terminal = some number → table.productions[number]? = some p →
    ∀ before target, table.goto? before (.nonterminal p.left) = some target →
      table.reduction? target r.endMark = none
  reduction_empty : ∀ terminal,
    table.reduction? 0 terminal = if terminal = r.endMark then some r.empty else none
  reduction_filled : ∀ terminal,
    table.reduction? r.again terminal = if terminal = r.endMark then some r.filled else none
  reduction_first : table.reduction? r.first r.endMark = some r.one
  reduction_further : table.reduction? r.further r.endMark = some r.more
  reduction_done : ∀ terminal, table.reduction? r.done terminal = none
  /-- What is replaced inside of an element is inside of it. -/
  reduction_inside : ∀ state terminal number, state ∉ r.outside →
    table.reduction? state terminal = some number →
      ∃ p, table.productions[number]? = some p ∧ (∀ symbol ∈ p.right, symbol ∉ r.outer) ∧
        p.left ≠ r.start ∧ p.left ≠ r.list
  /-- A whole element is replaced under whatever may come next. -/
  reduction_whole : ∀ state number, state ≠ 0 → state ≠ r.again →
    table.reduction? state r.endMark = some number → ∀ terminal,
      table.reduction? state terminal = if r.starts.has terminal then some number else none
  /-- Where an element is whole, and where there is none, the same is accepted. -/
  accepted_whole : ∀ state, table.reduction? state r.endMark ≠ none →
    table.acceptedIn state = r.starts
  /-- The end of the input may come there. -/
  starts_endMark : r.starts.has r.endMark = true
  outside_nodup : r.outside.Nodup

namespace Table

variable {τ : Type} {table : Table} {r : Repetition}

/-- A replacement is made where the stack has the right side of a production on top. -/
theorem reduce_eq_of {number : Nat} {p : Production} (state : Nat) {stack : Stack τ}
    (hp : table.productions[number]? = some p)
    (symbols : (stack.take p.right.length).reverse.map Entry.symbol = p.right)
    (goto : table.goto? (Stack.state (stack.drop p.right.length)) (.nonterminal p.left) =
      some state) :
    table.reduce number stack =
      some (⟨state, .nonterminal p.left,
        .node number ((stack.take p.right.length).reverse.map Entry.tree)⟩ ::
          stack.drop p.right.length) := by
  simp only [reduce, hp, Option.bind_eq_bind, Option.bind_some, symbols, if_true, goto,
    Option.pure_def]

theorem replaces_of_settle {terminal : Nat} {stack settled : Stack τ}
    (h : table.settle terminal stack = some settled) :
    ReflTransGen (table.Replaces terminal) stack settled ∧
      table.reduction? settled.state terminal = none := by
  unfold settle at h
  generalize (stack.length + 2) * (table.productions.size + 1) = fuel at h
  induction fuel generalizing stack with
  | zero => cases h
  | succ fuel ih =>
    unfold settleWithin at h
    split at h
    · rename_i done
      obtain rfl := Option.some.inj h
      exact ⟨.refl, done⟩
    · rename_i number calls
      obtain ⟨next, reduced, h⟩ := Option.bind_eq_some_iff.mp h
      obtain ⟨rest, done⟩ := ih h
      exact ⟨.head ⟨number, calls, reduced⟩ rest, done⟩

/-- A whole element is on top of others: whatever may come next, it is put together. -/
structure HasWhole (table : Table) (r : Repetition) (elements : List (ParseTree τ))
    (element : ParseTree τ) (stack : Stack τ) : Prop where
  calls : table.reduction? stack.state r.endMark ≠ none
  replaces : ∀ terminal, r.starts.has terminal = true →
    ReflTransGen (table.Replaces terminal) stack (r.topped elements element)

namespace Repeats

variable (reps : table.Repeats r)
include reps

/-! ### Below an element -/

omit reps in
theorem mem_outer {symbol : Symbol} :
    symbol ∈ r.outer ↔ symbol = .nonterminal r.start ∨ symbol = .nonterminal r.list ∨
      symbol = .nonterminal r.element := by
  simp [Repetition.outer]

theorem goto_base (elements : List (ParseTree τ)) {symbol : Symbol} (inside : symbol ∉ r.outer) :
    table.goto? (Stack.state (r.base elements)) symbol = table.goto? 0 symbol := by
  rcases r.base_cases elements with empty | ⟨tree, list⟩
  · rw [empty]
    rfl
  · rw [list]
    exact reps.goto_again symbol inside

theorem goto_topped (elements : List (ParseTree τ)) (element : ParseTree τ) :
    table.goto? (Stack.state (r.base elements)) (.nonterminal r.element) =
      some (Stack.state (r.topped elements element)) := by
  rcases r.base_cases elements with empty | ⟨tree, list⟩
  · simpa [Repetition.topped, empty, Stack.state] using reps.goto_first
  · simpa [Repetition.topped, list, Stack.state] using reps.goto_further

theorem reduction_topped (elements : List (ParseTree τ)) (element : ParseTree τ) (terminal : Nat) :
    table.reduction? (Stack.state (r.topped elements element)) terminal =
      if r.starts.has terminal then
        some (if (r.base elements).isEmpty then r.one else r.more)
      else none := by
  have apart := reps.outside_nodup
  simp only [Repetition.outside, List.nodup_cons, List.mem_cons, List.not_mem_nil, or_false,
    not_or] at apart
  obtain ⟨⟨-, zeroFirst, zeroFurther, -⟩, ⟨againFirst, againFurther, -⟩, -⟩ := apart
  simp only [Repetition.topped, Stack.state]
  split
  · exact reps.reduction_whole _ _ (Ne.symm zeroFirst) (Ne.symm againFirst) reps.reduction_first _
  · exact reps.reduction_whole _ _ (Ne.symm zeroFurther) (Ne.symm againFurther)
      reps.reduction_further _

/-- A whole element is added to those before it. -/
theorem replaces_topped {terminal : Nat} (starts : r.starts.has terminal = true)
    (elements : List (ParseTree τ)) (element : ParseTree τ) :
    table.Replaces terminal (r.topped elements element) (r.base (elements ++ [element])) := by
  have calls := reps.reduction_topped elements element terminal
  rw [if_pos starts] at calls
  refine ⟨_, calls, ?_⟩
  rw [Repetition.base_append_singleton]
  rcases r.base_cases elements with empty | ⟨tree, list⟩
  · rw [empty, List.isEmpty_nil, if_pos rfl, reduce_eq_of r.again reps.one]
    · simp [Repetition.topped, Repetition.grow, empty]
    · simp [Repetition.topped]
    · simpa [Repetition.topped, empty, Stack.state] using reps.goto_list
  · rw [list, List.isEmpty_cons, if_neg Bool.false_ne_true,
      reduce_eq_of r.again reps.more]
    · simp [Repetition.topped, Repetition.grow, list]
    · simp [Repetition.topped, list]
    · simpa [Repetition.topped, list, Stack.state] using reps.goto_list

theorem reduction_base (elements : List (ParseTree τ)) {terminal : Nat}
    (more : terminal ≠ r.endMark) :
    table.reduction? (Stack.state (r.base elements)) terminal = none := by
  rcases r.base_cases elements with empty | ⟨tree, list⟩
  · simpa [empty, Stack.state, more] using reps.reduction_empty terminal
  · simpa [list, Stack.state, more] using reps.reduction_filled terminal

/-- At the end of the input the elements are what the grammar describes. -/
theorem replaces_base (elements : List (ParseTree τ)) :
    table.Replaces r.endMark (r.base elements)
      [⟨r.done, .nonterminal r.start, r.whole elements⟩] := by
  rcases r.base_cases elements with empty | ⟨tree, list⟩
  · have calls := reps.reduction_empty r.endMark
    rw [if_pos rfl] at calls
    refine ⟨r.empty, by rwa [empty], ?_⟩
    rw [empty, reduce_eq_of r.done reps.empty]
    · simp [Repetition.whole, empty]
    · rfl
    · exact reps.goto_start
  · have calls := reps.reduction_filled r.endMark
    rw [if_pos rfl] at calls
    refine ⟨r.filled, by rwa [list], ?_⟩
    rw [list, reduce_eq_of r.done reps.filled]
    · simp [Repetition.whole, list]
    · rfl
    · exact reps.goto_start

/-! ### Inside of an element -/

section

variable {similar : τ → τ → Prop} {elements others : List (ParseTree τ)} {stack stack' : Stack τ}

/-- What is replaced inside of an element, and does not reach its first entry, is replaced
alongside. -/
theorem reduce_top {top : List (Entry τ)} {bottom bottom' : Entry τ}
    (inside : r.Inside (top ++ [bottom])) (same : bottom.Resembles similar bottom') {number : Nat}
    {p : Production} (hp : table.productions[number]? = some p)
    (notStart : p.left ≠ r.start) (notList : p.left ≠ r.list) (short : p.right.length ≤ top.length)
    {next : Stack τ} (h : table.reduce number (r.above top bottom elements) = some next) :
    ∃ next', table.reduce number (r.above top bottom' others) = some next' ∧
      r.Alongside similar elements others next next' := by
  obtain ⟨p', state, hp', symbols, goto, rfl⟩ := reduce_eq_some h
  rw [hp] at hp'
  obtain rfl := Option.some.inj hp'
  have taken (base : Stack τ) : (top ++ base).take p.right.length = top.take p.right.length :=
    List.take_append_of_le_length short
  have left (base : Stack τ) :
      (top ++ base).drop p.right.length = top.drop p.right.length ++ base :=
    List.drop_append_of_le_length short
  have kept : r.Inside (top.drop p.right.length ++ [bottom]) :=
    inside.mono (List.append_subset.mpr ⟨fun _ he =>
      List.mem_append_left _ (List.mem_of_mem_drop he), List.subset_append_right _ _⟩)
  have rest : r.Alongside similar elements others
      (top.drop p.right.length ++ bottom :: r.base elements)
      (top.drop p.right.length ++ bottom' :: r.base others) := .intro _ kept same
  simp only [Repetition.above, taken, left] at symbols goto ⊢
  have inner : .nonterminal p.left ∉ r.outer := by
    simp only [mem_outer, Symbol.nonterminal.injEq, notStart, notList, false_or]
    intro element
    rw [element] at goto
    exact rest.state.2 (reps.goto_element _ _ goto)
  have entered : r.Inside ([⟨state, .nonterminal p.left,
      .node number ((top.take p.right.length).reverse.map Entry.tree)⟩] : List (Entry τ)) := by
    intro entry he
    obtain rfl := List.mem_singleton.mp he
    exact ⟨inner, reps.goto_inside _ _ inner _ goto⟩
  refine ⟨_, reduce_eq_of _ hp (by rwa [taken]) (by rwa [left, rest.state.1]), ?_⟩
  rw [taken, left]
  exact .intro (_ :: top.drop p.right.length) (entered.append kept) same

/-- What is replaced from the first entry of an element on is replaced alongside. -/
theorem reduce_bottom {top : List (Entry τ)} {bottom bottom' : Entry τ}
    (same : bottom.Resembles similar bottom') {number : Nat} {p : Production}
    (hp : table.productions[number]? = some p) (notStart : p.left ≠ r.start)
    (notList : p.left ≠ r.list) (whole : p.right.length = top.length + 1)
    {next : Stack τ} (h : table.reduce number (r.above top bottom elements) = some next) :
    ∃ next', table.reduce number (r.above top bottom' others) = some next' ∧
      (r.Alongside similar elements others next next' ∨ ∃ element element',
        Leftward similar element element' ∧ next = r.topped elements element ∧
          next' = r.topped others element') := by
  obtain ⟨p', state, hp', symbols, goto, rfl⟩ := reduce_eq_some h
  rw [hp] at hp'
  obtain rfl := Option.some.inj hp'
  have taken (entry : Entry τ) (base : Stack τ) :
      (top ++ entry :: base).take p.right.length = top ++ [entry] := by
    rw [whole, List.append_cons, List.take_left' (by simp)]
  have left (entry : Entry τ) (base : Stack τ) :
      (top ++ entry :: base).drop p.right.length = base := by
    rw [whole, List.append_cons, List.drop_left' (by simp)]
  have trees (entry : Entry τ) : (top ++ [entry]).reverse.map Entry.tree =
      entry.tree :: top.reverse.map Entry.tree := by simp
  have symbols' : (top ++ [bottom']).reverse.map Entry.symbol = p.right := by
    rw [Repetition.above, taken] at symbols
    simpa [same.symbol] using symbols
  have built : Leftward similar (.node number ((top ++ [bottom]).reverse.map Entry.tree))
      (.node number ((top ++ [bottom']).reverse.map Entry.tree)) := by
    rw [trees, trees]
    exact .node same.tree
  simp only [Repetition.above, taken, left] at goto ⊢
  by_cases element : p.left = r.element
  · rw [element] at goto ⊢
    rw [reps.goto_topped elements
      (.node number ((top ++ [bottom]).reverse.map Entry.tree))] at goto
    have goto' := reps.goto_topped others
      (.node number ((top ++ [bottom']).reverse.map Entry.tree))
    rw [← element] at goto'
    refine ⟨_, reduce_eq_of _ hp (by rwa [taken]) (by rwa [left]), .inr ⟨_, _, built, ?_, ?_⟩⟩
    · rw [← Option.some.inj goto]
      rfl
    · rw [taken, left, element]
      rfl
  · have inner : .nonterminal p.left ∉ r.outer := by
      simp [mem_outer, notStart, notList, element]
    have goto' : table.goto? (Stack.state (r.base others)) (.nonterminal p.left) = some state := by
      rwa [reps.goto_base others inner, ← reps.goto_base elements inner]
    refine ⟨_, reduce_eq_of _ hp (by rwa [taken]) (by rwa [left]), .inl ?_⟩
    rw [taken, left]
    refine .intro [] (fun entry he => ?_) ⟨rfl, rfl, built⟩
    obtain rfl := List.mem_singleton.mp he
    exact ⟨inner, reps.goto_inside _ _ inner _ goto⟩

/-- What is replaced inside of an element is replaced alongside, until the element is whole. -/
theorem reduce_alongside (alongside : r.Alongside similar elements others stack stack')
    {number : Nat} {p : Production} (hp : table.productions[number]? = some p)
    (inner : ∀ symbol ∈ p.right, symbol ∉ r.outer)
    (notStart : p.left ≠ r.start) (notList : p.left ≠ r.list) {next : Stack τ}
    (h : table.reduce number stack = some next) :
    ∃ next', table.reduce number stack' = some next' ∧
      (r.Alongside similar elements others next next' ∨ ∃ element element',
        Leftward similar element element' ∧ next = r.topped elements element ∧
          next' = r.topped others element') := by
  obtain @⟨top, bottom, bottom', inside, same⟩ := alongside
  by_cases short : p.right.length ≤ top.length
  · obtain ⟨next', reduced, alongside⟩ := reps.reduce_top inside same hp notStart notList short h
    exact ⟨next', reduced, .inl alongside⟩
  · refine reps.reduce_bottom same hp notStart notList ?_ h
    obtain ⟨p', -, hp', symbols, -⟩ := reduce_eq_some h
    rw [hp] at hp'
    obtain rfl := Option.some.inj hp'
    -- Below the first entry of the element there is a list at most.
    have length := congrArg List.length symbols
    simp only [Repetition.above, List.length_map, List.length_reverse, List.length_take,
      List.length_append, List.length_cons] at length
    rcases r.base_cases elements with empty | ⟨tree, list⟩
    · rw [empty] at length
      simp only [List.length_nil] at length
      omega
    · by_contra more
      rw [list] at length
      simp only [List.length_singleton] at length
      have all : (r.above top bottom elements).take p.right.length = r.above top bottom elements :=
        List.take_of_length_le (by simp [Repetition.above, list]; omega)
      rw [all] at symbols
      refine inner (.nonterminal r.list) ?_ (mem_outer.mpr (.inr (.inl rfl)))
      simp [← symbols, Repetition.above, list]

/-- A replacement inside of an element is made alongside. -/
theorem replaces_alongside (alongside : r.Alongside similar elements others stack stack')
    {terminal : Nat} {next : Stack τ} (h : table.Replaces terminal stack next) :
    ∃ next', table.Replaces terminal stack' next' ∧
      (r.Alongside similar elements others next next' ∨ ∃ element element',
        Leftward similar element element' ∧ next = r.topped elements element ∧
          next' = r.topped others element') := by
  obtain ⟨number, calls, reduced⟩ := h
  obtain ⟨same, inside⟩ := alongside.state
  obtain ⟨p, hp, inner, notStart, notList⟩ := reps.reduction_inside _ _ _ inside calls
  obtain ⟨next', reduced', result⟩ :=
    reps.reduce_alongside alongside hp inner notStart notList reduced
  exact ⟨next', ⟨number, by rwa [same], reduced'⟩, result⟩

theorem hasWhole_topped (elements : List (ParseTree τ)) (element : ParseTree τ) :
    table.HasWhole r elements element (r.topped elements element) where
  calls := by
    rw [reps.reduction_topped, if_pos reps.starts_endMark]
    exact Option.some_ne_none _
  replaces _ _ := .refl

/-- Before a replacement that makes an element whole, it was whole already. -/
theorem of_replaces {next : Stack τ} {terminal : Nat} {element : ParseTree τ}
    (inside : Stack.state stack ∉ r.outside) (h : table.Replaces terminal stack next)
    (whole : table.HasWhole r elements element next) :
    table.HasWhole r elements element stack := by
  obtain ⟨number, calls, reduced⟩ := h
  obtain ⟨p, state, hp, -, goto, eq⟩ := reduce_eq_some reduced
  have called : table.reduction? stack.state r.endMark ≠ none := fun unfinished => whole.calls <| by
    rw [eq]
    exact reps.goto_partial _ _ _ _ unfinished calls hp _ _ goto
  obtain ⟨number', calls'⟩ := Option.ne_none_iff_exists'.mp called
  simp only [Repetition.outside, List.mem_cons, not_or] at inside
  have all := reps.reduction_whole _ _ inside.1 inside.2.1 calls'
  have starts : r.starts.has terminal = true := by
    by_contra no
    rw [all, if_neg no] at calls
    cases calls
  refine ⟨called, fun other hs => .head ⟨number, ?_, reduced⟩ (whole.replaces other hs)⟩
  rw [all, if_pos hs, ← calls, all, if_pos starts]

/-- The tokens of a whole element stand behind those of the elements below. -/
theorem tokens_of_hasWhole {element : ParseTree τ}
    (whole : table.HasWhole r elements element stack) :
    stack.tokens = ParseTree.tokensOfAll elements ++ element.tokens := by
  have topped : (r.topped elements element).tokens =
      ParseTree.tokensOfAll elements ++ element.tokens := by
    rw [Repetition.topped, Stack.tokens_cons, Repetition.tokens_base]
  rw [← topped]
  have path := whole.replaces _ reps.starts_endMark
  clear whole
  induction path using ReflTransGen.head_induction_on with
  | refl => rfl
  | head step _ ih =>
    obtain ⟨number, -, reduced⟩ := step
    rw [← ih, reduce_tokens reduced]

/-- The replacements that the next terminal calls for inside of an element are made alongside, or
they come to the point where the element is whole. -/
theorem replacesAll_alongside (alongside : r.Alongside similar elements others stack stack')
    {terminal : Nat} {settled : Stack τ}
    (h : ReflTransGen (table.Replaces terminal) stack settled) :
    (∃ settled', ReflTransGen (table.Replaces terminal) stack' settled' ∧
      r.Alongside similar elements others settled settled') ∨
    ∃ element element', Leftward similar element element' ∧
      table.HasWhole r elements element stack ∧ table.HasWhole r others element' stack' ∧
      ReflTransGen (table.Replaces terminal) (r.topped elements element) settled := by
  induction h using ReflTransGen.head_induction_on generalizing stack' with
  | refl => exact .inl ⟨stack', .refl, alongside⟩
  | @head stack next step rest ih =>
    obtain ⟨next', step', alongside' | ⟨element, element', leftward, rfl, rfl⟩⟩ :=
      reps.replaces_alongside alongside step
    · rcases ih alongside' with
        ⟨settled', rest', result⟩ | ⟨element, element', leftward, whole, whole', result⟩
      · exact .inl ⟨settled', .head step' rest', result⟩
      · exact .inr ⟨element, element', leftward,
          (reps.of_replaces alongside.state.2 step whole),
          (reps.of_replaces (alongside.state.1 ▸ alongside.state.2) step' whole'), result⟩
    · exact .inr ⟨element, element', leftward,
        (reps.of_replaces alongside.state.2 step (reps.hasWhole_topped _ _)),
        (reps.of_replaces (alongside.state.1 ▸ alongside.state.2) step'
          (reps.hasWhole_topped _ _)), rest⟩

/-! ### Tokens -/

/-- A token is inside of an element. -/
theorem inside_token {state terminal target : Nat} (token : τ)
    (goto : table.goto? state (.terminal terminal) = some target) :
    r.Inside [⟨target, .terminal terminal, .leaf token⟩] := by
  have inner : .terminal terminal ∉ r.outer := by simp [mem_outer]
  intro entry he
  obtain rfl := List.mem_singleton.mp he
  exact ⟨inner, reps.goto_inside _ _ inner _ goto⟩

section

variable {g : Grammar} {states : List State} {starts : StartTable}
  (complete : g.Complete states starts) (made : table.MadeOf g states)
include complete made

/-- After whole elements nothing but the end of the input calls for a replacement. -/
theorem settle_base (elements : List (ParseTree τ)) {terminal : Nat}
    (more : terminal ≠ r.endMark) :
    table.settle terminal (r.base elements) = some (r.base elements) :=
  settle_eq_some complete made .refl (reps.reduction_base elements more)

/-- The first token of an element goes onto the elements before it. -/
theorem push_base (elements : List (ParseTree τ)) {terminal : Nat} (more : terminal ≠ r.endMark)
    (token : τ) :
    table.push (r.base elements) terminal token =
      (table.goto? 0 (.terminal terminal)).map fun state =>
        r.above [] ⟨state, .terminal terminal, .leaf token⟩ elements := by
  have inner : .terminal terminal ∉ r.outer := by simp [mem_outer]
  rw [push, reps.settle_base complete made elements more]
  simp only [Option.bind_eq_bind, Option.bind_some, reps.goto_base elements inner]
  cases table.goto? 0 (.terminal terminal) <;> rfl

/-- What may start an element goes onto a whole one as if the elements had been put together. -/
theorem push_of_hasWhole {element : ParseTree τ} (whole : table.HasWhole r elements element stack)
    {terminal : Nat} (hs : r.starts.has terminal = true) (more : terminal ≠ r.endMark)
    (token : τ) :
    table.push stack terminal token =
      table.push (r.base (elements ++ [element])) terminal token := by
  have path := (whole.replaces terminal hs).tail (reps.replaces_topped hs elements element)
  rw [push, push, settle_eq_some complete made path (reps.reduction_base _ more),
    reps.settle_base complete made _ more]

theorem finish_base (elements : List (ParseTree τ)) :
    table.finish (r.base elements) = some (r.whole elements) := by
  rw [finish, reps.endMark, settle_eq_some complete made (.single (reps.replaces_base elements))
    (reps.reduction_done _)]
  simp [reps.start]

theorem finish_of_hasWhole {element : ParseTree τ}
    (whole : table.HasWhole r elements element stack) :
    table.finish stack = some (r.whole (elements ++ [element])) := by
  have path := ((whole.replaces r.endMark reps.starts_endMark).tail
    (reps.replaces_topped reps.starts_endMark elements element)).tail (reps.replaces_base _)
  rw [finish, reps.endMark, settle_eq_some complete made path (reps.reduction_done _)]
  simp [reps.start]

/-- A token goes onto both stacks, unless the element on top is whole. -/
theorem push_alongside (alongside : r.Alongside similar elements others stack stack')
    {terminal : Nat} {token : τ} {next : Stack τ}
    (h : table.push stack terminal token = some next) :
    (∃ next', table.push stack' terminal token = some next' ∧
      r.Alongside similar elements others next next') ∨
    ∃ element element', Leftward similar element element' ∧
      table.HasWhole r elements element stack ∧ table.HasWhole r others element' stack' := by
  obtain ⟨settled, hs, h⟩ := Option.bind_eq_some_iff.mp h
  obtain ⟨target, goto, h⟩ := Option.bind_eq_some_iff.mp h
  obtain rfl := Option.some.inj h
  obtain ⟨path, done⟩ := replaces_of_settle hs
  rcases reps.replacesAll_alongside alongside path with
    ⟨settled', path', result⟩ | ⟨element, element', leftward, whole, whole', -⟩
  · left
    have same := result.state.1
    refine ⟨_, ?_, result.cons (reps.inside_token token goto)⟩
    rw [push, settle_eq_some complete made path' (by rwa [same])]
    simp only [Option.bind_eq_bind, Option.bind_some, same, goto, Option.pure_def]
  · exact .inr ⟨element, element', leftward, whole, whole'⟩

omit complete made in
/-- At the end of the input the element on top has to be whole. -/
theorem finish_alongside (alongside : r.Alongside similar elements others stack stack')
    {tree : ParseTree τ} (h : table.finish stack = some tree) :
    ∃ element element', Leftward similar element element' ∧
      table.HasWhole r elements element stack ∧ table.HasWhole r others element' stack' := by
  obtain ⟨settled, hs, h⟩ := Option.bind_eq_some_iff.mp h
  obtain ⟨path, -⟩ := replaces_of_settle hs
  rcases reps.replacesAll_alongside alongside path with
    ⟨settled', -, result⟩ | ⟨element, element', leftward, whole, whole', -⟩
  · -- Inside of an element the start symbol is not on the stack.
    exfalso
    split at h
    · rename_i entry
      split_ifs at h with symbol
      generalize hc : [entry] = single at result
      obtain @⟨top, bottom, bottom', inside, -⟩ := result
      have mem : bottom ∈ [entry] := by simp [hc, Repetition.above]
      obtain rfl := List.mem_singleton.mp mem
      refine (inside bottom (by simp)).1 (mem_outer.mpr (.inl ?_))
      rw [symbol, reps.start]
    · cases h
  · exact ⟨element, element', leftward, whole, whole'⟩

end

end

end Repeats

end Table

end WebSpec.ContextFree
