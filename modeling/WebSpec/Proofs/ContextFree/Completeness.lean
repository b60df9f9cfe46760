import Mathlib.Logic.Relation
import WebSpec.Proofs.ContextFree.Certificate
import WebSpec.Proofs.ContextFree.Soundness

/-!
# Parsers find every derivation

A parser that goes by complete states finds the derivation tree of its input. `Moves` is what a
parser does in one step: it replaces the right side of a production, or reads a token. The tokens of
a derivation tree lead from any stack that expects its symbol to the same stack with the tree on
top (`moves_of_derives`), by induction on the derivation.

The replacements between two tokens come to an end in time (`settle_eq_some`), so that pushing the
tokens one by one does the same moves (`push_of_moves`, `finish_of_moves`).

What a token may be can depend on the place where it is read. `ParseTree.FitsAt` says that the
tokens of a tree fit their places, where a place is given by the productions that begin there; the
moves then read tokens only where they fit.
-/

namespace WebSpec.ContextFree

open Relation

variable {τ : Type} {g : Grammar} {states : List State} {starts : StartTable} {table : Table}
  {kind : τ → Nat}

/-! ### Tables made of states -/

/-- The table does what the states say. -/
structure Table.MadeOf (table : Table) (g : Grammar) (states : List State) : Prop where
  productions : table.productions = g.productions.toArray
  start : table.start = g.start
  endMark : table.endMark = g.endMark
  rows : table.rows = (states.map State.row).toArray

theorem Grammar.madeOf_states (g : Grammar) : g.table.MadeOf g g.states :=
  ⟨rfl, rfl, rfl, rfl⟩

namespace Table.MadeOf

variable {state : Nat} {s : State}

theorem row (made : table.MadeOf g states) (hs : states[state]? = some s) :
    table.rows[state]? = some s.row := by
  simp [made.rows, hs]

theorem goto? (made : table.MadeOf g states) (hs : states[state]? = some s) (symbol : Symbol) :
    table.goto? state symbol = s.edges.lookup symbol := by
  simp [Table.goto?, made.row hs, State.row]

theorem reduction? (made : table.MadeOf g states) (hs : states[state]? = some s)
    (terminal : Nat) :
    table.reduction? state terminal =
      (s.reductions.find? fun r => TerminalSet.has r.2 terminal).map Prod.fst := by
  simp only [Table.reduction?, made.row hs, State.row, Option.bind_eq_bind, Option.bind_some]
  cases s.reductions.find? fun r => TerminalSet.has r.2 terminal <;> rfl

theorem accepted (made : table.MadeOf g states) {stack : Stack τ}
    (hs : states[stack.state]? = some s) : table.accepted stack = s.row.accepted := by
  simp only [Table.accepted, made.row hs]

theorem production? (made : table.MadeOf g states) (number : Nat) :
    table.productions[number]? = g.productions[number]? := by
  simp [made.productions]

/-- A state that a symbol leads to is one of the states. -/
theorem exists_of_goto? (made : table.MadeOf g states) {symbol : Symbol} {target : Nat}
    (h : table.goto? state symbol = some target) :
    ∃ s, states[state]? = some s ∧ s.edges.lookup symbol = some target := by
  cases hs : states[state]? with
  | none => simp [Table.goto?, made.rows, hs] at h
  | some s => exact ⟨s, rfl, by rw [← made.goto? hs, h]⟩

end Table.MadeOf

/-! ### Places of tokens -/

mutual

/-- The tokens of a tree fit their places, where the productions with the given numbers begin at the
place of the tree. -/
def ParseTree.FitsAt (fits : List Nat → τ → Prop) (begun : List Nat) : ParseTree τ → Prop
  | .leaf token => fits begun token
  | .node number children => ParseTree.AllFit fits (number :: begun) children

/-- The tokens of trees fit their places, where the productions begin at the first of them. -/
def ParseTree.AllFit (fits : List Nat → τ → Prop) (begun : List Nat) : List (ParseTree τ) → Prop
  | [] => True
  | tree :: rest => tree.FitsAt fits begun ∧ ParseTree.AllFit fits [] rest

end

/-- The state has an item of each production of which nothing has been read. -/
def State.HasBegun (s : State) (g : Grammar) (begun : List Nat) : Prop :=
  ∀ number ∈ begun, ∃ l ∈ s.items, l.item.production = number ∧
    ∃ p, g.productions[number]? = some p ∧ l.item.rest = p.right

theorem State.hasBegun_nil (s : State) : s.HasBegun g [] := by
  simp [HasBegun]

theorem State.HasBegun.begins {s : State} {begun : List Nat} (h : s.HasBegun g begun)
    {number : Nat} (hn : number ∈ begun) {p : Production} (hp : g.productions[number]? = some p) :
    g.Begins p.left s := by
  obtain ⟨l, hl, rfl, whole, hw, rest⟩ := h number hn
  obtain rfl := Option.some.inj (hp.symm.trans hw)
  exact ⟨l, hl, p, hp, rfl, by rw [rest]⟩

/-! ### Moves -/

/-- One replacement that the next terminal calls for. -/
def Table.Replaces (table : Table) (terminal : Nat) (stack stack' : Stack τ) : Prop :=
  ∃ number, table.reduction? stack.state terminal = some number ∧
    table.reduce number stack = some stack'

/-- One step of a parser, from a stack and what is left of the input. A token is read only onto a
stack with which `reads` holds of it. -/
inductive Moves (table : Table) (kind : τ → Nat) (reads : Stack τ → τ → Prop) :
    Stack τ × List τ → Stack τ × List τ → Prop where
  | replace {stack stack' : Stack τ} {input : List τ} :
    table.Replaces (nextKind kind table.endMark input) stack stack' →
    Moves table kind reads (stack, input) (stack', input)
  | read {stack : Stack τ} {token : τ} {input : List τ} {state : Nat} :
    reads stack token → table.reduction? stack.state (kind token) = none →
    table.goto? stack.state (.terminal (kind token)) = some state →
    Moves table kind reads (stack, token :: input)
      (⟨state, .terminal (kind token), .leaf token⟩ :: stack, input)

section Derivations

variable {fits : List Nat → τ → Prop} {reads : Stack τ → τ → Prop}

theorem take_append_reverse {α : Type} {entries rest : List α} {n : Nat}
    (h : entries.length = n) : (entries.reverse ++ rest).take n = entries.reverse := by
  rw [← h, ← List.length_reverse, List.take_left']
  rfl

/-- The right side of a production on a stack is replaced by its left side. -/
theorem Table.MadeOf.reduce_eq (made : table.MadeOf g states) {number : Nat} {p : Production}
    (hp : g.productions[number]? = some p) {entries : List (Entry τ)} {stack : Stack τ}
    (symbols : entries.map Entry.symbol = p.right) {state : Nat}
    (hg : table.goto? stack.state (.nonterminal p.left) = some state) :
    table.reduce number (entries.reverse ++ stack) =
      some (⟨state, .nonterminal p.left, .node number (entries.map Entry.tree)⟩ :: stack) := by
  have length : entries.length = p.right.length := by rw [← symbols, List.length_map]
  have popped : (entries.reverse ++ stack).take p.right.length = entries.reverse :=
    take_append_reverse length
  have left : (entries.reverse ++ stack).drop p.right.length = stack := by
    rw [← length, ← List.length_reverse, List.drop_left]
  simp only [Table.reduce, made.production?, hp, Option.bind_eq_bind, Option.bind_some, popped,
    List.reverse_reverse, symbols, if_true, left, hg, Option.pure_def]

mutual

/-- The tokens of a derivation tree lead from a stack that expects its symbol to the stack with the
tree on top. -/
theorem moves_of_derives (complete : g.Complete states starts) (made : table.MadeOf g states)
    (bound : ∀ token, kind token < starts.width) (last : table.endMark < starts.width)
    (fit : ∀ (stack : Stack τ) (s : State) (begun : List Nat) (token : τ),
      states[stack.state]? = some s → s.HasBegun g begun → fits begun token →
      reads stack token) :
    ∀ {symbol : Symbol} {tree : ParseTree τ}, Derives g kind symbol tree →
    ∀ {stack : Stack τ} {s : State} {l : Lead} {rest : List Symbol} {begun : List Nat}
      {input : List τ}, states[stack.state]? = some s → l ∈ s.items →
      l.item.rest = symbol :: rest → s.HasBegun g begun → tree.FitsAt fits begun →
      TerminalSet.has (starts.first l.set rest) (nextKind kind table.endMark input) = true →
      ∃ state, table.goto? stack.state symbol = some state ∧
        ReflTransGen (Moves table kind reads) (stack, tree.tokens ++ input)
          (⟨state, symbol, tree⟩ :: stack, input)
  | _, _, .leaf token, stack, s, l, rest, begun, input, hs, hl, hr, hb, hf, _ => by
    obtain ⟨target, -, lookup, -⟩ := complete.advance s (List.mem_of_getElem? hs) l hl _ _ hr
    have shifted := complete.keep s (List.mem_of_getElem? hs) l hl _ _ hr
    have goto := (made.goto? hs _).trans lookup
    refine ⟨target, goto, .single (.read (fit stack s begun token hs hb hf) ?_ goto)⟩
    rw [made.reduction? hs, shifted]
    rfl
  | _, _, @Derives.node _ _ _ number p children hp derives, stack, s, l, rest, begun, input, hs, hl,
      hr, hb, hf, hn => by
    obtain ⟨target, -, lookup, -⟩ := complete.advance s (List.mem_of_getElem? hs) l hl _ _ hr
    have goto : table.goto? stack.state (.nonterminal p.left) = some target :=
      (made.goto? hs _).trans lookup
    have next : nextKind kind table.endMark input < starts.width := by
      cases input with
      | nil => exact last
      | cons token others => exact bound token
    obtain ⟨l', hl', production, whole, more⟩ :=
      complete.predict s (List.mem_of_getElem? hs) l hl p number rest hp hr
    have hb : s.HasBegun g (number :: begun) :=
      List.forall_mem_cons.mpr ⟨⟨l', hl', production, p, hp, whole⟩, hb⟩
    obtain ⟨entries, symbols, trees, moves, s', l'', hs', hl'', same, done, kept⟩ :=
      moves_of_derivesAll complete made bound last fit derives hs hl' whole hb hf
        (more _ next hn)
    have replaced := complete.replace s' (List.mem_of_getElem? hs') l'' hl'' done _
      (kept _ (more _ next hn))
    refine ⟨target, goto, moves.tail (.replace ⟨number, ?_, ?_⟩)⟩
    · rw [made.reduction? hs', replaced, Option.map_some, same, production]
    · rw [made.reduce_eq hp symbols goto, trees]

/-- The tokens of derivation trees lead from a stack that expects their symbols to the stack with
the trees on top. -/
theorem moves_of_derivesAll (complete : g.Complete states starts) (made : table.MadeOf g states)
    (bound : ∀ token, kind token < starts.width) (last : table.endMark < starts.width)
    (fit : ∀ (stack : Stack τ) (s : State) (begun : List Nat) (token : τ),
      states[stack.state]? = some s → s.HasBegun g begun → fits begun token →
      reads stack token) :
    ∀ {symbols : List Symbol} {trees : List (ParseTree τ)}, DerivesAll g kind symbols trees →
    ∀ {stack : Stack τ} {s : State} {l : Lead} {begun : List Nat} {input : List τ},
      states[stack.state]? = some s → l ∈ s.items → l.item.rest = symbols →
      s.HasBegun g begun → ParseTree.AllFit fits begun trees →
      TerminalSet.has l.set (nextKind kind table.endMark input) = true →
      ∃ entries : List (Entry τ), entries.map Entry.symbol = symbols ∧
        entries.map Entry.tree = trees ∧
        ReflTransGen (Moves table kind reads) (stack, ParseTree.tokensOfAll trees ++ input)
          (entries.reverse ++ stack, input) ∧
        ∃ (s' : State) (l' : Lead), states[Stack.state (entries.reverse ++ stack)]? = some s' ∧
          l' ∈ s'.items ∧ l'.item.production = l.item.production ∧ l'.item.rest = [] ∧
          ∀ code, TerminalSet.has l.set code = true → TerminalSet.has l'.set code = true
  | _, _, .nil, stack, s, l, begun, input, hs, hl, hr, _, _, _ =>
    ⟨[], rfl, rfl, .refl, s, l, hs, hl, rfl, hr, fun _ hc => hc⟩
  | _, _, @DerivesAll.cons _ _ _ symbol tree symbols trees first others, stack, s, l, begun, input,
      hs, hl, hr, hb, hf, hn => by
    have follow := StartTable.first_has_nextKind complete.closed others hn
    rw [← nextKind_append] at follow
    obtain ⟨state, goto, moves⟩ := moves_of_derives complete made bound last fit first hs hl hr hb
      hf.1 follow
    obtain ⟨target, next, lookup, found, l', hl', production, left, more⟩ :=
      complete.advance s (List.mem_of_getElem? hs) l hl _ _ hr
    rw [made.goto? hs, lookup] at goto
    obtain rfl := Option.some.inj goto
    have found : states[Stack.state (⟨target, symbol, tree⟩ :: stack)]? = some next := found
    obtain ⟨entries, hsymbols, htrees, moves', s', l'', hs', hl'', same, done, kept⟩ :=
      moves_of_derivesAll complete made bound last fit others found hl' left
        next.hasBegun_nil hf.2 (more _ hn)
    refine ⟨⟨target, symbol, tree⟩ :: entries, by simp [hsymbols], by simp [htrees], ?_, s', l'',
      by simpa using hs', hl'', same.trans production, done,
      fun code hc => kept code (more code hc)⟩
    simpa [ParseTree.tokensOfAll] using moves.trans moves'

end

end Derivations

/-! ### Replacements come to an end -/

/-- What replacements that do not lengthen a stack make smaller: its length, and then the number of
the nonterminal on top, where a terminal counts more than every nonterminal. -/
def Stack.weight (count : Nat) : Stack τ → Nat
  | [] => 0
  | entry :: rest =>
    (rest.length + 1) * (count + 1) +
      match entry.symbol with
      | .terminal _ => count
      | .nonterminal code => min code count

theorem Stack.weight_lt (count : Nat) (stack : Stack τ) :
    stack.weight count < (stack.length + 1) * (count + 1) := by
  cases stack with
  | nil => simp [weight]
  | cons entry rest =>
    simp only [weight, List.length_cons, Nat.succ_mul]
    cases entry.symbol <;> simp only <;> omega

theorem Stack.weight_lt_of_length_lt {count : Nat} {stack stack' : Stack τ}
    (h : stack'.length < stack.length) : stack'.weight count < stack.weight count := by
  refine Nat.lt_of_lt_of_le (weight_lt count stack') ?_
  cases stack with
  | nil => cases h
  | cons entry rest =>
    have rows : (stack'.length + 1) * (count + 1) ≤ (rest.length + 1) * (count + 1) :=
      Nat.mul_le_mul_right _ h
    simp only [weight]
    omega

namespace Table

/-- A replacement makes a stack lighter, or its production is empty. -/
theorem weight_lt_of_reduce (made : table.MadeOf g states) (ordered : g.Ordered) {number : Nat}
    {stack stack' : Stack τ} (h : table.reduce number stack = some stack') :
    stack'.weight g.nonterminalCount < stack.weight g.nonterminalCount ∨
      ∃ p ∈ g.productions, p.right = [] ∧ ∃ entry, stack' = entry :: stack ∧
        table.goto? stack.state (.nonterminal p.left) = some entry.state := by
  obtain ⟨p, state, hp, symbols, goto, rfl⟩ := reduce_eq_some h
  rw [made.production?] at hp
  have hp := List.mem_of_getElem? hp
  have fits : p.right.length ≤ stack.length := by
    have length := congrArg List.length symbols
    simp only [List.length_map, List.length_reverse, List.length_take] at length
    omega
  match hr : p.right with
  | [] =>
    rw [hr] at goto
    exact .inr ⟨p, hp, hr, ⟨_, rfl, goto⟩⟩
  | [symbol] =>
    left
    obtain _ | ⟨entry, rest⟩ := stack
    · rw [hr] at fits
      cases fits
    have top : entry.symbol = symbol := by simpa [hr] using symbols
    have below := ordered.left_lt p hp
    simp only [Stack.weight, List.length_singleton, List.drop_one, List.tail_cons, top]
    cases symbol with
    | terminal code => simp only; omega
    | nonterminal code =>
      have smaller := ordered.left_lt_right p hp code hr
      simp only
      omega
  | first :: second :: others =>
    refine .inl (Stack.weight_lt_of_length_lt ?_)
    simp only [hr, List.length_cons] at fits
    simp only [List.length_cons, List.length_drop]
    omega

/-- After the replacement of an empty production nothing is replaced. -/
theorem reduction?_after_empty (complete : g.Complete states starts)
    (made : table.MadeOf g states) {p : Production} (hp : p ∈ g.productions) (hr : p.right = [])
    {stack : Stack τ} {target : Nat}
    (hg : table.goto? stack.state (.nonterminal p.left) = some target) (terminal : Nat) :
    table.reduction? target terminal = none := by
  obtain ⟨s, hs, lookup⟩ := made.exists_of_goto? hg
  cases ht : states[target]? with
  | none => simp [reduction?, made.rows, ht]
  | some next =>
    rw [made.reduction? ht, complete.stop s (List.mem_of_getElem? hs) p hp hr target next lookup ht]
    rfl

theorem settleWithin_eq_some (complete : g.Complete states starts)
    (made : table.MadeOf g states) {terminal : Nat} {stack settled : Stack τ}
    (replaced : ReflTransGen (table.Replaces terminal) stack settled)
    (done : table.reduction? settled.state terminal = none) {fuel : Nat}
    (enough : stack.weight g.nonterminalCount + 2 ≤ fuel) :
    table.settleWithin terminal stack fuel = some settled := by
  induction replaced using ReflTransGen.head_induction_on generalizing fuel with
  | refl =>
    obtain ⟨fuel, rfl⟩ : ∃ n, fuel = n + 1 := ⟨fuel - 1, by omega⟩
    simp only [settleWithin, done]
  | @head stack next step rest ih =>
    obtain ⟨fuel, rfl⟩ : ∃ n, fuel = n + 1 := ⟨fuel - 1, by omega⟩
    obtain ⟨number, calls, reduced⟩ := step
    simp only [settleWithin, calls, reduced, Option.bind_eq_bind, Option.bind_some]
    rcases weight_lt_of_reduce made complete.ordered reduced with
      lighter | ⟨p, hp, hr, entry, rfl, goto⟩
    · exact ih (by omega)
    · -- Nothing follows the replacement of an empty production, so `next` is settled.
      have stuck := reduction?_after_empty complete made hp hr goto terminal
      obtain rfl : settled = entry :: stack := by
        rcases rest.cases_head with rfl | ⟨_, ⟨_, calls', -⟩, -⟩
        · rfl
        · rw [show Stack.state (entry :: stack) = entry.state from rfl, stuck] at calls'
          cases calls'
      obtain ⟨fuel, rfl⟩ : ∃ n, fuel = n + 1 := ⟨fuel - 1, by omega⟩
      simp only [settleWithin, done]

theorem settle_eq_some (complete : g.Complete states starts) (made : table.MadeOf g states)
    {terminal : Nat} {stack settled : Stack τ}
    (replaced : ReflTransGen (table.Replaces terminal) stack settled)
    (done : table.reduction? settled.state terminal = none) :
    table.settle terminal stack = some settled := by
  refine settleWithin_eq_some complete made replaced done ?_
  have weight := stack.weight_lt g.nonterminalCount
  have count : g.nonterminalCount + 1 ≤ table.productions.size + 1 := by
    simpa [made.productions] using complete.ordered.count_le
  have rows : (stack.length + 2) * (g.nonterminalCount + 1) ≤
      (stack.length + 2) * (table.productions.size + 1) := Nat.mul_le_mul_left _ count
  have split : (stack.length + 2) * (g.nonterminalCount + 1) =
      (stack.length + 1) * (g.nonterminalCount + 1) + (g.nonterminalCount + 1) :=
    Nat.succ_mul ..
  omega

/-! ### Accepted terminals -/

theorem testBit_shifted {edges : List (Symbol × Nat)} {start : TerminalSet} {code : Nat}
    (h : start.testBit code = true ∨ ∃ target, (Symbol.terminal code, target) ∈ edges) :
    (edges.foldl
      (fun set (symbol, _) =>
        match symbol with
        | .terminal code => set ||| TerminalSet.single code
        | .nonterminal _ => set)
      start).testBit code = true := by
  induction edges generalizing start with
  | nil => simpa using h
  | cons edge rest ih =>
    obtain ⟨symbol, next⟩ := edge
    refine ih ?_
    rcases h with h | ⟨target, ht⟩
    · left
      cases symbol with
      | terminal other => rw [Nat.testBit_or, h, Bool.true_or]
      | nonterminal => exact h
    · rcases List.mem_cons.mp ht with he | ht
      · obtain ⟨rfl, rfl⟩ := Prod.mk.inj he
        exact .inl (TerminalSet.has_or.mpr (.inr (TerminalSet.has_single.mpr rfl)))
      · exact .inr ⟨target, ht⟩

/-- A terminal that a state shifts or replaces under is accepted there. -/
theorem accepted_row {s : State} {code : Nat}
    (h : (∃ target, s.edges.lookup (.terminal code) = some target) ∨
      ∃ r ∈ s.reductions, TerminalSet.has r.2 code = true) :
    TerminalSet.has s.row.accepted code = true := by
  refine testBit_foldl_or.mpr (h.imp (fun ⟨target, lookup⟩ => ?_) id)
  obtain ⟨before, after, he, -⟩ := List.lookup_eq_some_iff.mp lookup
  exact testBit_shifted (.inr ⟨target, by simp [he]⟩)

/-- What comes to be read after replacements is accepted before them. -/
theorem accepted_of_replaces (made : table.MadeOf g states) {terminal : Nat}
    {stack settled : Stack τ} (replaced : ReflTransGen (table.Replaces terminal) stack settled)
    {target : Nat} (hg : table.goto? settled.state (.terminal terminal) = some target) :
    (table.accepted stack).has terminal = true := by
  rcases replaced.cases_head with rfl | ⟨next, ⟨number, calls, -⟩, -⟩
  · obtain ⟨s, hs, lookup⟩ := made.exists_of_goto? hg
    rw [made.accepted hs]
    exact accepted_row (.inl ⟨target, lookup⟩)
  · cases hs : states[stack.state]? with
    | none => simp [reduction?, made.rows, hs] at calls
    | some s =>
      rw [made.reduction? hs, Option.map_eq_some_iff] at calls
      obtain ⟨r, found, -⟩ := calls
      rw [made.accepted hs]
      exact accepted_row (.inr ⟨r, List.mem_of_find?_eq_some found,
        by simpa using List.find?_some found⟩)

/-! ### Pushing tokens -/

variable {reads : Stack τ → τ → Prop} {stack : Stack τ} {token : τ} {input : List τ}

/-- After replacements there is a nonterminal on top, and it led to the state. -/
theorem eq_or_top_of_replaces {terminal : Nat} {settled : Stack τ}
    (h : ReflTransGen (table.Replaces terminal) stack settled) :
    settled = stack ∨ ∃ state code, table.goto? state (.nonterminal code) = some settled.state := by
  cases h with
  | refl => exact .inl rfl
  | tail _ last =>
    obtain ⟨number, -, reduced⟩ := last
    obtain ⟨p, state, -, -, goto, rfl⟩ := reduce_eq_some reduced
    exact .inr ⟨_, p.left, goto⟩

/-- Moves that read all of the input start with replacements and the reading of the next token. -/
theorem exists_read_of_moves {final : Stack τ}
    (h : ReflTransGen (Moves table kind reads) (stack, token :: input) (final, [])) :
    ∃ settled state, ReflTransGen (table.Replaces (kind token)) stack settled ∧
      reads settled token ∧ table.reduction? settled.state (kind token) = none ∧
      table.goto? settled.state (.terminal (kind token)) = some state ∧
      ReflTransGen (Moves table kind reads)
        (⟨state, .terminal (kind token), .leaf token⟩ :: settled, input) (final, []) := by
  generalize hc : (stack, token :: input) = c at h
  induction h using ReflTransGen.head_induction_on generalizing stack with
  | refl => cases hc
  | head step rest ih =>
    subst hc
    cases step with
    | replace replaced =>
      obtain ⟨settled, state, before, reading⟩ := ih rfl
      exact ⟨settled, state, before.head replaced, reading⟩
    | read reads done goto => exact ⟨stack, _, .refl, reads, done, goto, rest⟩

/-- Moves at the end of the input are replacements. -/
theorem replaces_of_moves {final : Stack τ}
    (h : ReflTransGen (Moves table kind reads) (stack, []) (final, [])) :
    ReflTransGen (table.Replaces table.endMark) stack final := by
  generalize hc : (stack, ([] : List τ)) = c at h
  induction h using ReflTransGen.head_induction_on generalizing stack with
  | refl => cases hc; exact .refl
  | head step rest ih =>
    subst hc
    cases step with
    | replace replaced => exact .head replaced (ih rfl)

section

variable (complete : g.Complete states starts) (made : table.MadeOf g states)
include complete made

/-- Pushing the next token does the moves up to its reading. -/
theorem push_of_moves {final : Stack τ}
    (h : ReflTransGen (Moves table kind reads) (stack, token :: input) (final, [])) :
    ∃ settled stack', ReflTransGen (table.Replaces (kind token)) stack settled ∧
      reads settled token ∧ (table.accepted stack).has (kind token) = true ∧
      table.push stack (kind token) token = some stack' ∧
      ReflTransGen (Moves table kind reads) (stack', input) (final, []) := by
  obtain ⟨settled, state, replaced, reads, done, goto, rest⟩ := exists_read_of_moves h
  refine ⟨settled, _, replaced, reads, accepted_of_replaces made replaced goto, ?_, rest⟩
  rw [push, settle_eq_some complete made replaced done]
  simp only [Option.bind_eq_bind, Option.bind_some, goto, Option.pure_def]

/-- At the end of the input the tree of the start symbol is found. -/
theorem finish_of_moves {state : Nat} {tree : ParseTree τ}
    (h : ReflTransGen (Moves table kind reads) (stack, [])
      ([⟨state, .nonterminal table.start, tree⟩], []))
    (done : table.reduction? state table.endMark = none) : table.finish stack = some tree := by
  rw [finish, settle_eq_some complete made (replaces_of_moves h) done]
  simp

/-- The tokens of a derivation of the start symbol lead from the empty stack to its tree alone, and
then nothing is left to do. -/
theorem moves_of_derives_start {fits : List Nat → τ → Prop}
    (bound : ∀ token, kind token < starts.width) (last : table.endMark < starts.width)
    (fit : ∀ (stack : Stack τ) (s : State) (begun : List Nat) (token : τ),
      states[stack.state]? = some s → s.HasBegun g begun → fits begun token →
      reads stack token)
    {number : Nat} {children : List (ParseTree τ)}
    (derives : Derives g kind (.nonterminal g.start) (.node number children))
    (hf : ParseTree.AllFit fits [number] children) :
    ∃ state, ReflTransGen (Moves table kind reads)
        ([], ParseTree.tokensOfAll children)
        ([⟨state, .nonterminal g.start, .node number children⟩], []) ∧
      table.reduction? state table.endMark = none := by
  obtain ⟨s, hs, l, hl, hr⟩ := complete.root
  have expected : TerminalSet.has (starts.first l.set [.terminal g.endMark])
      (nextKind kind table.endMark []) = true :=
    TerminalSet.has_single.mpr made.endMark.symm
  have hs : states[Stack.state ([] : Stack τ)]? = some s := hs
  obtain ⟨state, goto, moves⟩ := moves_of_derives complete made bound last fit derives hs hl hr
    s.hasBegun_nil hf expected
  obtain ⟨target, next, lookup, found, l', hl', -, left, -⟩ :=
    complete.advance s (List.mem_of_getElem? hs) l hl _ _ hr
  rw [made.goto? hs, lookup] at goto
  obtain rfl := Option.some.inj goto
  refine ⟨target, by simpa [ParseTree.tokens] using moves, ?_⟩
  rw [made.reduction? found, made.endMark,
    complete.keep next (List.mem_of_getElem? found) l' hl' _ _ left]
  rfl

end

end Table

end WebSpec.ContextFree
