import WebSpec.ContextFree.Lookahead

/-!
# Parse tables and parser stacks

A parse table tells a parser what to do with the next terminal in each state: read it and go to
another state, or first replace the right side of a production on top of the stack by its left side.
The stack holds a tree for each symbol that has been read or put there, with the state reached after
it.

`Table.settle` does the replacements that the next terminal calls for, `Table.push` then reads the
terminal, and `Table.finish` is what the end of the input leads to. A replacement is refused unless
the symbols on the stack spell the right side of the production, so the trees on a stack are
derivation trees of their symbols whatever the table says.
-/

namespace WebSpec.ContextFree

/-- What to do in one state. -/
structure Row where
  /-- Where each symbol leads. -/
  edges : List (Symbol × Nat)
  /-- The productions whose right side may have been read, with the terminals that may follow. -/
  reductions : List (Nat × TerminalSet)
  /-- The terminals that mean something here. -/
  accepted : TerminalSet
  deriving Repr

/-- The productions that a state may have read, each with what may follow. -/
def State.reductions (s : State) : List (Nat × TerminalSet) :=
  s.items.filterMap fun l =>
    match l.item.rest with
    | [] => some (l.item.production, l.set)
    | _ :: _ => none

/-- What to do in a state. -/
def State.row (s : State) : Row :=
  let shifted := s.edges.foldl
    (fun set (symbol, _) =>
      match symbol with
      | .terminal code => set ||| TerminalSet.single code
      | .nonterminal _ => set)
    0
  { edges := s.edges
    reductions := s.reductions
    accepted := s.reductions.foldl (fun set r => set ||| r.2) shifted }

/-- A parse table. -/
structure Table where
  productions : Array Production
  start : Nat
  endMark : Nat
  rows : Array Row

/-- The parse table of a grammar. -/
def Grammar.table (g : Grammar) : Table :=
  { productions := g.productions.toArray
    start := g.start
    endMark := g.endMark
    rows := (g.states.map State.row).toArray }

/-- A symbol on a parser's stack, with its tree and the state reached after it. -/
structure Entry (τ : Type) where
  state : Nat
  symbol : Symbol
  tree : ParseTree τ

/-- A parser's stack, the top first. -/
abbrev Stack (τ : Type) := List (Entry τ)

/-- The state that a stack has reached. -/
def Stack.state {τ : Type} : Stack τ → Nat
  | [] => 0
  | entry :: _ => entry.state

namespace Table

variable {τ : Type}

/-- The state that a symbol leads to. -/
def goto? (table : Table) (state : Nat) (symbol : Symbol) : Option Nat := do
  (← table.rows[state]?).edges.lookup symbol

/-- The production to replace in a state if the given terminal is next. -/
def reduction? (table : Table) (state terminal : Nat) : Option Nat := do
  let row ← table.rows[state]?
  let (production, _) ← row.reductions.find? fun (_, set) => set.has terminal
  pure production

/-- The terminals that mean something after the given stack. -/
def accepted (table : Table) (stack : Stack τ) : TerminalSet :=
  match table.rows[stack.state]? with
  | some row => row.accepted
  | none => 0

/-- Replaces the right side of a production on top of the stack by its left side. -/
def reduce (table : Table) (number : Nat) (stack : Stack τ) : Option (Stack τ) := do
  let p ← table.productions[number]?
  let popped := (stack.take p.right.length).reverse
  let rest := stack.drop p.right.length
  if popped.map Entry.symbol = p.right then
    let state ← table.goto? (Stack.state rest) (.nonterminal p.left)
    pure (⟨state, .nonterminal p.left, .node number (popped.map Entry.tree)⟩ :: rest)
  else none

/-- Replaces as long as the terminal calls for it, less than `fuel` times. -/
def settleWithin (table : Table) (terminal : Nat) (stack : Stack τ) : Nat → Option (Stack τ)
  | 0 => none
  | fuel + 1 =>
    match table.reduction? (Stack.state stack) terminal with
    | none => some stack
    | some number => do
      let stack ← table.reduce number stack
      table.settleWithin terminal stack fuel

/-- Does the replacements that the next terminal calls for. Between two replacements that shorten
the stack there is at most one for each production. -/
def settle (table : Table) (terminal : Nat) (stack : Stack τ) : Option (Stack τ) :=
  table.settleWithin terminal stack ((stack.length + 2) * (table.productions.size + 1))

/-- Reads a token of the given terminal. Nothing is returned if the token cannot come next. -/
def push (table : Table) (stack : Stack τ) (terminal : Nat) (token : τ) : Option (Stack τ) := do
  let stack ← table.settle terminal stack
  let state ← table.goto? (Stack.state stack) (.terminal terminal)
  pure (⟨state, .terminal terminal, .leaf token⟩ :: stack)

/-- Ends the input: the tree of the start symbol, if that is what has been read. -/
def finish (table : Table) (stack : Stack τ) : Option (ParseTree τ) := do
  match ← table.settle table.endMark stack with
  | [entry] => if entry.symbol = .nonterminal table.start then pure entry.tree else none
  | _ => none

/-- Reads all tokens. -/
def pushAll (table : Table) (kind : τ → Nat) (stack : Stack τ) (tokens : List τ) :
    Option (Stack τ) :=
  tokens.foldlM (fun stack token => table.push stack (kind token) token) stack

/-- The tree of a list of tokens. -/
def parse? (table : Table) (kind : τ → Nat) (tokens : List τ) : Option (ParseTree τ) := do
  table.finish (← table.pushAll kind [] tokens)

end Table

end WebSpec.ContextFree
