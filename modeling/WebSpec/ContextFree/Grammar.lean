/-!
# Context-free grammars

Grammars over numbered symbols, and their parse trees.

A terminal is a class of tokens and a nonterminal a name with productions; both are numbered from
zero. The first production of a grammar is its root: the start symbol followed by the mark that ends
every input. A `ParseTree` keeps every token below it, and `Derives` says when it is a derivation:
each inner node carries the number of a production, and its children derive the symbols on the right
of it.

A `Pattern` describes the right side of several productions at once, by parts that may be left out.
-/

namespace WebSpec.ContextFree

/-- A symbol of a grammar. -/
inductive Symbol where
  | terminal (code : Nat)
  | nonterminal (code : Nat)
  deriving DecidableEq, Repr

/-- A nonterminal may be replaced by a list of symbols. -/
structure Production where
  left : Nat
  right : List Symbol
  deriving DecidableEq, Repr

/-- A grammar. The productions are numbered by their places in the list. -/
structure Grammar where
  terminalCount : Nat
  nonterminalCount : Nat
  /-- What the grammar describes. -/
  start : Nat
  /-- The terminal that ends every input. -/
  endMark : Nat
  /-- The productions; the first one is the root. -/
  productions : List Production
  deriving Repr

/-- All symbols, the terminals first. -/
def Grammar.symbols (g : Grammar) : List Symbol :=
  (List.range g.terminalCount).map .terminal ++ (List.range g.nonterminalCount).map .nonterminal

/-! ### Parse trees -/

/-- A parse tree over tokens of type `τ`. -/
inductive ParseTree (τ : Type) where
  | leaf (token : τ)
  | node (production : Nat) (children : List (ParseTree τ))

mutual

/-- The tokens of a tree, from left to right. -/
def ParseTree.tokens {τ : Type} : ParseTree τ → List τ
  | .leaf token => [token]
  | .node _ children => ParseTree.tokensOfAll children

/-- The tokens of several trees, from left to right. -/
def ParseTree.tokensOfAll {τ : Type} : List (ParseTree τ) → List τ
  | [] => []
  | tree :: rest => tree.tokens ++ ParseTree.tokensOfAll rest

end

mutual

/-- A tree derives a symbol: a token its terminal, and an inner node the left side of its production
if its children derive the right side. -/
inductive Derives {τ : Type} (g : Grammar) (kind : τ → Nat) : Symbol → ParseTree τ → Prop where
  | leaf (token : τ) : Derives g kind (.terminal (kind token)) (.leaf token)
  | node {number : Nat} {p : Production} {children : List (ParseTree τ)} :
    g.productions[number]? = some p → DerivesAll g kind p.right children →
    Derives g kind (.nonterminal p.left) (.node number children)

/-- Trees derive symbols, one each. -/
inductive DerivesAll {τ : Type} (g : Grammar) (kind : τ → Nat) :
    List Symbol → List (ParseTree τ) → Prop where
  | nil : DerivesAll g kind [] []
  | cons {symbol : Symbol} {tree : ParseTree τ} {symbols : List Symbol}
      {trees : List (ParseTree τ)} :
    Derives g kind symbol tree → DerivesAll g kind symbols trees →
    DerivesAll g kind (symbol :: symbols) (tree :: trees)

end

/-! ### Patterns -/

/-- The right side of several productions. -/
inductive Pattern where
  | empty
  | symbol (s : Symbol)
  | sequence (first second : Pattern)
  /-- A part that may be left out. -/
  | maybe (part : Pattern)
  deriving Repr

/-- Several patterns one after the other. -/
def Pattern.ofList (parts : List Pattern) : Pattern :=
  parts.foldr .sequence .empty

/-- The right sides that a pattern describes. -/
def Pattern.expand : Pattern → List (List Symbol)
  | .empty => [[]]
  | .symbol s => [[s]]
  | .sequence first second =>
    first.expand.flatMap fun head => second.expand.map fun tail => head ++ tail
  | .maybe part => part.expand ++ [[]]

end WebSpec.ContextFree
