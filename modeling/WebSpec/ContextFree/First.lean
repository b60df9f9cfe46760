import WebSpec.ContextFree.Grammar

/-!
# What a derivation starts with

A set of terminals is a number whose bits are its members, and a family of sets is a number in which
the sets stand side by side, each in a field of the same width.

`StartTable` holds for each nonterminal whether it derives the empty list and which terminals its
derivations start with. Both are the least sets that are closed under the productions;
`Grammar.startTable` goes over the productions until nothing changes.

`StartTable.first` extends this to a list of symbols in front of a set: with the set of what may
follow, it gives the terminals that a derivation of the list, continued so, can start with.
-/

namespace WebSpec.ContextFree

/-! ### Sets of terminals -/

/-- A set of terminals: the bits of a number. -/
abbrev TerminalSet := Nat

/-- The set of one terminal. -/
def TerminalSet.single (code : Nat) : TerminalSet :=
  1 <<< code

/-- Whether a terminal is in a set. -/
def TerminalSet.has (set : TerminalSet) (code : Nat) : Bool :=
  set.testBit code

/-- A family of sets, side by side in one number. -/
abbrev SetFamily := Nat

/-- The set in a field, where the fields have the given width. -/
def SetFamily.get (family : SetFamily) (width field : Nat) : TerminalSet :=
  (family >>> (field * width)) % (1 <<< width)

/-- The family with more members in a field. -/
def SetFamily.add (family : SetFamily) (width field : Nat) (set : TerminalSet) : SetFamily :=
  family ||| set <<< (field * width)

/-! ### Starts -/

/-- What the derivations of each nonterminal start with. -/
structure StartTable where
  /-- The width of a set of terminals. -/
  width : Nat
  /-- The nonterminals that derive the empty list. -/
  nullable : Nat
  /-- The terminals that come first, for each nonterminal. -/
  firsts : SetFamily
  deriving Repr

/-- Whether every symbol of a list derives the empty list, where `nullable` holds the nonterminals
that do. -/
def allNullable (nullable : Nat) : List Symbol → Bool
  | [] => true
  | .terminal _ :: _ => false
  | .nonterminal code :: rest => nullable.testBit code && allNullable nullable rest

/-- The terminals that a derivation of the symbols starts with, where `follow` may come after. -/
def StartTable.first (table : StartTable) (follow : TerminalSet) : List Symbol → TerminalSet
  | [] => follow
  | .terminal code :: _ => TerminalSet.single code
  | .nonterminal code :: rest =>
    SetFamily.get table.firsts table.width code |||
      if table.nullable.testBit code then table.first follow rest else 0

/-- Adds the left sides whose right sides derive the empty list. -/
def nullableRound (productions : List Production) (nullable : Nat) : Nat :=
  productions.foldl
    (fun set p => if allNullable set p.right then set ||| 1 <<< p.left else set) nullable

/-- Adds to each left side what its right sides start with. -/
def firstRound (width nullable : Nat) (productions : List Production) (firsts : SetFamily) :
    SetFamily :=
  productions.foldl
    (fun family p =>
      SetFamily.add family width p.left (StartTable.first ⟨width, nullable, family⟩ 0 p.right))
    firsts

/-- Repeats a step on numbers until nothing changes, at most `rounds` times. -/
def repeatUntilStable (step : Nat → Nat) (n : Nat) : Nat → Nat
  | 0 => n
  | rounds + 1 =>
    let next := step n
    if next == n then n else repeatUntilStable step next rounds

/-- What the derivations of each nonterminal start with. A round that changes something adds a
member somewhere, which bounds the rounds. -/
def Grammar.startTable (g : Grammar) : StartTable :=
  let nullable := repeatUntilStable (nullableRound g.productions) 0 (g.nonterminalCount + 1)
  { width := g.terminalCount
    nullable := nullable
    firsts := repeatUntilStable (firstRound g.terminalCount nullable g.productions) 0
      (g.nonterminalCount * g.terminalCount + 1) }

end WebSpec.ContextFree
