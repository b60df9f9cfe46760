import WebSpec.ContextFree.Automaton

/-!
# Lookaheads

What may follow a production where the automaton could have read all of it. Each item in a state has
a set of terminals that may follow its production there. A terminal gets into the set of an item
from what comes after a nonterminal in the same state, or from the same item one place earlier in
the states before. The sets are the least ones closed under this, so that they are shared by all the
ways to get to a state.

The sets are kept for the kernel items of all states, side by side in one family; the others follow
from them. `Blueprint.settle` goes over the connections between kernel items until nothing changes.
-/

namespace WebSpec.ContextFree

/-- A kernel item gives terminals to another: those of `set`, where the mark stands for those that
it has itself. Both are given by their numbers when the kernel items of all states are counted. -/
structure Connection where
  source : Nat
  target : Nat
  set : TerminalSet
  deriving Repr

/-- The connection from a kernel item to the item that comes after `item` in the next state. -/
def Core.connect? (core : Core) (source : Nat) (item : Item) (set : TerminalSet) :
    Option Connection :=
  match item.rest with
  | [] => none
  | symbol :: _ =>
    match core.edges.lookup symbol with
    | none => none
    | some place =>
      match place.kernel.findIdx? fun other => other.index == item.index + 1 with
      | none => none
      | some position => some ⟨source, place.base + position, set⟩

/-- The connections from the kernel item `item`. -/
def Blueprint.connectionsFrom (b : Blueprint) (core : Core) (source : Nat) (item : Item) :
    List Connection :=
  let mark := TerminalSet.single b.grammar.followMark
  (core.connect? source item mark).toList ++
    (b.markedLeadsOf item).filterMap fun l => core.connect? source l.item l.set

/-- The connections from kernel items of a state, the first of them with the number `source`. -/
def Blueprint.connectionsFromAll (b : Blueprint) (core : Core) (source : Nat) :
    List Item → List Connection
  | [] => []
  | item :: rest =>
    b.connectionsFrom core source item ++ b.connectionsFromAll core (source + 1) rest

/-- All connections. -/
def Blueprint.connections (b : Blueprint) (cores : List Core) : List Connection :=
  cores.flatMap fun core => b.connectionsFromAll core core.place.base core.place.kernel

/-- Goes over the connections once. -/
def Blueprint.spread (b : Blueprint) (connections : List Connection) (sets : SetFamily) :
    SetFamily :=
  let width := b.grammar.setWidth
  connections.foldl
    (fun sets c =>
      SetFamily.add sets width c.target
        (b.grammar.substitute c.set (SetFamily.get sets width c.source)))
    sets

/-- Goes over the connections until nothing changes. -/
def Blueprint.settle (b : Blueprint) (cores : List Core) : SetFamily :=
  let items := (cores.flatMap (·.place.kernel)).length
  repeatUntilStable (b.spread (b.connections cores)) 0 (items * b.grammar.setWidth + 1)

/-- A state with the lookaheads of its items. -/
structure State where
  /-- Where each symbol leads. -/
  edges : List (Symbol × Nat)
  /-- The items, each with the terminals that may follow its production. -/
  items : List Lead
  deriving Repr

/-- Adds terminals to an item in a list. -/
def addLead (l : Lead) : List Lead → List Lead
  | [] => [l]
  | other :: rest =>
    if other.item.index == l.item.index then ⟨other.item, other.set ||| l.set⟩ :: rest
    else other :: addLead l rest

/-- Kernel items with their sets, the first of them with the number `base`. -/
def kernelLeads (width : Nat) (sets : SetFamily) (base : Nat) : List Item → List Lead
  | [] => []
  | item :: rest =>
    ⟨item, SetFamily.get sets width base⟩ :: kernelLeads width sets (base + 1) rest

/-- The items of a state with their lookaheads. -/
def Blueprint.leadsAt (b : Blueprint) (sets : SetFamily) (place : Place) : List Lead :=
  let kernel := kernelLeads b.grammar.setWidth sets place.base place.kernel
  match kernel.filterMap fun l =>
      match b.leadsOf l.item l.set with
      | [] => none
      | leads => some leads
    with
  | [] => kernel
  | [leads] => kernel ++ leads
  | several => kernel ++ several.flatten.foldl (fun all l => addLead l all) []

/-- The states of the automaton with the lookaheads of their items. -/
def Grammar.states (g : Grammar) : List State :=
  let b := g.blueprint
  let cores := b.cores
  let sets := b.settle cores
  cores.map fun core =>
    ⟨core.edges.map fun (symbol, place) => (symbol, place.index), b.leadsAt sets core.place⟩

end WebSpec.ContextFree
