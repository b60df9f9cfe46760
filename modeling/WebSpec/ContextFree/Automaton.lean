import WebSpec.ContextFree.First

/-!
# The automaton of a grammar

How far a parser can be in which productions. An `Item` is a production with a place in its right
side; what is left of the place has been read. A state of the automaton is a set of items, and
reading a symbol leads from one state to another: the items that have the symbol next, each one
place further. These are the kernel of the new state. Where a nonterminal comes next in an item, the
initial items of all that it can start with are in the state as well.

`Grammar.leads` is what the grammar alone says about the latter. For each nonterminal it holds the
initial items that come next where the nonterminal does, each with the terminals that may follow its
production; the mark `followMark` stands for whatever may follow the nonterminal.

`Blueprint.cores` explores the states, breadth first. A state is recognised by the set of its kernel
items, which is a number whose bits are the numbers of the items.
-/

namespace WebSpec.ContextFree

/-! ### Items -/

/-- A production with a place in its right side. -/
structure Item where
  /-- The number of the item. -/
  index : Nat
  /-- The number of its production. -/
  production : Nat
  /-- The left side of its production. -/
  left : Nat
  /-- What has not been read. -/
  rest : List Symbol
  deriving DecidableEq, Repr

/-- The item one place further. -/
def Item.advance (item : Item) : Item :=
  ⟨item.index + 1, item.production, item.left, item.rest.tail⟩

/-- The initial items of the productions from `number` on; items are numbered from `index` on. -/
def initialItemsFrom (number index : Nat) : List Production → List Item
  | [] => []
  | p :: rest =>
    ⟨index, number, p.left, p.right⟩ ::
      initialItemsFrom (number + 1) (index + p.right.length + 1) rest

/-- The initial item of each production. -/
def Grammar.initialItems (g : Grammar) : List Item :=
  initialItemsFrom 0 0 g.productions

/-- The number of items. -/
def Grammar.itemCount (g : Grammar) : Nat :=
  g.productions.foldl (fun n p => n + p.right.length + 1) 0

/-! ### What comes next -/

/-- The mark for whatever may follow the nonterminal in question. -/
def Grammar.followMark (g : Grammar) : Nat :=
  g.terminalCount

/-- The width of a set of terminals with the mark. -/
def Grammar.setWidth (g : Grammar) : Nat :=
  g.terminalCount + 1

/-- Puts the set `follow` where `set` has the mark. -/
def Grammar.substitute (g : Grammar) (set follow : TerminalSet) : TerminalSet :=
  if set.has g.followMark then set % TerminalSet.single g.followMark ||| follow else set

/-- Adds to each nonterminal at the start of a right side what may follow it because of those that
are known to come next. -/
def leadRound (g : Grammar) (starts : StartTable) (productions : List Production)
    (family : SetFamily) : SetFamily :=
  productions.foldl
    (fun family p =>
      match p.right with
      | .nonterminal next :: rest =>
        match SetFamily.get family g.setWidth p.left with
        | 0 => family
        | follow + 1 => SetFamily.add family g.setWidth next (starts.first (follow + 1) rest)
      | _ => family)
    family

/-- An item that comes next, with what may follow its production. -/
structure Lead where
  item : Item
  set : TerminalSet
  deriving Repr

/-- The initial items that come next where the nonterminal `code` does. -/
def Grammar.leads (g : Grammar) (starts : StartTable) (chained : List Production)
    (initials : List Item) (code : Nat) : List Lead :=
  let start := SetFamily.add 0 g.setWidth code (TerminalSet.single g.followMark)
  let family := repeatUntilStable (leadRound g starts chained) start
    (g.nonterminalCount * g.setWidth + 1)
  initials.filterMap fun item =>
    match SetFamily.get family g.setWidth item.left with
    | 0 => none
    | set + 1 => some ⟨item, set + 1⟩

/-- What the construction of the automaton needs to know of the grammar. -/
structure Blueprint where
  grammar : Grammar
  starts : StartTable
  /-- For each nonterminal, `Grammar.leads`. -/
  leads : List (List Lead)

/-- The blueprint of a grammar. -/
def Grammar.blueprint (g : Grammar) : Blueprint :=
  let starts := g.startTable
  let initials := g.initialItems
  let chained := g.productions.filter fun p =>
    match p.right with
    | .nonterminal _ :: _ => true
    | _ => false
  ⟨g, starts, (List.range g.nonterminalCount).map (g.leads starts chained initials)⟩

/-- The initial items that come next at an item, where `follow` may follow the item's production. -/
def Blueprint.leadsOf (b : Blueprint) (item : Item) (follow : TerminalSet) : List Lead :=
  match item.rest with
  | .nonterminal code :: rest =>
    let after := b.starts.first follow rest
    (b.leads[code]?.getD []).map fun l => ⟨l.item, b.grammar.substitute l.set after⟩
  | _ => []

/-- The same, where the mark stands for what may follow the item's production. -/
def Blueprint.markedLeadsOf (b : Blueprint) (item : Item) : List Lead :=
  b.leadsOf item (TerminalSet.single b.grammar.followMark)

/-! ### States -/

/-- A set of items: the bits of a number. -/
abbrev ItemSet := Nat

/-- The items that reading a symbol leads to. -/
structure Group where
  symbol : Symbol
  set : ItemSet
  items : List Item
  deriving Repr

/-- Adds an item, one place further, to the group of the symbol that it has next. -/
def addAdvanced (symbol : Symbol) (item : Item) : List Group → List Group
  | [] => [⟨symbol, 1 <<< item.index, [item]⟩]
  | group :: rest =>
    if group.symbol = symbol then
      if group.set.testBit item.index then group :: rest
      else ⟨symbol, group.set ||| 1 <<< item.index, group.items ++ [item]⟩ :: rest
    else group :: addAdvanced symbol item rest

/-- Groups items by the symbol that they have next. -/
def groupItems (items : List Item) : List Group :=
  items.foldl
    (fun groups item =>
      match item.rest with
      | [] => groups
      | symbol :: _ => addAdvanced symbol item.advance groups)
    []

/-- The place of a state: its number, its kernel items, and the number of the first of them when the
kernel items of all states are counted. -/
structure Place where
  index : Nat
  base : Nat
  kernel : List Item
  deriving Repr

/-- The states that are known, by their kernels: a search tree. -/
inductive Known where
  | empty
  | node (key : ItemSet) (place : Place) (less more : Known)

/-- The state with a kernel. -/
def Known.find? (key : ItemSet) : Known → Option Place
  | .empty => none
  | .node k place less more =>
    if key == k then some place
    else if Nat.blt key k then less.find? key else more.find? key

/-- Makes a state known. -/
def Known.insert (key : ItemSet) (place : Place) : Known → Known
  | .empty => .node key place .empty .empty
  | .node k p less more =>
    if Nat.blt key k then .node k p (less.insert key place) more
    else .node k p less (more.insert key place)

/-- A state: its place, and where each next symbol leads. -/
structure Core where
  place : Place
  edges : List (Symbol × Place)
  deriving Repr

/-- How far the exploration has come. -/
structure Explored where
  known : Known
  /-- The place of the next state, without items. -/
  next : Place
  /-- The states that have been found and not been looked at, the last one first. -/
  found : List Place

/-- Finds the state that a group leads to. -/
def Explored.visit (e : Explored) (group : Group) : Place × Explored :=
  match e.known.find? group.set with
  | some place => (place, e)
  | none =>
    let place : Place := ⟨e.next.index, e.next.base, group.items⟩
    (place,
      { known := e.known.insert group.set place
        next := ⟨e.next.index + 1, e.next.base + group.items.length, []⟩
        found := place :: e.found })

/-- Finds the states that groups lead to. -/
def Explored.visitAll (e : Explored) : List Group → List (Symbol × Place) × Explored
  | [] => ([], e)
  | group :: rest =>
    match e.visit group with
    | (place, e) =>
      match e.visitAll rest with
      | (edges, e) => ((group.symbol, place) :: edges, e)

/-- The items of a state: its kernel, and what comes next there. -/
def Blueprint.itemsAt (b : Blueprint) (place : Place) : List Item :=
  place.kernel ++ place.kernel.flatMap fun item => (b.markedLeadsOf item).map Lead.item

/-- Explores the states in `pending` and those that are found on the way. -/
def Blueprint.explore (b : Blueprint) (e : Explored) (pending : List Place) : Nat → List Core
  | 0 => []
  | fuel + 1 =>
    match pending with
    | place :: pending =>
      match e.visitAll (groupItems (b.itemsAt place)) with
      | (edges, e) => ⟨place, edges⟩ :: b.explore e pending fuel
    | [] =>
      match e.found.reverse with
      | [] => []
      | found => b.explore { e with found := [] } found fuel

/-- The states of the automaton; the first one is where a parser starts. There are no more of them
than sets of items, and each is looked at once and found once. -/
def Blueprint.cores (b : Blueprint) : List Core :=
  let kernel := b.grammar.initialItems.take 1
  let start : Explored := ⟨(Known.empty).insert 1 ⟨0, 0, kernel⟩, ⟨1, 1, []⟩, []⟩
  b.explore start [⟨0, 0, kernel⟩] (2 <<< b.grammar.itemCount)

end WebSpec.ContextFree
