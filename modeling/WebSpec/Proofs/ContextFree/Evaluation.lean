import WebSpec.ContextFree.Lookahead

/-!
# The states, evaluated by folds

The states of an automaton are computed once more when a check over all of them is proved, and most
of that work is the search among the states that are known. A recursion on the search tree computes
what it could need of both subtrees before it looks at the key; the same search as a fold of the
tree does not. So the exploration is repeated here with folds (`Known.foldFind?`,
`Known.foldInsert`), and `Grammar.foldStates_eq` says that the states are the same.
-/

namespace WebSpec.ContextFree

/-! ### The search tree -/

/-- `Known.find?` as a fold. -/
noncomputable def Known.foldFind? (key : ItemSet) (known : Known) : Option Place :=
  known.rec none fun k place _ _ less more =>
    (Nat.beq key k).rec ((Nat.blt key k).rec more less) (some place)

/-- `Known.insert` as a fold. -/
noncomputable def Known.foldInsert (key : ItemSet) (place : Place) (known : Known) : Known :=
  known.rec (.node key place .empty .empty) fun k p less more lessInserted moreInserted =>
    (Nat.blt key k).rec (.node k p less moreInserted) (.node k p lessInserted more)

@[simp] theorem Known.foldFind?_eq (key : ItemSet) (known : Known) :
    known.foldFind? key = known.find? key := by
  induction known with
  | empty => rfl
  | node k place less more ihLess ihMore =>
    have hbeq : (key == k) = Nat.beq key k := by rw [Bool.eq_iff_iff, beq_iff_eq, Nat.beq_eq]
    rw [find?, ← ihLess, ← ihMore, hbeq]
    dsimp only [foldFind?]
    cases Nat.beq key k <;> cases Nat.blt key k <;> rfl

@[simp] theorem Known.foldInsert_eq (key : ItemSet) (place : Place) (known : Known) :
    known.foldInsert key place = known.insert key place := by
  induction known with
  | empty => rfl
  | node k p less more ihLess ihMore =>
    rw [insert, ← ihLess, ← ihMore]
    dsimp only [foldInsert]
    cases Nat.blt key k <;> rfl

/-! ### The exploration -/

/-- `Explored.visit` by folds. -/
noncomputable def Explored.foldVisit (e : Explored) (group : Group) : Place × Explored :=
  match e.known.foldFind? group.set with
  | some place => (place, e)
  | none =>
    let place : Place := ⟨e.next.index, e.next.base, group.items⟩
    (place,
      { known := e.known.foldInsert group.set place
        next := ⟨e.next.index + 1, e.next.base + group.items.length, []⟩
        found := place :: e.found })

/-- `Explored.visitAll` by folds. -/
noncomputable def Explored.foldVisitAll (e : Explored) :
    List Group → List (Symbol × Place) × Explored
  | [] => ([], e)
  | group :: rest =>
    match e.foldVisit group with
    | (place, e) =>
      match e.foldVisitAll rest with
      | (edges, e) => ((group.symbol, place) :: edges, e)

/-- `Blueprint.explore` by folds. -/
noncomputable def Blueprint.foldExplore (b : Blueprint) (e : Explored) (pending : List Place) :
    Nat → List Core
  | 0 => []
  | fuel + 1 =>
    match pending with
    | place :: pending =>
      match e.foldVisitAll (groupItems (b.itemsAt place)) with
      | (edges, e) => ⟨place, edges⟩ :: b.foldExplore e pending fuel
    | [] =>
      match e.found.reverse with
      | [] => []
      | found => b.foldExplore { e with found := [] } found fuel

/-- `Blueprint.cores` by folds. -/
noncomputable def Blueprint.foldCores (b : Blueprint) : List Core :=
  let kernel := b.grammar.initialItems.take 1
  let start : Explored := ⟨(Known.empty).insert 1 ⟨0, 0, kernel⟩, ⟨1, 1, []⟩, []⟩
  b.foldExplore start [⟨0, 0, kernel⟩] (2 <<< b.grammar.itemCount)

/-- `Grammar.states` by folds. -/
noncomputable def Grammar.foldStates (g : Grammar) : List State :=
  let b := g.blueprint
  let cores := b.foldCores
  let sets := b.settle cores
  cores.map fun core =>
    ⟨core.edges.map fun (symbol, place) => (symbol, place.index), b.leadsAt sets core.place⟩

@[simp] theorem Explored.foldVisit_eq (e : Explored) (group : Group) :
    e.foldVisit group = e.visit group := by
  simp only [visit, ← Known.foldFind?_eq, ← Known.foldInsert_eq]
  rfl

@[simp] theorem Explored.foldVisitAll_eq (e : Explored) (groups : List Group) :
    e.foldVisitAll groups = e.visitAll groups := by
  induction groups generalizing e with
  | nil => rfl
  | cons group rest ih =>
    simp only [visitAll, ← foldVisit_eq, ← ih]
    rfl

@[simp] theorem Blueprint.foldExplore_eq (b : Blueprint) (e : Explored) (pending : List Place)
    (fuel : Nat) : b.foldExplore e pending fuel = b.explore e pending fuel := by
  induction fuel generalizing e pending with
  | zero => rfl
  | succ fuel ih =>
    cases pending with
    | nil =>
      simp only [explore, ← ih]
      rfl
    | cons place pending =>
      simp only [explore, ← Explored.foldVisitAll_eq, ← ih]
      rfl

theorem Grammar.foldStates_eq (g : Grammar) : g.foldStates = g.states := by
  simp only [foldStates, states, Blueprint.foldCores, Blueprint.cores, Blueprint.foldExplore_eq]

end WebSpec.ContextFree
