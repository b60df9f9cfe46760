import WebSpec.Proofs.ContextFree.Repetition

/-!
# Checking repetitions

What makes the table of an automaton repeat elements, as a check that can be computed from the
states: `Grammar.repeats`. Each state is looked at by itself (`Repetition.allows`), where
`Grammar.partialLefts` collects over all states what is replaced while an element is not whole.
-/

namespace WebSpec.ContextFree

/-! ### The check -/

/-- Whether a terminal calls for a replacement in a state. -/
def State.replacesUnder (s : State) (code : Nat) : Bool :=
  s.reductions.any fun x => TerminalSet.has x.2 code

/-- Whether a terminal calls for a replacement in the state with a number. -/
def replacesAt (states : List (List State)) (code index : Nat) : Bool :=
  match member? states index with
  | none => false
  | some s => s.replacesUnder code

/-- The left sides of what is replaced in states where the end of the input does not call for it. -/
def Grammar.partialLefts (g : Grammar) (states : List State) : Nat :=
  let productions := blocks g.productions
  states |> unionOf fun s =>
    if s.replacesUnder g.endMark then 0
    else s.reductions |> unionOf fun x =>
      match member? productions x.1 with
      | none => 0
      | some p => if Nat.beq x.2 0 then 0 else 1 <<< p.left

namespace Repetition

variable (r : Repetition)

/-- Whether a production is inside of elements. -/
def encloses (p : Production) : Bool :=
  p.right.all (fun symbol => !r.outer.contains symbol) && !Nat.beq p.left r.start &&
    !Nat.beq p.left r.list

/-- Whether a state replaces what it has to. -/
def allowsReductions (productions : List (List Production)) (index : Nat) (s : State) : Bool :=
  if Nat.beq index 0 then s.reductions == [(r.empty, TerminalSet.single r.endMark)]
  else if Nat.beq index r.again then s.reductions == [(r.filled, TerminalSet.single r.endMark)]
  else if Nat.beq index r.first then s.reductions == [(r.one, r.starts)]
  else if Nat.beq index r.further then s.reductions == [(r.more, r.starts)]
  else if Nat.beq index r.done then s.reductions.isEmpty
  else s.reductions.all fun x => Nat.beq x.2 0 ||
    match member? productions x.1 with
    | none => false
    | some p => r.encloses p

/-- Whether a state in which an element is whole takes whatever may come next for its end. -/
def allowsEnd (index : Nat) (s : State) : Bool :=
  !s.replacesUnder r.endMark || Nat.beq s.row.accepted r.starts &&
    (Nat.beq index 0 || Nat.beq index r.again ||
      match s.reductions with
      | [x] => Nat.beq x.2 r.starts
      | _ => false)

/-- Whether an edge leads where it may. -/
def allowsEdge (states : List (List State)) (partials index : Nat) (symbol : Symbol)
    (target : Nat) : Bool :=
  (if r.outer.contains symbol then
      !(symbol == .nonterminal r.element) || r.outside.contains index
    else !r.outside.contains target) &&
  match symbol with
  | .terminal _ => true
  | .nonterminal code => !partials.testBit code || !replacesAt states r.endMark target

/-- Whether a state is as it has to be. -/
def allows (productions : List (List Production)) (states : List (List State))
    (partials index : Nat) (s : State) : Bool :=
  r.allowsReductions productions index s && r.allowsEnd index s &&
    s.edges.all fun (symbol, target) => r.allowsEdge states partials index symbol target

/-- Whether what is inside of elements leads from one state where it leads from another. -/
def leadsAlike (s s' : State) : Bool :=
  s.edges.all fun (symbol, target) =>
    r.outer.contains symbol || s'.edges.lookup symbol == some target

/-- Whether the first state and the one after a list lead where they have to. -/
def begins (states : List State) : Bool :=
  (states[r.first]?).isSome && (states[r.further]?).isSome &&
  match states[0]?, states[r.again]? with
  | some s, some s' =>
    s.edges.lookup (.nonterminal r.start) == some r.done &&
      s.edges.lookup (.nonterminal r.list) == some r.again &&
      s.edges.lookup (.nonterminal r.element) == some r.first &&
      s'.edges.lookup (.nonterminal r.element) == some r.further &&
      r.leadsAlike s s' && r.leadsAlike s' s
  | _, _ => false

/-- Whether the productions are those of a list. -/
def describes (g : Grammar) : Bool :=
  Nat.beq g.start r.start && Nat.beq g.endMark r.endMark &&
    g.productions[r.empty]? == some ⟨r.start, []⟩ &&
    g.productions[r.filled]? == some ⟨r.start, [.nonterminal r.list]⟩ &&
    g.productions[r.one]? == some ⟨r.list, [.nonterminal r.element]⟩ &&
    g.productions[r.more]? == some ⟨r.list, [.nonterminal r.list, .nonterminal r.element]⟩

end Repetition

/-- Whether the states of a grammar repeat elements. -/
def Grammar.repeats (g : Grammar) (states : List State) (r : Repetition) : Bool :=
  let productions := blocks g.productions
  let byBlock := blocks states
  let partials := g.partialLefts states
  r.describes g && r.begins states && TerminalSet.has r.starts r.endMark &&
    decide r.outside.Nodup && states.zipIdx.all fun (s, index) =>
      r.allows productions byBlock partials index s

/-! ### What the check is good for -/

namespace Table.MadeOf

variable {table : Table} {g : Grammar} {states : List State}

/-- The state in which a terminal calls for a replacement, and the replacement. -/
theorem exists_of_reduction? (made : table.MadeOf g states) {state terminal number : Nat}
    (h : table.reduction? state terminal = some number) :
    ∃ s, states[state]? = some s ∧ ∃ set, (number, set) ∈ s.reductions ∧
      TerminalSet.has set terminal = true := by
  cases hs : states[state]? with
  | none => simp [Table.reduction?, made.rows, hs] at h
  | some s =>
    rw [made.reduction? hs, Option.map_eq_some_iff] at h
    obtain ⟨⟨number', set⟩, found, rfl⟩ := h
    exact ⟨s, rfl, set, List.mem_of_find?_eq_some found, by simpa using List.find?_some found⟩

theorem reduction?_ne_none_iff (made : table.MadeOf g states) (state : Nat) {terminal : Nat} :
    table.reduction? state terminal ≠ none ↔ replacesAt (blocks states) terminal state = true := by
  rw [replacesAt, member?_blocks]
  cases hs : states[state]? with
  | none => simp [Table.reduction?, made.rows, hs]
  | some s =>
    rw [made.reduction? hs, ne_eq, Option.map_eq_none_iff, List.find?_eq_none]
    simp [State.replacesUnder]

/-- The replacement of a state that has only one. -/
theorem reduction?_of_singleton (made : table.MadeOf g states) {state number : Nat} {s : State}
    {set : TerminalSet} (hs : states[state]? = some s) (single : s.reductions = [(number, set)])
    (terminal : Nat) :
    table.reduction? state terminal = if set.has terminal then some number else none := by
  rw [made.reduction? hs, single, List.find?_singleton]
  split <;> rfl

theorem acceptedIn (made : table.MadeOf g states) {state : Nat} {s : State}
    (hs : states[state]? = some s) : table.acceptedIn state = s.row.accepted := by
  rw [Table.acceptedIn, made.row hs]
  rfl

end Table.MadeOf

namespace Repetition

variable {r : Repetition} {g : Grammar} {states : List State}

theorem goto?_eq_of_leadsAlike {table : Table} (made : table.MadeOf g states) {state state' : Nat}
    {s s' : State} (hs : states[state]? = some s) (hs' : states[state']? = some s')
    (alike : r.leadsAlike s s' = true) (alike' : r.leadsAlike s' s = true) {symbol : Symbol}
    (inner : symbol ∉ r.outer) : table.goto? state' symbol = table.goto? state symbol := by
  have leads {s s' : State} (alike : r.leadsAlike s s' = true) {target : Nat}
      (h : s.edges.lookup symbol = some target) : s'.edges.lookup symbol = some target := by
    obtain ⟨before, after, he, -⟩ := List.lookup_eq_some_iff.mp h
    have edge := List.all_eq_true.mp alike (symbol, target) (by simp [he])
    simpa [inner] using edge
  rw [made.goto? hs, made.goto? hs']
  refine Option.ext fun target => ⟨leads alike', leads alike⟩

/-- What the states that are not inside of an element replace. -/
theorem reductions_of_outside {productions : List (List Production)} (apart : r.outside.Nodup)
    (allowed : ∀ (index : Nat) (s : State), states[index]? = some s →
      r.allowsReductions productions index s = true) :
    (∀ s, states[0]? = some s → s.reductions = [(r.empty, TerminalSet.single r.endMark)]) ∧
      (∀ s, states[r.again]? = some s →
        s.reductions = [(r.filled, TerminalSet.single r.endMark)]) ∧
      (∀ s, states[r.first]? = some s → s.reductions = [(r.one, r.starts)]) ∧
      (∀ s, states[r.further]? = some s → s.reductions = [(r.more, r.starts)]) ∧
      ∀ s, states[r.done]? = some s → s.reductions = [] := by
  simp only [outside, List.nodup_cons, List.mem_cons, List.not_mem_nil, or_false, not_or] at apart
  refine ⟨fun s hs => ?_, fun s hs => ?_, fun s hs => ?_, fun s hs => ?_, fun s hs => ?_⟩ <;>
    have replaced := allowed _ s hs <;>
    simp only [allowsReductions, Nat.beq_eq] at replaced <;> grind

theorem mem_partialLefts {terminal number : Nat} {p : Production} {s : State}
    {set : TerminalSet} (hs : s ∈ states) (unfinished : s.replacesUnder g.endMark = false)
    (mem : (number, set) ∈ s.reductions) (has : TerminalSet.has set terminal = true)
    (hp : g.productions[number]? = some p) :
    (g.partialLefts states).testBit p.left = true := by
  refine testBit_unionOf.mpr ⟨s, hs, ?_⟩
  rw [unfinished, if_neg Bool.false_ne_true]
  refine testBit_unionOf.mpr ⟨_, mem, ?_⟩
  have filled : Nat.beq set 0 = false := by
    rw [← Bool.not_eq_true, Nat.beq_eq]
    rintro rfl
    simp [TerminalSet.has] at has
  simp only [member?_blocks, hp, filled]
  exact testBit_one_shiftLeft.mpr rfl

section

variable {table : Table} (made : table.MadeOf g states) {partials : Nat}
  (checked : ∀ (index : Nat) (s : State), states[index]? = some s →
    r.allows (blocks g.productions) (blocks states) partials index s = true)
include made checked

/-- What the check of the edges says about one of them. -/
theorem allowsEdge_of_goto? {state target : Nat} {symbol : Symbol}
    (h : table.goto? state symbol = some target) :
    r.allowsEdge (blocks states) partials state symbol target = true := by
  obtain ⟨s, hs, lookup⟩ := made.exists_of_goto? h
  obtain ⟨before, after, he, -⟩ := List.lookup_eq_some_iff.mp lookup
  have edges := (Bool.and_eq_true_iff.mp (checked state s hs)).2
  exact List.all_eq_true.mp edges (symbol, target) (by simp [he])

theorem mem_outside_of_goto? {state target : Nat}
    (h : table.goto? state (.nonterminal r.element) = some target) : state ∈ r.outside := by
  have edge := (Bool.and_eq_true_iff.mp (allowsEdge_of_goto? made checked h)).1
  simpa [outer] using edge

theorem not_mem_outside_of_goto? {state target : Nat} {symbol : Symbol} (inner : symbol ∉ r.outer)
    (h : table.goto? state symbol = some target) : target ∉ r.outside := by
  have edge := (Bool.and_eq_true_iff.mp (allowsEdge_of_goto? made checked h)).1
  simpa [inner] using edge

/-- An element is not whole after a replacement that is made while it is not. -/
theorem reduction?_of_partials {before target code : Nat} (partially : partials.testBit code = true)
    (h : table.goto? before (.nonterminal code) = some target) :
    table.reduction? target r.endMark = none := by
  have edge := (Bool.and_eq_true_iff.mp (allowsEdge_of_goto? made checked h)).2
  simp only [partially, Bool.not_true, Bool.false_or, Bool.not_eq_true'] at edge
  by_contra whole
  rw [← ne_eq, made.reduction?_ne_none_iff, edge] at whole
  cases whole

/-- What is replaced inside of an element is inside of it. -/
theorem encloses_of_reduction? {state terminal number : Nat} (inside : state ∉ r.outside)
    (h : table.reduction? state terminal = some number) :
    ∃ p, g.productions[number]? = some p ∧ r.encloses p = true := by
  obtain ⟨s, hs, set, mem, has⟩ := made.exists_of_reduction? h
  have allowed := (Bool.and_eq_true_iff.mp (Bool.and_eq_true_iff.mp (checked state s hs)).1).1
  simp only [outside, List.mem_cons, List.not_mem_nil, or_false, not_or] at inside
  obtain ⟨h₀, h₁, h₂, h₃, h₄⟩ := inside
  rw [allowsReductions] at allowed
  simp only [Nat.beq_eq, h₀, h₁, h₂, h₃, h₄, if_false, List.all_eq_true] at allowed
  rcases Bool.or_eq_true_iff.mp (allowed _ mem) with empty | found
  · have empty : set = 0 := Nat.eq_of_beq_eq_true empty
    rw [empty] at has
    simp [TerminalSet.has] at has
  · split at found
    · cases found
    · rename_i p hp
      exact ⟨p, member?_blocks .. ▸ hp, found⟩

/-- What is replaced where an element is whole is the same for whatever may come next. -/
theorem reduction?_of_whole {state number : Nat} (notFirst : state ≠ 0) (notAgain : state ≠ r.again)
    (h : table.reduction? state r.endMark = some number) (terminal : Nat) :
    table.reduction? state terminal = if r.starts.has terminal then some number else none := by
  obtain ⟨s, hs, set, mem, has⟩ := made.exists_of_reduction? h
  have ends := (Bool.and_eq_true_iff.mp (Bool.and_eq_true_iff.mp (checked state s hs)).1).2
  have whole : s.replacesUnder r.endMark = true := List.any_eq_true.mpr ⟨_, mem, has⟩
  simp only [allowsEnd, whole, Bool.not_true, Bool.false_or, Bool.and_eq_true, Bool.or_eq_true,
    Nat.beq_eq, notFirst, notAgain, false_or] at ends
  obtain ⟨-, single⟩ := ends
  split at single
  · rename_i x only
    rw [only, List.mem_singleton] at mem
    subst mem
    rw [← Nat.eq_of_beq_eq_true single]
    exact made.reduction?_of_singleton hs only terminal
  · cases single

theorem acceptedIn_of_whole {state : Nat} (h : table.reduction? state r.endMark ≠ none) :
    table.acceptedIn state = r.starts := by
  obtain ⟨number, h⟩ := Option.ne_none_iff_exists'.mp h
  obtain ⟨s, hs, set, mem, has⟩ := made.exists_of_reduction? h
  have ends := (Bool.and_eq_true_iff.mp (Bool.and_eq_true_iff.mp (checked state s hs)).1).2
  have whole : s.replacesUnder r.endMark = true := List.any_eq_true.mpr ⟨_, mem, has⟩
  simp only [allowsEnd, whole, Bool.not_true, Bool.false_or, Bool.and_eq_true] at ends
  rw [made.acceptedIn hs]
  exact Nat.eq_of_beq_eq_true ends.1

end

end Repetition

theorem Table.MadeOf.repeats {table : Table} {g : Grammar} {states : List State}
    {r : Repetition} (made : table.MadeOf g states) (h : g.repeats states r = true) :
    table.Repeats r := by
  simp only [Grammar.repeats, Bool.and_eq_true, decide_eq_true_eq] at h
  obtain ⟨⟨⟨⟨describes, begins⟩, starts⟩, apart⟩, each⟩ := h
  have checked (index : Nat) (s : State) (hs : states[index]? = some s) :
      r.allows (blocks g.productions) (blocks states) (g.partialLefts states) index s = true :=
    List.all_eq_true.mp each (s, index) (List.mem_zipIdx_iff_getElem?.mpr hs)
  simp only [Repetition.describes, Bool.and_eq_true, beq_iff_eq, Nat.beq_eq] at describes
  obtain ⟨⟨⟨⟨⟨start, endMark⟩, empty⟩, filled⟩, one⟩, more⟩ := describes
  simp only [Repetition.begins, Bool.and_eq_true, Option.isSome_iff_exists] at begins
  obtain ⟨⟨⟨sFirst, hFirst⟩, ⟨sFurther, hFurther⟩⟩, begins⟩ := begins
  split at begins
  case h_2 => cases begins
  rename_i s sAgain hs hAgain
  simp only [Bool.and_eq_true, beq_iff_eq] at begins
  obtain ⟨⟨⟨⟨⟨gotoStart, gotoList⟩, gotoFirst⟩, gotoFurther⟩, alike⟩, alike'⟩ := begins
  obtain ⟨first, again, afterFirst, afterFurther, last⟩ := Repetition.reductions_of_outside apart
    (fun index s hs => (Bool.and_eq_true_iff.mp (Bool.and_eq_true_iff.mp (checked index s hs)).1).1)
  have single (terminal number : Nat) :
      (if TerminalSet.has (TerminalSet.single r.endMark) terminal then some number else none) =
        if terminal = r.endMark then some number else none := by
    simp only [TerminalSet.has_single, @eq_comm _ terminal]
  exact
    { start := made.start.trans start
      endMark := made.endMark.trans endMark
      empty := (made.production? _).trans empty
      filled := (made.production? _).trans filled
      one := (made.production? _).trans one
      more := (made.production? _).trans more
      goto_start := (made.goto? hs _).trans gotoStart
      goto_list := (made.goto? hs _).trans gotoList
      goto_first := (made.goto? hs _).trans gotoFirst
      goto_further := (made.goto? hAgain _).trans gotoFurther
      goto_again := fun symbol inner =>
        Repetition.goto?_eq_of_leadsAlike made hs hAgain alike alike' inner
      goto_element := fun state target goto => Repetition.mem_outside_of_goto? made checked goto
      goto_inside := fun state symbol inner target goto =>
        Repetition.not_mem_outside_of_goto? made checked inner goto
      goto_partial := fun state terminal number p unfinished calls hp before target goto => by
        obtain ⟨s, hs, set, mem, has⟩ := made.exists_of_reduction? calls
        refine Repetition.reduction?_of_partials made checked
          (Repetition.mem_partialLefts (List.mem_of_getElem? hs) ?_ mem has
            ((made.production? _).symm.trans hp)) goto
        rw [endMark, ← Bool.not_eq_true]
        intro whole
        refine (made.reduction?_ne_none_iff state).mpr ?_ unfinished
        rwa [replacesAt, member?_blocks, hs]
      reduction_empty := fun terminal =>
        (made.reduction?_of_singleton hs (first s hs) terminal).trans (single _ _)
      reduction_filled := fun terminal =>
        (made.reduction?_of_singleton hAgain (again _ hAgain) terminal).trans (single _ _)
      reduction_first := by
        rw [made.reduction?_of_singleton hFirst (afterFirst _ hFirst), if_pos starts]
      reduction_further := by
        rw [made.reduction?_of_singleton hFurther (afterFurther _ hFurther), if_pos starts]
      reduction_done := fun terminal => by
        refine Option.eq_none_iff_forall_ne_some.mpr fun number calls => ?_
        obtain ⟨s, hs, set, mem, -⟩ := made.exists_of_reduction? calls
        rw [last s hs] at mem
        cases mem
      reduction_inside := fun state terminal number inside calls => by
        obtain ⟨p, hp, encloses⟩ := Repetition.encloses_of_reduction? made checked inside calls
        simp only [Repetition.encloses, Bool.and_eq_true, Bool.not_eq_true', ← Bool.not_eq_true,
          Nat.beq_eq, List.all_eq_true, List.contains_iff_mem] at encloses
        exact ⟨p, (made.production? _).trans hp, encloses.1.1, encloses.1.2, encloses.2⟩
      reduction_whole := fun state number notFirst notAgain calls terminal =>
        Repetition.reduction?_of_whole made checked notFirst notAgain calls terminal
      accepted_whole := fun state whole => Repetition.acceptedIn_of_whole made checked whole
      starts_endMark := starts
      outside_nodup := apart }

end WebSpec.ContextFree
