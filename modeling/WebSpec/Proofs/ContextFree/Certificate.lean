import WebSpec.ContextFree.Table
import WebSpec.Proofs.ContextFree.Start

/-!
# Certificates of automata

What the states of an automaton have to be like so that a parser finds every derivation of the
grammar, as a check that can be computed. In each state, for each item that is in it:

* the symbol that comes next leads to a state with the item one place further (`State.advances`);
* if the symbol is a nonterminal, all its productions are in the state as well, with whatever may
  follow the nonterminal here (`State.supports`, `State.predicts`);
* no terminal calls for two different things (`State.isDecided`).

And a parser must not replace forever: `Grammar.isOrdered` and `State.stopsAfterEmpty`.

Lookups in the long lists of states and productions go through `blocks`, which makes the check
quick, and so does `unionOf`, which collects sets once for a whole state.

`Grammar.Complete` says what the check is good for.
-/

namespace WebSpec.ContextFree

/-! ### Lists by blocks -/

section Blocks

variable {α : Type}

/-- A list by blocks: what is left of it from every sixteenth member on. -/
def blocks (xs : List α) : List (List α) :=
  (List.range (xs.length / 16 + 1)).map fun k => xs.drop (16 * k)

/-- A member of a list that is given by its blocks. -/
def member? (bs : List (List α)) (n : Nat) : Option α :=
  match bs[n / 16]? with
  | none => none
  | some xs => xs[n % 16]?

theorem member?_blocks (xs : List α) (n : Nat) : member? (blocks xs) n = xs[n]? := by
  unfold member? blocks
  by_cases hn : n / 16 < xs.length / 16 + 1
  · rw [List.getElem?_map, List.getElem?_range hn, Option.map_some]
    show (xs.drop (16 * (n / 16)))[n % 16]? = xs[n]?
    rw [List.getElem?_drop, Nat.div_add_mod]
  · rw [List.getElem?_eq_none (by simp; omega), List.getElem?_eq_none (by omega)]

end Blocks

/-! ### Unions -/

/-- The union of sets, each a number whose bits are its members. -/
def unionOf {α : Type} (f : α → Nat) (xs : List α) : Nat :=
  xs.foldl (fun set x => set ||| f x) 0

theorem testBit_foldl_or {α : Type} {f : α → Nat} {xs : List α} {start bit : Nat} :
    (xs.foldl (fun set x => set ||| f x) start).testBit bit = true ↔
      start.testBit bit = true ∨ ∃ x ∈ xs, (f x).testBit bit = true := by
  induction xs generalizing start with
  | nil => simp
  | cons x xs ih => simp [ih, Nat.testBit_or, or_assoc]

theorem testBit_unionOf {α : Type} {f : α → Nat} {xs : List α} {bit : Nat} :
    (unionOf f xs).testBit bit = true ↔ ∃ x ∈ xs, (f x).testBit bit = true := by
  simp [unionOf, testBit_foldl_or]

theorem testBit_one_shiftLeft {n bit : Nat} : (1 <<< n).testBit bit = true ↔ n = bit :=
  TerminalSet.has_single

theorem SetFamily.has_get {family width field code : Nat} (hc : code < width) :
    TerminalSet.has (SetFamily.get family width field) code =
      family.testBit (field * width + code) := by
  rw [TerminalSet.has, SetFamily.get, Nat.one_shiftLeft, Nat.testBit_mod_two_pow,
    Nat.testBit_shiftRight]
  simp [hc]

/-! ### Checks on a state -/

namespace State

/-- Whether there is an item of the given production with so many symbols left, and all the given
terminals may follow the production. -/
def hasLead (s : State) (production remaining : Nat) (set : TerminalSet) : Bool :=
  s.items.any fun l =>
    Nat.beq l.item.production production && Nat.beq l.item.rest.length remaining &&
      TerminalSet.isSubset set l.set

/-- Whether the symbol that an item has next leads to the item one place further. -/
def advances (s : State) (states : List (List State)) (l : Lead) : Bool :=
  match l.item.rest with
  | [] => true
  | symbol :: rest =>
    match s.edges.lookup symbol with
    | none => false
    | some target =>
      match member? states target with
      | none => false
      | some next => next.hasLead l.item.production rest.length l.set

/-- Whether sets have no terminal in common with each other or with `seen`. -/
def areDisjoint : TerminalSet → List TerminalSet → Bool
  | _, [] => true
  | seen, set :: rest => TerminalSet.isDisjoint seen set && areDisjoint (seen ||| set) rest

/-- Whether each terminal calls for one thing only. -/
def isDecided (s : State) : Bool :=
  areDisjoint 0 (s.reductions.map Prod.snd) &&
    s.items.all fun l =>
      match l.item.rest with
      | .terminal code :: _ => !TerminalSet.has (unionOf Prod.snd s.reductions) code
      | _ => true

/-- What may follow the nonterminals that come next. -/
def follows (s : State) (starts : StartTable) : SetFamily :=
  s.items |> unionOf fun l =>
    match l.item.rest with
    | .nonterminal code :: rest => starts.first l.set rest <<< (code * starts.width)
    | _ => 0

/-- Whether an item is one of its production, and whatever may follow its left side here may follow
the production if nothing of it has been read. -/
def supports (s : State) (productions : List (List Production)) (starts : StartTable)
    (l : Lead) : Bool :=
  match member? productions l.item.production with
  | none => false
  | some p =>
    Nat.beq p.left l.item.left &&
      p.right.drop (p.right.length - l.item.rest.length) == l.item.rest &&
      (!Nat.beq l.item.rest.length p.right.length ||
        TerminalSet.isSubset (SetFamily.get (s.follows starts) starts.width p.left) l.set)

/-- The numbers of the productions of which nothing has been read. -/
def begun (s : State) (productions : List (List Production)) : Nat :=
  s.items |> unionOf fun l =>
    match member? productions l.item.production with
    | none => 0
    | some p =>
      if Nat.beq l.item.rest.length p.right.length then 1 <<< l.item.production else 0

/-- Whether all productions of the nonterminals that come next are in the state. -/
def predicts (s : State) (productions : List (List Production)) (numbers : List Nat) : Bool :=
  s.items.all fun l =>
    match l.item.rest with
    | .nonterminal code :: _ =>
      match numbers[code]? with
      | none => false
      | some set => Nat.beq (Nat.land set (s.begun productions)) set
    | _ => true

/-- Whether one of the given productions begins in the state. -/
def begins (s : State) (productions : List (List Production)) (numbers : Nat) : Bool :=
  !Nat.beq (Nat.land (s.begun productions) numbers) 0

/-- Whether nothing is replaced after a nonterminal out of `empty`. -/
def stopsAfterEmpty (s : State) (states : List (List State)) (empty : Nat) : Bool :=
  s.edges.all fun (symbol, target) =>
    match symbol with
    | .terminal _ => true
    | .nonterminal code =>
      !empty.testBit code ||
        match member? states target with
        | none => true
        | some next => next.reductions.isEmpty

end State

/-! ### Checks on a grammar -/

namespace Grammar

/-- The numbers of the productions of a nonterminal. -/
def numbersOf (g : Grammar) (left : Nat) : Nat :=
  g.productions.zipIdx |> unionOf fun (p, number) =>
    if Nat.beq p.left left then 1 <<< number else 0

/-- The nonterminals with an empty production. -/
def emptyLefts (g : Grammar) : Nat :=
  g.productions |> unionOf fun p => if p.right.isEmpty then 1 <<< p.left else 0

/-- Whether the numbers of nonterminals grow from the left side of a production to its right side
where that is a nonterminal alone. -/
def isOrdered (g : Grammar) : Bool :=
  Nat.ble g.nonterminalCount g.productions.length &&
    g.productions.all fun p =>
      Nat.blt p.left g.nonterminalCount &&
        match p.right with
        | [.nonterminal code] => Nat.blt p.left code
        | _ => true

/-- Whether the first state expects what the grammar describes and then the end. -/
def startsIn (g : Grammar) (states : List State) : Bool :=
  match states[0]? with
  | none => false
  | some s =>
    s.items.any fun l => l.item.rest == [.nonterminal g.start, .terminal g.endMark]

/-- Whether states are complete for a grammar with the given starts. -/
def isComplete (g : Grammar) (states : List State) (starts : StartTable) : Bool :=
  let byBlock := blocks states
  let productions := blocks g.productions
  let numbers := (List.range g.nonterminalCount).map g.numbersOf
  starts.isClosed g.productions && g.isOrdered && g.startsIn states &&
    states.all fun s =>
      s.isDecided && s.items.all (s.advances byBlock) &&
        s.items.all (s.supports productions starts) && s.predicts productions numbers &&
        s.stopsAfterEmpty byBlock g.emptyLefts

/-- Whether states in which a production of the nonterminal `left` begins accept no terminal of a
set, and only terminals lead to such states. -/
def secludes (g : Grammar) (states : List State) (left : Nat) (set : TerminalSet) : Bool :=
  let byBlock := blocks states
  let productions := blocks g.productions
  states.all fun s =>
    (!s.begins productions (g.numbersOf left) || TerminalSet.isDisjoint s.row.accepted set) &&
      s.edges.all fun (symbol, target) =>
        match symbol with
        | .terminal _ => true
        | .nonterminal _ =>
          match member? byBlock target with
          | none => true
          | some next => !next.begins productions (g.numbersOf left)

end Grammar

/-! ### What the checks are good for -/

namespace State

variable {s : State}

theorem exists_of_hasLead {production remaining : Nat} {set : TerminalSet}
    (h : s.hasLead production remaining set = true) :
    ∃ l ∈ s.items, l.item.production = production ∧ l.item.rest.length = remaining ∧
      ∀ code, set.has code = true → TerminalSet.has l.set code = true := by
  obtain ⟨l, hl, h⟩ := List.any_eq_true.mp h
  simp only [Bool.and_eq_true] at h
  exact ⟨l, hl, Nat.eq_of_beq_eq_true h.1.1, Nat.eq_of_beq_eq_true h.1.2,
    fun code => TerminalSet.has_of_isSubset h.2⟩

theorem exists_of_advances {states : List State} {l : Lead} {symbol : Symbol} {rest : List Symbol}
    (h : s.advances (blocks states) l = true) (hr : l.item.rest = symbol :: rest) :
    ∃ target next, s.edges.lookup symbol = some target ∧ states[target]? = some next ∧
      next.hasLead l.item.production rest.length l.set = true := by
  simp only [advances, hr] at h
  split at h
  · cases h
  · rename_i target lookup
    split at h
    · cases h
    · rename_i next found
      exact ⟨target, next, lookup, member?_blocks .. ▸ found, h⟩

theorem mem_reductions {number : Nat} {set : TerminalSet} :
    (number, set) ∈ s.reductions ↔
      ∃ l ∈ s.items, l.item.rest = [] ∧ l.item.production = number ∧ l.set = set := by
  simp only [reductions, List.mem_filterMap]
  refine exists_congr fun l => and_congr_right fun _ => ?_
  cases l.item.rest <;> simp

theorem find?_of_areDisjoint {reductions : List (Nat × TerminalSet)} {seen : TerminalSet}
    (h : areDisjoint seen (reductions.map Prod.snd) = true) {r : Nat × TerminalSet}
    (hr : r ∈ reductions) {code : Nat} (hc : TerminalSet.has r.2 code = true) :
    TerminalSet.has seen code = false ∧
      reductions.find? (fun r => TerminalSet.has r.2 code) = some r := by
  induction reductions generalizing seen with
  | nil => cases hr
  | cons first rest ih =>
    obtain ⟨disjoint, others⟩ := Bool.and_eq_true_iff.mp h
    rcases List.mem_cons.mp hr with rfl | hr
    · refine ⟨?_, by rw [List.find?_cons, hc]⟩
      by_contra hs
      rw [Bool.not_eq_false] at hs
      rw [TerminalSet.not_has_of_isDisjoint disjoint hs] at hc
      cases hc
    · obtain ⟨unseen, found⟩ := ih others hr
      rw [← Bool.not_eq_true, TerminalSet.has_or, not_or, Bool.not_eq_true,
        Bool.not_eq_true] at unseen
      exact ⟨unseen.1, by rw [List.find?_cons, unseen.2]; exact found⟩

theorem find?_of_isDecided (h : s.isDecided = true) {l : Lead} (hl : l ∈ s.items)
    (hr : l.item.rest = []) {code : Nat} (hc : TerminalSet.has l.set code = true) :
    s.reductions.find? (fun r => TerminalSet.has r.2 code) =
      some (l.item.production, l.set) :=
  (find?_of_areDisjoint (Bool.and_eq_true_iff.mp h).1
    (mem_reductions.mpr ⟨l, hl, hr, rfl, rfl⟩) hc).2

theorem find?_eq_none_of_isDecided (h : s.isDecided = true) {l : Lead} (hl : l ∈ s.items)
    {code : Nat} {rest : List Symbol} (hr : l.item.rest = .terminal code :: rest) :
    s.reductions.find? (fun r => TerminalSet.has r.2 code) = none := by
  have unreplaced := List.all_eq_true.mp (Bool.and_eq_true_iff.mp h).2 l hl
  simp only [hr, Bool.not_eq_true'] at unreplaced
  rw [List.find?_eq_none]
  intro r hmem hc
  have inUnion : (unionOf Prod.snd s.reductions).testBit code = true :=
    testBit_unionOf.mpr ⟨r, hmem, hc⟩
  rw [show (unionOf Prod.snd s.reductions).testBit code = false from unreplaced] at inUnion
  cases inUnion

theorem follows_has {starts : StartTable} {l : Lead} (hl : l ∈ s.items) {next : Nat}
    {rest : List Symbol} (hr : l.item.rest = .nonterminal next :: rest) {code : Nat}
    (hw : code < starts.width) (hc : TerminalSet.has (starts.first l.set rest) code = true) :
    TerminalSet.has (SetFamily.get (s.follows starts) starts.width next) code = true := by
  rw [SetFamily.has_get hw]
  refine testBit_unionOf.mpr ⟨l, hl, ?_⟩
  simp only [hr, Nat.testBit_shiftLeft]
  simpa [TerminalSet.has] using hc

/-- What an item in a supported state is. -/
theorem supports_spec {productions : List Production} {starts : StartTable} {l : Lead}
    (h : s.supports (blocks productions) starts l = true) :
    ∃ p, productions[l.item.production]? = some p ∧ p.left = l.item.left ∧
      p.right.drop (p.right.length - l.item.rest.length) = l.item.rest ∧
      (l.item.rest.length = p.right.length → ∀ code,
        TerminalSet.has (SetFamily.get (s.follows starts) starts.width p.left) code = true →
          TerminalSet.has l.set code = true) := by
  unfold supports at h
  split at h
  · cases h
  · rename_i p found
    simp only [Bool.and_eq_true, beq_iff_eq, Bool.or_eq_true, Bool.not_eq_true'] at h
    refine ⟨p, member?_blocks .. ▸ found, Nat.eq_of_beq_eq_true h.1.1, h.1.2, fun same code => ?_⟩
    rcases h.2 with differs | subset
    · rw [same, Nat.beq_refl] at differs
      cases differs
    · exact TerminalSet.has_of_isSubset subset

theorem exists_of_begun {productions : List Production} {number : Nat}
    (h : (s.begun (blocks productions)).testBit number = true) :
    ∃ l ∈ s.items, ∃ p, productions[number]? = some p ∧ l.item.production = number ∧
      l.item.rest.length = p.right.length := by
  obtain ⟨l, hl, h⟩ := testBit_unionOf.mp h
  refine ⟨l, hl, ?_⟩
  split at h
  · simp at h
  · rename_i p found
    split at h
    · rename_i length
      obtain rfl := testBit_one_shiftLeft.mp h
      exact ⟨p, member?_blocks .. ▸ found, rfl, Nat.eq_of_beq_eq_true length⟩
    · simp at h

theorem begun_of_predicts {productions : List (List Production)} {numbers : List Nat}
    (h : s.predicts productions numbers = true) {l : Lead} (hl : l ∈ s.items) {next : Nat}
    {rest : List Symbol} (hr : l.item.rest = .nonterminal next :: rest) {set : Nat}
    (hs : numbers[next]? = some set) {number : Nat} (hn : set.testBit number = true) :
    (s.begun productions).testBit number = true := by
  have subset := List.all_eq_true.mp h l hl
  simp only [hr, hs] at subset
  exact TerminalSet.has_of_isSubset subset hn

theorem reductions_eq_nil_of_stopsAfterEmpty {states : List State} {empty : Nat}
    (h : s.stopsAfterEmpty (blocks states) empty = true) {code target : Nat}
    (hc : empty.testBit code = true)
    (hl : s.edges.lookup (.nonterminal code) = some target) {next : State}
    (hn : states[target]? = some next) : next.reductions = [] := by
  obtain ⟨before, after, he, -⟩ := List.lookup_eq_some_iff.mp hl
  have stops := List.all_eq_true.mp h (.nonterminal code, target) (by simp [he])
  simp only [hc, member?_blocks, hn, Bool.not_true, Bool.false_or, List.isEmpty_iff] at stops
  exact stops

end State

namespace Grammar

variable {g : Grammar} {states : List State} {starts : StartTable}

theorem testBit_numbersOf {number : Nat} {p : Production}
    (hp : g.productions[number]? = some p) :
    (g.numbersOf p.left).testBit number = true := by
  refine testBit_unionOf.mpr ⟨(p, number), List.mem_zipIdx_iff_getElem?.mpr hp, ?_⟩
  simp only [Nat.beq_refl, if_true]
  exact testBit_one_shiftLeft.mpr rfl

theorem testBit_emptyLefts {p : Production} (hp : p ∈ g.productions) (hr : p.right = []) :
    g.emptyLefts.testBit p.left = true := by
  refine testBit_unionOf.mpr ⟨p, hp, ?_⟩
  simp only [hr, List.isEmpty_nil, if_true]
  exact testBit_one_shiftLeft.mpr rfl

/-- Replacements make the numbers of nonterminals smaller where they do not shorten a stack. -/
structure Ordered (g : Grammar) : Prop where
  count_le : g.nonterminalCount ≤ g.productions.length
  left_lt : ∀ p ∈ g.productions, p.left < g.nonterminalCount
  left_lt_right : ∀ p ∈ g.productions, ∀ code, p.right = [.nonterminal code] → p.left < code

theorem ordered_of_isOrdered (h : g.isOrdered = true) : g.Ordered := by
  obtain ⟨count, each⟩ := Bool.and_eq_true_iff.mp h
  refine ⟨Nat.le_of_ble_eq_true count, fun p hp => ?_, fun p hp code hr => ?_⟩
  · exact Nat.le_of_ble_eq_true (Bool.and_eq_true_iff.mp (List.all_eq_true.mp each p hp)).1
  · have order := (Bool.and_eq_true_iff.mp (List.all_eq_true.mp each p hp)).2
    simp only [hr] at order
    exact Nat.le_of_ble_eq_true order

/-- States that a parser can go by: it finds every derivation and replaces only finitely often in a
row. -/
structure Complete (g : Grammar) (states : List State) (starts : StartTable) : Prop where
  closed : starts.isClosed g.productions = true
  ordered : g.Ordered
  /-- The first state expects what the grammar describes and then the end. -/
  root : ∃ s, states[0]? = some s ∧
    ∃ l ∈ s.items, l.item.rest = [.nonterminal g.start, .terminal g.endMark]
  advance : ∀ s ∈ states, ∀ l ∈ s.items, ∀ symbol rest, l.item.rest = symbol :: rest →
    ∃ target next, s.edges.lookup symbol = some target ∧ states[target]? = some next ∧
      ∃ l' ∈ next.items, l'.item.production = l.item.production ∧ l'.item.rest = rest ∧
        ∀ code, TerminalSet.has l.set code = true → TerminalSet.has l'.set code = true
  predict : ∀ s ∈ states, ∀ l ∈ s.items, ∀ (p : Production) number rest,
    g.productions[number]? = some p → l.item.rest = .nonterminal p.left :: rest →
    ∃ l' ∈ s.items, l'.item.production = number ∧ l'.item.rest = p.right ∧
      ∀ code < starts.width, TerminalSet.has (starts.first l.set rest) code = true →
        TerminalSet.has l'.set code = true
  keep : ∀ s ∈ states, ∀ l ∈ s.items, ∀ code rest, l.item.rest = .terminal code :: rest →
    s.reductions.find? (fun r => TerminalSet.has r.2 code) = none
  replace : ∀ s ∈ states, ∀ l ∈ s.items, l.item.rest = [] →
    ∀ code, TerminalSet.has l.set code = true →
      s.reductions.find? (fun r => TerminalSet.has r.2 code) =
        some (l.item.production, l.set)
  stop : ∀ s ∈ states, ∀ p ∈ g.productions, p.right = [] → ∀ target next,
    s.edges.lookup (.nonterminal p.left) = some target → states[target]? = some next →
      next.reductions = []

section Supported

variable (supported : ∀ s ∈ states, ∀ l ∈ s.items,
  s.supports (blocks g.productions) starts l = true)
include supported

/-- What is left of the production of an item, by its length. -/
theorem drop_right_of_supported {s : State} (hs : s ∈ states) {l : Lead} (hl : l ∈ s.items)
    {p : Production} (hp : g.productions[l.item.production]? = some p) :
    p.right.drop (p.right.length - l.item.rest.length) = l.item.rest := by
  obtain ⟨p', hp', -, left, -⟩ := State.supports_spec (supported s hs l hl)
  rw [hp] at hp'
  obtain rfl := Option.some.inj hp'
  exact left

/-- An item that advances is in the next state, one place further. -/
theorem exists_advanced {s : State} (hs : s ∈ states) {l : Lead} (hl : l ∈ s.items)
    (h : s.advances (blocks states) l = true) {symbol : Symbol} {rest : List Symbol}
    (hr : l.item.rest = symbol :: rest) :
    ∃ target next, s.edges.lookup symbol = some target ∧ states[target]? = some next ∧
      ∃ l' ∈ next.items, l'.item.production = l.item.production ∧ l'.item.rest = rest ∧
        ∀ code, TerminalSet.has l.set code = true → TerminalSet.has l'.set code = true := by
  obtain ⟨target, next, lookup, found, lead⟩ := State.exists_of_advances h hr
  obtain ⟨l', hl', production, length, more⟩ := State.exists_of_hasLead lead
  refine ⟨target, next, lookup, found, l', hl', production, ?_, more⟩
  -- Both items end their production, and the lengths of the two ends differ by one.
  obtain ⟨p, hp, -⟩ := State.supports_spec (supported s hs l hl)
  have left := drop_right_of_supported supported hs hl hp
  have left' := drop_right_of_supported supported (List.mem_of_getElem? found) hl'
    (production ▸ hp)
  rw [hr, List.length_cons] at left
  have bound := congrArg List.length left
  rw [List.length_drop, List.length_cons] at bound
  have before : p.right.length - rest.length = p.right.length - (rest.length + 1) + 1 := by omega
  rw [← left', length, before, ← List.drop_drop, left, List.drop_one, List.tail_cons]

/-- The productions of the nonterminal that an item has next begin in its state. -/
theorem exists_predicted {s : State} (hs : s ∈ states) {l : Lead} (hl : l ∈ s.items)
    (h : s.predicts (blocks g.productions) ((List.range g.nonterminalCount).map g.numbersOf) = true)
    {p : Production} (bound : p.left < g.nonterminalCount) {number : Nat} {rest : List Symbol}
    (hp : g.productions[number]? = some p) (hr : l.item.rest = .nonterminal p.left :: rest) :
    ∃ l' ∈ s.items, l'.item.production = number ∧ l'.item.rest = p.right ∧
      ∀ code < starts.width, TerminalSet.has (starts.first l.set rest) code = true →
        TerminalSet.has l'.set code = true := by
  have known : ((List.range g.nonterminalCount).map g.numbersOf)[p.left]? =
      some (g.numbersOf p.left) := by
    rw [List.getElem?_map, List.getElem?_range bound, Option.map_some]
  obtain ⟨l', hl', p', hp', production, length⟩ := State.exists_of_begun
    (State.begun_of_predicts h hl hr known (testBit_numbersOf hp))
  rw [hp] at hp'
  obtain rfl := Option.some.inj hp'
  obtain ⟨p', hp', -, left, more⟩ := State.supports_spec (supported s hs l' hl')
  rw [production, hp] at hp'
  obtain rfl := Option.some.inj hp'
  refine ⟨l', hl', production, ?_, fun code hw hc =>
    more length code (State.follows_has hl hr hw hc)⟩
  rw [← left, length, Nat.sub_self, List.drop_zero]

end Supported

theorem exists_root (h : g.startsIn states = true) :
    ∃ s, states[0]? = some s ∧
      ∃ l ∈ s.items, l.item.rest = [.nonterminal g.start, .terminal g.endMark] := by
  unfold startsIn at h
  split at h
  · cases h
  · rename_i s first
    obtain ⟨l, hl, hr⟩ := List.any_eq_true.mp h
    exact ⟨s, first, l, hl, eq_of_beq hr⟩

theorem complete_of_isComplete (h : g.isComplete states starts = true) :
    g.Complete states starts := by
  simp only [isComplete, Bool.and_eq_true] at h
  obtain ⟨⟨⟨closed, ordered⟩, root⟩, each⟩ := h
  have ordered := ordered_of_isOrdered ordered
  have each := List.all_eq_true.mp each
  simp only [Bool.and_eq_true, List.all_eq_true] at each
  have supported : ∀ s ∈ states, ∀ l ∈ s.items,
      s.supports (blocks g.productions) starts l = true := fun s hs => (each s hs).1.1.2
  exact
    { closed
      ordered
      root := exists_root root
      advance := fun s hs l hl _ _ hr =>
        exists_advanced supported hs hl ((each s hs).1.1.1.2 l hl) hr
      predict := fun s hs l hl p _ _ hp hr =>
        exists_predicted supported hs hl (each s hs).1.2
          (ordered.left_lt p (List.mem_of_getElem? hp)) hp hr
      keep := fun s hs _ hl _ _ hr => State.find?_eq_none_of_isDecided (each s hs).1.1.1.1 hl hr
      replace := fun s hs _ hl hr _ hc => State.find?_of_isDecided (each s hs).1.1.1.1 hl hr hc
      stop := fun s hs _ hp hr _ _ ht hn =>
        State.reductions_eq_nil_of_stopsAfterEmpty (each s hs).2 (testBit_emptyLefts hp hr) ht hn }

/-! ### Secluded nonterminals -/

/-- The state has an item of the nonterminal `left` of which nothing has been read. -/
def Begins (g : Grammar) (left : Nat) (s : State) : Prop :=
  ∃ l ∈ s.items, ∃ p, g.productions[l.item.production]? = some p ∧ p.left = left ∧
    l.item.rest.length = p.right.length

theorem Begins.begins {left : Nat} {s : State} (h : g.Begins left s) :
    s.begins (blocks g.productions) (g.numbersOf left) = true := by
  obtain ⟨l, hl, p, hp, rfl, length⟩ := h
  have begun : (s.begun (blocks g.productions)).testBit l.item.production = true := by
    refine testBit_unionOf.mpr ⟨l, hl, ?_⟩
    simp only [member?_blocks, hp, length, Nat.beq_refl, if_true]
    exact testBit_one_shiftLeft.mpr rfl
  have both : (s.begun (blocks g.productions) &&& g.numbersOf p.left).testBit
      l.item.production = true := by
    rw [Nat.testBit_and, begun, testBit_numbersOf hp]
    rfl
  rw [State.begins, Bool.not_eq_true', ← Bool.not_eq_true]
  intro apart
  have empty : s.begun (blocks g.productions) &&& g.numbersOf p.left = 0 :=
    Nat.eq_of_beq_eq_true apart
  rw [empty, Nat.zero_testBit] at both
  cases both

theorem accepted_of_secludes {left : Nat} {set : TerminalSet}
    (h : g.secludes states left set = true) {s : State} (hs : s ∈ states)
    (begins : g.Begins left s) {code : Nat} (hc : set.has code = true) :
    TerminalSet.has s.row.accepted code = false := by
  have disjoint := (Bool.and_eq_true_iff.mp (List.all_eq_true.mp h s hs)).1
  rw [begins.begins, Bool.not_true, Bool.false_or] at disjoint
  rw [← Bool.not_eq_true]
  intro accepted
  rw [TerminalSet.not_has_of_isDisjoint disjoint accepted] at hc
  cases hc

theorem lookup_ne_of_secludes {left : Nat} {set : TerminalSet}
    (h : g.secludes states left set = true) {s next : State} (hs : s ∈ states) {target : Nat}
    (hn : states[target]? = some next) (begins : g.Begins left next) (code : Nat) :
    s.edges.lookup (.nonterminal code) ≠ some target := by
  intro lookup
  obtain ⟨before, after, he, -⟩ := List.lookup_eq_some_iff.mp lookup
  have plain := List.all_eq_true.mp (Bool.and_eq_true_iff.mp (List.all_eq_true.mp h s hs)).2
    (.nonterminal code, target) (by simp [he])
  simp only [member?_blocks, hn, begins.begins] at plain
  cases plain

end Grammar

end WebSpec.ContextFree
