import WebSpec.Proofs.ContextFree.Acceptance
import WebSpec.Proofs.ContextFree.Frame
import WebSpec.Proofs.ContextFree.RepetitionCheck

/-!
# Checking frames

What makes the table of an automaton read a nonterminal in the same way in two places, as a check
that can be computed from the states: `Grammar.nests`. The places are those that two lists of
terminals lead to (`walk`), the second one by more terminals behind the first one, and behind the
nonterminal in the first place only certain terminals are read (`confines`).
-/

namespace WebSpec.ContextFree

/-! ### The check -/

/-- The state that terminals lead to, where nothing is replaced before any of them. -/
def walk (states : List State) : Nat → List Nat → Option Nat
  | state, [] => some state
  | state, code :: rest =>
    match states[state]? with
    | none => none
    | some s =>
      if s.replacesUnder code then none
      else
        match s.edges.lookup (.terminal code) with
        | none => none
        | some next => walk states next rest

/-- Whether only these terminals are read, one after the other. -/
def confines (states : List State) : Nat → List Nat → Bool
  | _, [] => true
  | state, code :: rest =>
    match states[state]? with
    | none => false
    | some s => s.reductions.isEmpty &&
        match s.edges with
        | [(symbol, next)] => symbol == .terminal code && confines states next rest
        | _ => false

/-- A nonterminal that occurs inside of itself. -/
structure Nesting where
  nonterminal : Nat
  /-- The terminals that lead to a place of it. -/
  path : List Nat
  /-- The last of them, which stands in front of nothing else. -/
  opener : Nat
  /-- The terminals that lead from there to a place inside. -/
  opening : List Nat
  /-- The terminals behind it. -/
  behind : List Nat

/-- Whether everything but one nonterminal leads from one state where it leads from another. -/
def State.leadsAlikeBut (code : Nat) (s s' : State) : Bool :=
  s.edges.all fun (symbol, target) =>
    symbol == .nonterminal code || s'.edges.lookup symbol == some target

/-- Whether the nonterminal is behind every occurrence of a terminal. -/
def holds (opener code : Nat) : List Symbol → Bool
  | [] => true
  | symbol :: rest =>
    (symbol != .terminal opener || rest.head? == some (.nonterminal code)) &&
      holds opener code rest

/-- Whether a nonterminal is read in the same way in both of its places. -/
def Grammar.nests (g : Grammar) (states : List State) (n : Nesting) : Bool :=
  n.path.getLast? == some n.opener && Nat.ble 2 n.path.length &&
  g.productions.all (fun p => holds n.opener n.nonterminal p.right) &&
  match walk states 0 n.path, walk states 0 (n.path ++ n.opening) with
  | some state, some state' =>
    match states[state]?, states[state']? with
    | some s, some s' =>
      s.reductions.isEmpty && s'.reductions.isEmpty && Nat.beq s'.row.accepted s.row.accepted &&
        s.leadsAlikeBut n.nonterminal s' && s'.leadsAlikeBut n.nonterminal s &&
        match s.edges.lookup (.nonterminal n.nonterminal) with
        | some target => !n.behind.isEmpty && confines states target n.behind
        | none => false
    | _, _ => false
  | _, _ => false

/-- Whether a terminal is not accepted behind others. -/
def refuses (states : List State) (path : List Nat) (code : Nat) : Bool :=
  match walk states 0 path with
  | some state =>
    match states[state]? with
    | some s => !TerminalSet.has s.row.accepted code
    | none => false
  | none => false

/-! ### What the check is good for -/

/-- In a state only these terminals are read, one after the other. -/
def Table.Confines (table : Table) : Nat → List Nat → Prop
  | _, [] => True
  | state, code :: rest =>
    (∀ terminal, table.reduction? state terminal = none) ∧
      ∃ next, table.Confines next rest ∧
        ∀ terminal target, table.goto? state (.terminal terminal) = some target →
          terminal = code ∧ target = next

variable {τ : Type} {table : Table} {g : Grammar} {states : List State} {kind : τ → Nat}
  {stack : Stack τ} {tokens : List τ}

namespace Table

namespace Confines

variable {code terminal : Nat} {rest : List Nat}

/-- The next token is of the terminal that comes next. -/
theorem push (h : table.Confines stack.state (code :: rest)) {token : τ} {next : Stack τ}
    (pushed : table.push stack terminal token = some next) :
    terminal = code ∧ table.Confines next.state rest ∧ next.length = stack.length + 1 := by
  obtain ⟨settled, hs, pushed⟩ := Option.bind_eq_some_iff.mp pushed
  obtain ⟨state, goto, pushed⟩ := Option.bind_eq_some_iff.mp pushed
  obtain rfl := Option.some.inj pushed
  obtain rfl := Option.some.inj ((settle_eq_self (h.1 terminal)).symm.trans hs)
  obtain ⟨-, next, others, only⟩ := h
  obtain ⟨rfl, rfl⟩ := only terminal state goto
  exact ⟨rfl, others, rfl⟩

/-- The input does not end there. -/
theorem finish (h : table.Confines stack.state (code :: rest)) (deep : 2 ≤ stack.length) :
    table.finish stack = none := by
  obtain _ | ⟨first, _ | ⟨second, others⟩⟩ := stack
  · simp at deep
  · simp at deep
  · rw [Table.finish, settle_eq_self (h.1 _)]
    rfl

end Confines

section

variable (made : table.MadeOf g states)
include made

theorem MadeOf.reduction?_eq_none {state code : Nat} {s : State} (hs : states[state]? = some s)
    (h : s.replacesUnder code = false) : table.reduction? state code = none := by
  have none : s.reductions.find? (fun r => TerminalSet.has r.2 code) = none := by
    simpa [State.replacesUnder] using h
  rw [made.reduction? hs, none]
  rfl

theorem MadeOf.confines {state : Nat} {behind : List Nat}
    (h : confines states state behind = true) : table.Confines state behind := by
  induction behind generalizing state with
  | nil => trivial
  | cons code rest ih =>
    rw [ContextFree.confines] at h
    split at h
    · cases h
    · rename_i s hs
      obtain ⟨none, h⟩ := Bool.and_eq_true_iff.mp h
      split at h
      · rename_i symbol next edges
        obtain ⟨same, others⟩ := Bool.and_eq_true_iff.mp h
        obtain rfl := eq_of_beq same
        refine ⟨fun terminal => made.reduction?_eq_none hs ?_, next, ih others,
          fun terminal target goto => ?_⟩
        · rw [State.replacesUnder, List.isEmpty_iff.mp none]
          rfl
        · rw [made.goto? hs, edges] at goto
          obtain ⟨before, after, split, -⟩ := List.lookup_eq_some_iff.mp goto
          have mem : (Symbol.terminal terminal, target) ∈ [(Symbol.terminal code, next)] := by
            simp [split]
          simpa using mem
      · cases h

/-- Tokens of the terminals go onto the stack, one after the other. -/
theorem MadeOf.pushAll (stack : Stack τ) {state : Nat}
    (h : walk states stack.state (tokens.map kind) = some state) :
    ∃ stack', table.pushAll kind stack tokens = some stack' ∧ stack'.state = state ∧
      stack'.map Entry.symbol =
        (tokens.map fun token => .terminal (kind token)).reverse ++ stack.map Entry.symbol := by
  induction tokens generalizing stack with
  | nil => exact ⟨stack, rfl, Option.some.inj h, rfl⟩
  | cons token rest ih =>
    rw [List.map_cons, walk] at h
    split at h
    · cases h
    · rename_i s hs
      split_ifs at h with replaces
      split at h
      · cases h
      · rename_i next lookup
        have done : table.reduction? stack.state (kind token) = none :=
          made.reduction?_eq_none hs (by simpa using replaces)
        have goto : table.goto? stack.state (.terminal (kind token)) = some next := by
          rw [made.goto? hs, lookup]
        have pushed : table.push stack (kind token) token =
            some (⟨next, .terminal (kind token), .leaf token⟩ :: stack) := by
          rw [Table.push, settle_eq_self done]
          simp only [Option.bind_eq_bind, Option.bind_some, goto, Option.pure_def]
        obtain ⟨stack', all, reached, symbols⟩ :=
          @ih (⟨next, .terminal (kind token), .leaf token⟩ :: stack) h
        exact ⟨stack', by rw [pushAll_cons, pushed, Option.bind_some, all], reached,
          by simpa using symbols⟩

/-- Tokens behind which a terminal is not accepted. -/
theorem MadeOf.exists_refusal {code : Nat} (h : refuses states (tokens.map kind) code = true) :
    ∃ stack, table.pushAll kind [] tokens = some stack ∧
      (table.accepted stack).has code = false := by
  rw [refuses] at h
  split at h
  · rename_i state walked
    split at h
    · rename_i s hs
      obtain ⟨stack, pushed, rfl, -⟩ := made.pushAll [] walked
      exact ⟨stack, pushed, by simpa [made.accepted hs] using h⟩
    · cases h
  · cases h

end

end Table

/-- Behind every occurrence of a terminal in a right side there is the nonterminal. -/
theorem head?_of_holds {opener code : Nat} {right before after : List Symbol}
    (h : holds opener code right = true) (hr : right = before ++ .terminal opener :: after) :
    after.head? = some (.nonterminal code) := by
  induction before generalizing right with
  | nil =>
    subst hr
    simpa using (Bool.and_eq_true_iff.mp h).1
  | cons symbol before ih =>
    subst hr
    exact ih (Bool.and_eq_true_iff.mp h).2 rfl

theorem lookup_of_leadsAlikeBut {code : Nat} {s s' : State} (h : s.leadsAlikeBut code s' = true)
    {symbol : Symbol} (other : symbol ≠ .nonterminal code) {target : Nat}
    (hs : s.edges.lookup symbol = some target) : s'.edges.lookup symbol = some target := by
  obtain ⟨before, after, he, -⟩ := List.lookup_eq_some_iff.mp hs
  have edge := List.all_eq_true.mp h (symbol, target) (by simp [he])
  simpa [other] using edge

/-- The tokens that lead to the two places lead to frames on which the nonterminal is read in the
same way. -/
theorem Grammar.exists_frames {n : Nesting} (made : table.MadeOf g states)
    (h : g.nests states n = true) {path opening : List τ}
    (hp : path.map kind = n.path) (ho : opening.map kind = n.opening) :
    ∃ (frame frame' : Stack τ) (target : Nat), table.pushAll kind [] path = some frame ∧
      table.pushAll kind [] (path ++ opening) = some frame' ∧ 2 ≤ frame.length ∧
      table.Reframes n.nonterminal target frame frame' ∧ table.Confines target n.behind := by
  simp only [nests, Bool.and_eq_true, beq_iff_eq, Nat.ble_eq, List.all_eq_true, ← hp, ← ho,
    ← List.map_append] at h
  obtain ⟨⟨⟨last, long⟩, held⟩, h⟩ := h
  split at h
  case h_2 => cases h
  rename_i state state' walked walked'
  split at h
  case h_2 => cases h
  rename_i s s' hs hs'
  simp only [Bool.and_eq_true, List.isEmpty_iff, Nat.beq_eq] at h
  obtain ⟨⟨⟨⟨⟨fresh, fresh'⟩, accepted⟩, alike⟩, alike'⟩, h⟩ := h
  split at h
  case h_2 => cases h
  rename_i target lookup
  obtain ⟨more, confined⟩ := Bool.and_eq_true_iff.mp h
  obtain ⟨frame, pushed, rfl, symbols⟩ := made.pushAll [] walked
  obtain ⟨frame', pushed', rfl, -⟩ := made.pushAll [] walked'
  have settled {s : State} {state : Nat} (hs : states[state]? = some s) (empty : s.reductions = [])
      (terminal : Nat) : table.reduction? state terminal = none :=
    made.reduction?_eq_none hs (by rw [State.replacesUnder, empty]; rfl)
  refine ⟨frame, frame', target, pushed, pushed', ?_, ?_, made.confines confined⟩
  · have length := congrArg List.length symbols
    simp only [List.length_map, List.map_nil, List.append_nil, List.length_reverse] at length long
    omega
  · refine ⟨?_, ?_, fun symbol other => Option.ext fun target => ?_, settled hs fresh,
      settled hs' fresh', ?_, ?_⟩
    · rw [made.accepted hs, made.accepted hs', accepted]
    · rw [made.goto? hs, lookup]
    · rw [made.goto? hs, made.goto? hs']
      exact ⟨lookup_of_leadsAlikeBut alike' other, lookup_of_leadsAlikeBut alike other⟩
    · cases hb : n.behind with
      | nil => simp [hb] at more
      | cons code rest =>
        have confines := made.confines confined
        rw [hb] at confines
        exact confines.1
    · have filled : path ≠ [] := by
        rintro rfl
        simp at long
      obtain ⟨before, token, rfl⟩ : ∃ before token, path = before ++ [token] :=
        ⟨_, _, (List.dropLast_concat_getLast filled).symm⟩
      have opener : kind token = n.opener := by simpa using last
      simp only [List.map_append, List.map_cons, List.map_nil, List.reverse_append,
        List.reverse_cons, List.reverse_nil, List.nil_append, List.cons_append,
        List.append_nil] at symbols
      obtain ⟨top, below, rfl, top_eq, -⟩ := List.map_eq_cons_iff.mp symbols
      refine ⟨top, below, rfl, fun number p before after hn hr => ?_⟩
      rw [made.production?] at hn
      rw [top_eq, opener] at hr
      exact head?_of_holds (held p (List.mem_of_getElem? hn)) hr

end WebSpec.ContextFree
