import WebSpec.Proofs.ContextFree.Repetition

/-!
# Reading on another frame

While a parser reads what a nonterminal stands for, everything below it on the stack stays as it is:
this is its frame. The parser takes no notice of the frame but for its state, so where a table does
the same in the states of two frames (`Table.Reframes`), it reads the same tokens on both of them.

`Above` relates a stack on the one frame to the stack that the same tokens lead to on the other one.
Each token keeps them related, unless what the nonterminal stands for was whole before it
(`push_above`), and it is whole when the input ends (`finish_above`).
-/

namespace WebSpec.ContextFree

open Relation

variable {τ : Type} {table : Table} {code target : Nat} {frame frame' stack stack' : Stack τ}

/-- What a parser looks at in an entry. -/
def Entry.shape (entry : Entry τ) : Nat × Symbol :=
  (entry.state, entry.symbol)

/-- On both frames a nonterminal is expected, and the table reads what it stands for in the same
way. -/
structure Table.Reframes (table : Table) (code target : Nat) (frame frame' : Stack τ) : Prop where
  accepted : table.accepted frame' = table.accepted frame
  goto_code : table.goto? frame.state (.nonterminal code) = some target
  goto_other : ∀ symbol ≠ .nonterminal code,
    table.goto? frame'.state symbol = table.goto? frame.state symbol
  /-- Nothing is replaced before the first token, -/
  fresh : ∀ terminal, table.reduction? frame.state terminal = none
  fresh' : ∀ terminal, table.reduction? frame'.state terminal = none
  /-- and nothing when the nonterminal has been read. -/
  whole : ∀ terminal, table.reduction? target terminal = none
  /-- In no right side anything but the nonterminal stands behind the top of the frame. -/
  held : ∃ top below, frame = top :: below ∧ ∀ (number : Nat) (p : Production)
    (before after : List Symbol), table.productions[number]? = some p →
      p.right = before ++ top.symbol :: after → after.head? = some (.nonterminal code)

/-- Stacks on different frames that a parser does not tell apart, where the nonterminal is not
whole. -/
inductive Above (code : Nat) (frame frame' : Stack τ) : Stack τ → Stack τ → Prop where
  | intro {upper upper' : Stack τ} (same : upper'.map Entry.shape = upper.map Entry.shape)
      (inside : ∀ entry ∈ upper.getLast?, entry.symbol ≠ .nonterminal code) :
    Above code frame frame' (upper ++ frame) (upper' ++ frame')

/-- The frame with the whole nonterminal on top. -/
def topWith (code target : Nat) (frame : Stack τ) (tree : ParseTree τ) : Stack τ :=
  ⟨target, .nonterminal code, tree⟩ :: frame

theorem above_frame : Above code frame frame' frame frame' := by
  have empty : Above code frame frame' ([] ++ frame) ([] ++ frame') := .intro rfl (by simp)
  exact empty

/-- A parser is in the same state on both frames, but for the states of the frames. -/
theorem Above.state (h : Above code frame frame' stack stack') :
    stack = frame ∧ stack' = frame' ∨ stack'.state = stack.state := by
  obtain @⟨upper, upper', same, -⟩ := h
  cases upper with
  | nil =>
    obtain rfl := List.map_eq_nil_iff.mp same
    exact .inl ⟨rfl, rfl⟩
  | cons entry upper =>
    obtain ⟨entry', _, rfl, shape, -⟩ := List.map_eq_cons_iff.mp same
    exact .inr (congrArg Prod.fst shape)

/-- A symbol with the same state goes onto both stacks. -/
theorem Above.cons (h : Above code frame frame' stack stack') {entry entry' : Entry τ}
    (shape : entry'.shape = entry.shape)
    (inside : stack = frame → entry.symbol ≠ .nonterminal code) :
    Above code frame frame' (entry :: stack) (entry' :: stack') := by
  obtain @⟨upper, upper', same, bottom⟩ := h
  refine @Above.intro _ code frame frame' (entry :: upper) (entry' :: upper')
    (by simp [same, shape]) fun e he => ?_
  cases upper with
  | nil =>
    obtain rfl : entry = e := by simpa using he
    exact inside rfl
  | cons => exact bottom e (by simpa using he)

namespace Table

/-- A frame is another frame for itself. -/
theorem Reframes.self (frames : table.Reframes code target frame frame') :
    table.Reframes code target frame frame where
  accepted := rfl
  goto_code := frames.goto_code
  goto_other _ _ := rfl
  fresh := frames.fresh
  fresh' := frames.fresh
  whole := frames.whole
  held := frames.held

/-- Where nothing is replaced, the stack is settled. -/
theorem settle_eq_self {terminal : Nat} (h : table.reduction? stack.state terminal = none) :
    table.settle terminal stack = some stack := by
  have fuel : (stack.length + 2) * (table.productions.size + 1) ≠ 0 :=
    Nat.mul_ne_zero (Nat.succ_ne_zero _) (Nat.succ_ne_zero _)
  obtain ⟨n, hn⟩ := Nat.exists_eq_succ_of_ne_zero fuel
  rw [settle, hn, settleWithin]
  simp only [h]

/-- A right side that a parser finds on top of a stack is above the frame. -/
theorem Reframes.le_length (frames : table.Reframes code target frame frame') {upper : Stack τ}
    (filled : upper ≠ [])
    (inside : ∀ entry ∈ upper.getLast?, entry.symbol ≠ .nonterminal code)
    {number : Nat} {p : Production} (hp : table.productions[number]? = some p)
    (symbols : ((upper ++ frame).take p.right.length).reverse.map Entry.symbol = p.right) :
    p.right.length ≤ upper.length := by
  obtain ⟨top, below, rfl, held⟩ := frames.held
  by_contra deep
  obtain ⟨more, hm⟩ : ∃ more, p.right.length = upper.length + (more + 1) :=
    ⟨p.right.length - upper.length - 1, by omega⟩
  rw [hm, List.take_length_add_append, List.take_succ_cons, List.reverse_append, List.map_append,
    List.reverse_cons, List.map_append, List.append_assoc] at symbols
  have behind := held number p _ _ hp symbols.symm
  obtain ⟨lower, lowest, rfl⟩ : ∃ lower lowest, upper = lower ++ [lowest] :=
    ⟨_, _, (List.dropLast_concat_getLast filled).symm⟩
  exact inside lowest (by simp) (by simpa using behind)

/-- It is on top of the other stack as well, and what is below it is related. -/
theorem Reframes.popped (frames : table.Reframes code target frame frame')
    (h : Above code frame frame' stack stack') {terminal number : Nat} {p : Production}
    (calls : table.reduction? stack.state terminal = some number)
    (hp : table.productions[number]? = some p)
    (symbols : (stack.take p.right.length).reverse.map Entry.symbol = p.right) :
    (stack'.take p.right.length).reverse.map Entry.symbol = p.right ∧
      Above code frame frame' (stack.drop p.right.length) (stack'.drop p.right.length) := by
  obtain @⟨upper, upper', same, inside⟩ := h
  have filled : upper ≠ [] := by
    rintro rfl
    rw [List.nil_append, frames.fresh] at calls
    cases calls
  have bound := frames.le_length filled inside hp symbols
  have bound' : p.right.length ≤ upper'.length := by
    have length : upper'.length = upper.length := by simpa using congrArg List.length same
    rwa [length]
  rw [List.take_append_of_le_length bound] at symbols
  rw [List.take_append_of_le_length bound', List.drop_append_of_le_length bound,
    List.drop_append_of_le_length bound']
  constructor
  · have spelled (entries : List (Entry τ)) :
        (entries.take p.right.length).reverse.map Entry.symbol =
          ((entries.map Entry.shape).take p.right.length).reverse.map Prod.snd := by
      simp [← List.map_take, ← List.map_reverse, Function.comp_def, Entry.shape]
    rw [spelled, same, ← spelled, symbols]
  · refine .intro (by rw [List.map_drop, List.map_drop, same]) fun entry he => inside entry ?_
    rw [List.getLast?_drop] at he
    split_ifs at he
    · cases he
    · exact he

/-- A replacement on one frame is made on the other one, or it makes the nonterminal whole. -/
theorem replaces_above (frames : table.Reframes code target frame frame') {terminal : Nat}
    {next : Stack τ} (h : Above code frame frame' stack stack')
    (replaced : table.Replaces terminal stack next) :
    (∃ next', table.Replaces terminal stack' next' ∧ Above code frame frame' next next') ∨
      ∃ tree, next = topWith code target frame tree := by
  obtain ⟨number, calls, reduced⟩ := replaced
  obtain ⟨p, state, hp, symbols, goto, rfl⟩ := reduce_eq_some reduced
  obtain ⟨symbols', rest⟩ := frames.popped h calls hp symbols
  have calls' : table.reduction? stack'.state terminal = some number := by
    rcases h.state with ⟨rfl, rfl⟩ | same
    · rw [frames.fresh] at calls
      cases calls
    · rw [same, calls]
  by_cases whole : stack.drop p.right.length = frame ∧ p.left = code
  · obtain ⟨all, rfl⟩ := whole
    rw [all] at goto ⊢
    rw [frames.goto_code] at goto
    obtain rfl := Option.some.inj goto
    exact .inr ⟨_, rfl⟩
  · left
    have goto' : table.goto? (Stack.state (stack'.drop p.right.length)) (.nonterminal p.left) =
        some state := by
      rcases rest.state with ⟨bottom, bottom'⟩ | same
      · rw [bottom', frames.goto_other _ (by simpa [bottom] using whole), ← bottom, goto]
      · rw [same, goto]
    exact ⟨_, ⟨number, calls', reduce_eq_of state hp symbols' goto'⟩,
      rest.cons rfl fun bottom same => whole ⟨bottom, by simpa using same⟩⟩

theorem replacesAll_above (frames : table.Reframes code target frame frame') {terminal : Nat}
    {settled : Stack τ} (h : Above code frame frame' stack stack')
    (replaced : ReflTransGen (table.Replaces terminal) stack settled) :
    (∃ settled', ReflTransGen (table.Replaces terminal) stack' settled' ∧
      Above code frame frame' settled settled') ∨
      ∃ tree, settled = topWith code target frame tree := by
  induction replaced with
  | refl => exact .inl ⟨stack', .refl, h⟩
  | tail _ last ih =>
    rcases ih with ⟨settled', before, above⟩ | ⟨tree, rfl⟩
    · rcases replaces_above frames above last with ⟨next', step, result⟩ | whole
      · exact .inl ⟨next', before.tail step, result⟩
      · exact .inr whole
    · obtain ⟨number, calls, -⟩ := last
      rw [show Stack.state (topWith code target frame tree) = target from rfl,
        frames.whole] at calls
      cases calls

/-- The first token goes onto both frames. -/
theorem push_frame (frames : table.Reframes code target frame frame') {terminal : Nat} {token : τ}
    {next : Stack τ} (pushed : table.push frame terminal token = some next) (token' : τ) :
    ∃ next', table.push frame' terminal token' = some next' ∧
      Above code frame frame' next next' := by
  obtain ⟨settled, hs, pushed⟩ := Option.bind_eq_some_iff.mp pushed
  obtain ⟨state, goto, pushed⟩ := Option.bind_eq_some_iff.mp pushed
  obtain rfl := Option.some.inj pushed
  obtain rfl := Option.some.inj ((settle_eq_self (frames.fresh terminal)).symm.trans hs)
  refine ⟨⟨state, .terminal terminal, .leaf token'⟩ :: frame', ?_, above_frame.cons rfl (by simp)⟩
  rw [push, settle_eq_self (frames.fresh' terminal)]
  simp only [Option.bind_eq_bind, Option.bind_some,
    frames.goto_other (.terminal terminal) (by simp), goto, Option.pure_def]

/-- The tokens of a stack remain, and its trees are derivations. -/
theorem tokens_of_replaces {terminal : Nat} {settled : Stack τ}
    (replaced : ReflTransGen (table.Replaces terminal) stack settled) :
    settled.tokens = stack.tokens := by
  induction replaced with
  | refl => rfl
  | tail _ last ih =>
    obtain ⟨number, -, reduced⟩ := last
    rw [reduce_tokens reduced, ih]

theorem sound_of_replaces {g : Grammar} {kind : τ → Nat} {terminal : Nat} {settled : Stack τ}
    (same : table.productions = g.productions.toArray) (sound : stack.Sound g kind)
    (replaced : ReflTransGen (table.Replaces terminal) stack settled) :
    settled.Sound g kind := by
  induction replaced with
  | refl => exact sound
  | tail _ last ih =>
    obtain ⟨number, -, reduced⟩ := last
    exact reduce_sound same ih reduced

section

variable {g : Grammar} {states : List State} {starts : StartTable} {kind : τ → Nat}
  (complete : g.Complete states starts) (made : table.MadeOf g states)
include complete made

/-- A token that goes onto a stack goes onto the stacks on other frames, or the nonterminal is whole
and the token goes on top of it. -/
theorem push_above (whole : ∀ terminal, table.reduction? target terminal = none)
    (sound : stack.Sound g kind) {terminal : Nat} {token : τ} {next : Stack τ}
    (pushed : table.push stack terminal token = some next) :
    (∀ {frame' stack' : Stack τ}, table.Reframes code target frame frame' →
      Above code frame frame' stack stack' → ∀ token', ∃ next',
        table.push stack' terminal token' = some next' ∧ Above code frame frame' next next') ∨
      ∃ tree, Derives g kind (.nonterminal code) tree ∧
        stack.tokens = frame.tokens ++ tree.tokens ∧
        table.push (topWith code target frame tree) terminal token = some next := by
  obtain ⟨settled, hs, pushed⟩ := Option.bind_eq_some_iff.mp pushed
  obtain ⟨state, goto, pushed⟩ := Option.bind_eq_some_iff.mp pushed
  obtain rfl := Option.some.inj pushed
  obtain ⟨path, done⟩ := replaces_of_settle hs
  by_cases top : ∃ tree, settled = topWith code target frame tree
  · right
    obtain ⟨tree, rfl⟩ := top
    refine ⟨tree, sound_of_replaces made.productions sound path _ List.mem_cons_self, ?_, ?_⟩
    · rw [← tokens_of_replaces path, topWith, Stack.tokens_cons]
    · have settles : table.settle terminal (topWith code target frame tree) = some _ :=
        settle_eq_self (whole terminal)
      rw [push, settles]
      simp only [Option.bind_eq_bind, Option.bind_some, goto, Option.pure_def]
  · left
    intro frame' stack' frames above token'
    obtain ⟨settled', path', above⟩ := (replacesAll_above frames above path).resolve_right top
    have goto' : table.goto? settled'.state (.terminal terminal) = some state := by
      rcases above.state with ⟨rfl, rfl⟩ | same
      · rw [frames.goto_other _ (by simp), goto]
      · rw [same, goto]
    have done' : table.reduction? settled'.state terminal = none := by
      rcases above.state with ⟨rfl, rfl⟩ | same
      · exact frames.fresh' terminal
      · rw [same, done]
    refine ⟨⟨state, .terminal terminal, .leaf token'⟩ :: settled', ?_, above.cons rfl (by simp)⟩
    rw [push, settle_eq_some complete made path' done']
    simp only [Option.bind_eq_bind, Option.bind_some, goto', Option.pure_def]

end

/-- The input does not end on a frame of at least two entries. -/
theorem finish_above (frames : table.Reframes code target frame frame')
    (h : Above code frame frame' stack stack') (deep : 2 ≤ frame.length) :
    table.finish stack = none := by
  refine Option.eq_none_iff_forall_ne_some.mpr fun tree finished => ?_
  obtain ⟨settled, hs, finished⟩ := Option.bind_eq_some_iff.mp finished
  have long : 2 ≤ settled.length := by
    rcases replacesAll_above frames h (replaces_of_settle hs).1 with ⟨_, -, above⟩ | ⟨_, rfl⟩
    · obtain @⟨upper, _, -, -⟩ := above
      simp only [List.length_append]
      omega
    · simp only [topWith, List.length_cons]
      omega
  split at finished
  · simp at long
  · cases finished

end Table

end WebSpec.ContextFree
