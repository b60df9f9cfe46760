import WebSpec.Proofs.Value.Group

/-!
# Functions and the grammar

`closeFunctions` closes the last function first and finds its end by counting parentheses, while
`symbols` goes from left to right and keeps all that is open. Both agree on which parenthesis ends
which function: `symbols_openedInside`.

`assemble_eq_ok_iff`: what is assembled is what the grammar says. `assemble_eq_combine` says the
same where only parts of the items are known to be in the grammar: these become components, and it
is left to the combinators between them what becomes of the whole.
-/

namespace WebSpec.Value

/-! ### The end of a function -/

/-- A list without function names. -/
def FunctionFree (items : List Item) : Prop := ∀ item ∈ items, ¬ item.isMark .functionStart

theorem FunctionFree.append_iff {items items' : List Item} :
    FunctionFree (items ++ items') ↔ FunctionFree items ∧ FunctionFree items' :=
  List.forall_mem_append

theorem FunctionFree.cons_iff {item : Item} {items : List Item} :
    FunctionFree (item :: items) ↔ ¬ item.isMark .functionStart ∧ FunctionFree items :=
  List.forall_mem_cons

theorem functionFree_multipliers {ms : List Token} (hm : ∀ t ∈ ms, t.isMultiplier) :
    FunctionFree (ms.map .mark) := by
  intro item hi
  obtain ⟨t, ht, rfl⟩ := List.mem_map.mp hi
  have hk : t.kind = .multiplier ∨ t.kind = .multiplierRange := by
    simpa [Token.isMultiplier] using hm t ht
  rcases hk with h | h <;> simp [h]

/-- What `depth` parentheses and a function around them leave open. -/
def openedInside (depth : Nat) (outer : List Opening) : List Opening :=
  List.replicate depth .paren ++ .function :: outer

theorem Item.mark?_eq_some {kind : TokenKind} {item : Item} {t : Token} :
    item.mark? kind = some t ↔ item = .mark t ∧ t.kind = kind := by
  cases item <;> grind [Item.mark?]

theorem Item.resolve_functionStart {item : Item} {t : Token}
    (h : item.mark? .functionStart = some t) (opened : List Opening) :
    item.resolve opened = (.functionStart t.text, .function :: opened) := by
  obtain ⟨rfl, ht⟩ := Item.mark?_eq_some.mp h
  simp [Item.resolve, Token.symbol, ht]

theorem symbols_cons_eq_some {opened : List Opening} {item : Item} {rest : List Item}
    {phrase : List Symbol} :
    symbols opened (item :: rest) = some phrase ↔
      ∃ tail, symbols (item.resolve opened).2 rest = some tail ∧
        phrase = (item.resolve opened).1 :: tail := by
  rw [symbols, Option.map_eq_some_iff]
  exact exists_congr fun _ => and_congr_right fun _ => eq_comm

/-- Counting parentheses finds the end of the function that was opened last, if it has one. -/
theorem symbols_openedInside {items : List Item} (hf : FunctionFree items) (depth : Nat)
    (outer : List Opening) :
    symbols (openedInside depth outer) items =
      (splitAtParenEnd depth items).bind fun (inside, after) =>
        (symbols outer after).map (inside.map Item.symbol ++ .functionEnd :: ·) := by
  induction items generalizing depth with
  | nil => simp [symbols, openedInside, splitAtParenEnd]
  | cons item rest ih =>
    obtain ⟨h, hf⟩ := FunctionFree.cons_iff.mp hf
    -- An item that does not end the function is inside of it, perhaps at another depth.
    have inside (depth' : Nat)
        (hr : item.resolve (openedInside depth outer) = (item.symbol, openedInside depth' outer))
        (hs : splitAtParenEnd depth (item :: rest) =
          (splitAtParenEnd depth' rest).map fun (inside, after) => (item :: inside, after)) :
        symbols (openedInside depth outer) (item :: rest) =
          (splitAtParenEnd depth (item :: rest)).bind fun (inside, after) =>
            (symbols outer after).map (inside.map Item.symbol ++ .functionEnd :: ·) := by
      rw [symbols, hr, hs]
      simp only [ih hf depth']
      cases splitAtParenEnd depth' rest <;> simp [Function.comp_def]
    by_cases hc : item.isMark .parenClose
    · have ho : ¬ item.isMark .parenOpen := by
        obtain ⟨t, rfl, ht⟩ := Item.isMark_iff.mp hc
        simp [ht]
      cases depth with
      | zero => simp [symbols, Item.resolve, openedInside, splitAtParenEnd, h, hc, ho]
      | succ depth =>
        refine inside depth ?_ ?_
        · simp [Item.resolve, openedInside, List.replicate_succ, h, ho, hc]
        · rw [splitAtParenEnd.eq_def]
          simp [hc]
    · by_cases ho : item.isMark .parenOpen
      · refine inside (depth + 1) ?_ ?_
        · simp [Item.resolve, openedInside, List.replicate_succ, h, ho]
        · rw [splitAtParenEnd.eq_def]
          simp [hc, ho]
      · refine inside depth ?_ ?_
        · simp [Item.resolve, h, ho, hc]
        · rw [splitAtParenEnd.eq_def]
          simp [hc, ho]

/-- Where no function is open and none starts, all parentheses are literals. -/
theorem symbols_of_functionFree {items : List Item} (hf : FunctionFree items)
    {opened : List Opening} (ho : .function ∉ opened) :
    symbols opened items = some (items.map Item.symbol) := by
  induction items generalizing opened with
  | nil => simp [symbols, ho]
  | cons item rest ih =>
    obtain ⟨h, hf⟩ := FunctionFree.cons_iff.mp hf
    have : ∃ opened', .function ∉ opened' ∧ item.resolve opened = (item.symbol, opened') := by
      unfold Item.resolve
      split_ifs with hp hc
      · exact ⟨.paren :: opened, by simpa using ho, rfl⟩
      · cases opened with
        | nil => exact ⟨[], by simp, rfl⟩
        | cons o opened =>
          cases o with
          | function => simp at ho
          | paren => exact ⟨opened, by simpa using ho, rfl⟩
      · exact ⟨opened, ho, rfl⟩
    obtain ⟨opened', ho', hr⟩ := this
    simp [symbols, hr, ih hf ho']

theorem Item.resolve_of_isMultiplier {t : Token} (ht : t.isMultiplier) (opened : List Opening) :
    (Item.mark t).resolve opened = (.multiplier t, opened) := by
  have hk : t.kind = .multiplier ∨ t.kind = .multiplierRange := by
    simpa [Token.isMultiplier] using ht
  rcases hk with h | h <;> simp [Item.resolve, h, Token.symbol_of_isMultiplier ht]

theorem Item.eq_of_resolve_multiplier {item : Item} {opened : List Opening} {t : Token}
    (h : (item.resolve opened).1 = .multiplier t) : item = .mark t ∧ t.isMultiplier := by
  unfold Item.resolve at h
  split_ifs at h
  · exact Item.symbol_eq_multiplier.mp h
  · exact Item.symbol_eq_multiplier.mp h
  · split at h
    · cases h
    · exact Item.symbol_eq_multiplier.mp h
  · exact Item.symbol_eq_multiplier.mp h

theorem symbols_multipliers {ms : List Token} (hm : ∀ t ∈ ms, t.isMultiplier)
    (opened : List Opening) (rest : List Item) :
    symbols opened (ms.map .mark ++ rest) =
      (symbols opened rest).map (ms.map .multiplier ++ ·) := by
  induction ms with
  | nil => simp
  | cons t ms ih =>
    obtain ⟨ht, hm⟩ := List.forall_mem_cons.mp hm
    simp [symbols, Item.resolve_of_isMultiplier ht, ih hm, Function.comp_def]

theorem Item.eq_of_resolve_functionStart {item : Item} {opened : List Opening} {name : String}
    (h : (item.resolve opened).1 = .functionStart name) :
    ∃ t, item.mark? .functionStart = some t ∧ t.text = name := by
  have hs : item.symbol = .functionStart name := by
    unfold Item.resolve at h
    split_ifs at h
    · exact h
    · exact h
    · split at h
      · cases h
      · exact h
    · exact h
  cases item with
  | node => cases hs
  | mark t =>
    refine ⟨t, ?_⟩
    grind [Item.mark?, Item.symbol, Token.symbol]

/-! ### Closing functions -/

/-- Without functions there is nothing to close. -/
theorem closeFunctions_of_functionFree {items : List Item} (h : FunctionFree items) :
    closeFunctions items = .ok items := by
  induction items with
  | nil => rfl
  | cons item rest ih =>
    obtain ⟨h, hs⟩ := FunctionFree.cons_iff.mp h
    have hm : item.mark? .functionStart = none := by
      simpa [Item.isMark] using h
    simp [closeFunctions, ih hs, hm, bind, Except.bind, pure, Except.pure]

/-- The arguments of a function whose inside has no functions. -/
def argumentsOf (inside : List Item) : Except Fault Node :=
  if inside.isEmpty then pure (.juxtaposed []) else assembleFlat inside

theorem argumentsOf_eq_ok_iff {inside : List Item} {arguments : Node} :
    argumentsOf inside = .ok arguments ↔
      Derives .arguments (inside.map Item.symbol) [arguments] := by
  cases inside with
  | nil =>
    constructor
    · intro h
      obtain rfl := Except.ok.inj h
      exact .noArguments
    · intro h
      generalize hp : List.map Item.symbol [] = phrase at h
      cases h with
      | noArguments => rfl
      | someArguments h =>
        -- Nothing derives no component.
        rw [← hp, ← assembleFlat_eq_ok_iff] at h
        cases h
  | cons item inside =>
    rw [argumentsOf, if_neg (by simp), assembleFlat_eq_ok_iff]
    constructor
    · exact .someArguments
    · intro h
      cases h with
      | someArguments h => exact h

theorem closeFunction_of_splitAtParenEnd {items inside after : List Item}
    (h : splitAtParenEnd 0 items = some (inside, after)) (name : String) :
    closeFunction name items = argumentsOf inside >>= fun arguments =>
      multiplyAll (.function name arguments false) false (leadingMultipliers after) >>= fun node =>
        pure (.node node :: afterMultipliers after) := by
  unfold closeFunction
  rw [h]
  cases inside <;> rfl

/-- Closing a function makes a component of it. -/
theorem closeFunction_eq_ok_iff {name : String} {items closed : List Item} :
    closeFunction name items = .ok closed ↔
      ∃ inside after arguments node, splitAtParenEnd 0 items = some (inside, after) ∧
        Derives .arguments (inside.map Item.symbol) [arguments] ∧
        multiplyAll (.function name arguments false) false (leadingMultipliers after) = .ok node ∧
        closed = .node node :: afterMultipliers after := by
  constructor
  · intro h
    cases hs : splitAtParenEnd 0 items with
    | none => simp [closeFunction, hs] at h
    | some parts =>
      obtain ⟨inside, after⟩ := parts
      rw [closeFunction_of_splitAtParenEnd hs, bind_eq_ok] at h
      obtain ⟨arguments, ha, h⟩ := h
      obtain ⟨node, hm, h⟩ := bind_eq_ok.mp h
      obtain rfl := Except.ok.inj h
      exact ⟨inside, after, arguments, node, rfl, argumentsOf_eq_ok_iff.mp ha, hm, rfl⟩
  · rintro ⟨inside, after, arguments, node, hs, ha, hm, rfl⟩
    rw [closeFunction_of_splitAtParenEnd hs]
    exact bind_eq_ok.mpr ⟨_, argumentsOf_eq_ok_iff.mpr ha, bind_eq_ok.mpr ⟨node, hm, rfl⟩⟩

theorem splitAtParenEnd_eq_some {depth : Nat} {items inside after : List Item}
    (h : splitAtParenEnd depth items = some (inside, after)) :
    ∃ t, items = inside ++ .mark t :: after := by
  induction items generalizing depth inside with
  | nil => simp [splitAtParenEnd] at h
  | cons item rest ih =>
    have later {depth' : Nat} (h : (splitAtParenEnd depth' rest).map
        (fun (inside, after) => (item :: inside, after)) = some (inside, after)) :
        ∃ t, item :: rest = inside ++ .mark t :: after := by
      obtain ⟨⟨inside', after'⟩, hs, h⟩ := Option.map_eq_some_iff.mp h
      obtain ⟨rfl, rfl⟩ := Prod.mk.inj h
      obtain ⟨t, rfl⟩ := ih hs
      exact ⟨t, rfl⟩
    rw [splitAtParenEnd.eq_def] at h
    simp only at h
    split_ifs at h with hc ho
    · cases depth with
      | zero =>
        obtain ⟨t, rfl, -⟩ := Item.isMark_iff.mp hc
        obtain ⟨rfl, rfl⟩ := Prod.mk.inj (Option.some.inj h)
        exact ⟨t, rfl⟩
      | succ => exact later h
    · exact later h
    · exact later h

theorem functionFree_of_closeFunctions {items closed : List Item}
    (h : closeFunctions items = .ok closed) : FunctionFree closed := by
  induction items generalizing closed with
  | nil =>
    obtain rfl := Except.ok.inj h
    simp [FunctionFree]
  | cons item rest ih =>
    rw [closeFunctions, bind_eq_ok] at h
    obtain ⟨rest', hr, h⟩ := h
    have hf := ih hr
    split at h
    · obtain ⟨inside, after, _, node, hs, -, -, rfl⟩ := closeFunction_eq_ok_iff.mp h
      obtain ⟨t, rfl⟩ := splitAtParenEnd_eq_some hs
      have ha := (FunctionFree.cons_iff.mp (FunctionFree.append_iff.mp hf).2).2
      rw [← leadingMultipliers_append_afterMultipliers after] at ha
      exact FunctionFree.cons_iff.mpr ⟨by simp, (FunctionFree.append_iff.mp ha).2⟩
    · rename_i hm
      obtain rfl := Except.ok.inj h
      exact FunctionFree.cons_iff.mpr ⟨by simp [Item.isMark, hm], hf⟩

/-! ### What is assembled is derived -/

/-- Reading the items before functions are closed gives a phrase that reduces to what they read as
afterwards. -/
theorem covers_of_closeFunctions {items closed : List Item} (h : closeFunctions items = .ok closed)
    {opened : List Opening} {reduced : List Symbol} (hs : symbols opened closed = some reduced) :
    ∃ phrase, symbols opened items = some phrase ∧ Covers phrase reduced := by
  induction items generalizing closed opened reduced with
  | nil =>
    obtain rfl := Except.ok.inj h
    exact ⟨reduced, hs, .refl _⟩
  | cons item rest ih =>
    rw [closeFunctions, bind_eq_ok] at h
    obtain ⟨rest', hr, h⟩ := h
    split at h
    · rename_i t hm
      obtain ⟨inside, after, arguments, node, hsplit, ha, hn, rfl⟩ := closeFunction_eq_ok_iff.mp h
      obtain ⟨tail, ht, rfl⟩ := Option.map_eq_some_iff.mp hs
      have hrest : symbols (openedInside 0 opened) rest' =
          some (inside.map Item.symbol ++ .functionEnd ::
            ((leadingMultipliers after).map .multiplier ++ tail)) := by
        have hafter : symbols opened after =
            some ((leadingMultipliers after).map .multiplier ++ tail) := by
          rw [← leadingMultipliers_append_afterMultipliers after,
            symbols_multipliers fun _ => isMultiplier_of_mem_leadingMultipliers,
            leadingMultipliers_append_afterMultipliers after, ht, Option.map_some]
        rw [symbols_openedInside (functionFree_of_closeFunctions hr), hsplit]
        simp [hafter]
      obtain ⟨p, hp, hc⟩ := ih hr hrest
      refine ⟨.functionStart t.text :: p, ?_, (Covers.keep hc).trans ?_⟩
      · rw [symbols, Item.resolve_functionStart hm]
        exact Option.map_eq_some_iff.mpr ⟨p, hp, rfl⟩
      · simpa using Covers.reduce (.call ha hn) (.refl tail)
    · obtain rfl := Except.ok.inj h
      obtain ⟨q, hq, rfl⟩ := Option.map_eq_some_iff.mp hs
      obtain ⟨p, hp, hc⟩ := ih hr hq
      exact ⟨_, Option.map_eq_some_iff.mpr ⟨p, hp, rfl⟩, .keep hc⟩

/-! ### What is derived is assembled -/

/-- The second phrase is the first one with its functions closed, the last function first. -/
inductive Contracts : List Symbol → List Symbol → Prop where
  | nil : Contracts [] []
  | keep {symbol phrase reduced} (hs : ∀ name, symbol ≠ .functionStart name)
      (h : Contracts phrase reduced) : Contracts (symbol :: phrase) (symbol :: reduced)
  | call {name phrase inside arguments multipliers node after}
      (h : Contracts phrase (inside ++ .functionEnd :: (multipliers.map .multiplier ++ after)))
      (inside_open : .functionEnd ∉ inside)
      (after_leads : ∀ t, after.head? ≠ some (.multiplier t))
      (arguments_derived : Derives .arguments inside [arguments])
      (multiplied : multiplyAll (.function name arguments false) false multipliers = .ok node) :
      Contracts (.functionStart name :: phrase) (.component node :: after)

theorem Contracts.of_multipliers (ms : List Token) :
    Contracts (ms.map .multiplier) (ms.map .multiplier) := by
  induction ms with
  | nil => exact .nil
  | cons t ms ih => exact .keep (by simp) ih

theorem Contracts.append {p q p' q' : List Symbol} (h : Contracts p q) (h' : Contracts p' q')
    (leads : ∀ t, q'.head? ≠ some (.multiplier t)) : Contracts (p ++ p') (q ++ q') := by
  induction h with
  | nil => exact h'
  | keep hs _ ih => exact .keep hs ih
  | @call name _ inside arguments ms node after _ hi ha hd hm ih =>
    simp only [List.append_assoc, List.cons_append] at ih
    refine .call ih hi (fun t => ?_) hd hm
    cases after with
    | nil => exact leads t
    | cons s after => exact ha t

/-- Functions inside of a group are closed there. -/
theorem Contracts.group {inside reduced : List Symbol} (h : Contracts inside reduced)
    (ms : List Token) :
    Contracts (.groupStart :: (inside ++ .groupEnd :: ms.map .multiplier))
      (.groupStart :: (reduced ++ .groupEnd :: ms.map .multiplier)) := by
  have last : Contracts (.groupEnd :: ms.map .multiplier) (.groupEnd :: ms.map .multiplier) :=
    .keep (by simp) (.of_multipliers ms)
  exact .keep (by simp) (h.append last (by simp))

/-- Functions inside of another one are closed before its end. -/
theorem Contracts.arguments {inside reduced : List Symbol} (h : Contracts inside reduced)
    (ms : List Token) :
    Contracts (inside ++ .functionEnd :: ms.map .multiplier)
      (reduced ++ .functionEnd :: (ms.map .multiplier ++ [])) := by
  have last : Contracts (.functionEnd :: ms.map .multiplier)
      (.functionEnd :: (ms.map .multiplier ++ [])) :=
    .keep (by simp) (by rw [List.append_nil]; exact .of_multipliers ms)
  exact h.append last (by simp)

/-- What a phrase becomes when its functions are closed: no function ends in it, and neither it nor
what is before it can take the multipliers of the other. -/
structure ClosesFunctions (phrase reduced : List Symbol) : Prop where
  contracts : Contracts phrase reduced
  leads : ∀ t, reduced.head? ≠ some (.multiplier t)
  closed : .functionEnd ∉ reduced

theorem ClosesFunctions.append {p q p' q' : List Symbol} (h : ClosesFunctions p q)
    (h' : ClosesFunctions p' q') : ClosesFunctions (p ++ p') (q ++ q') where
  contracts := h.contracts.append h'.contracts h'.leads
  leads := by
    cases q with
    | nil => exact h'.leads
    | cons s q => exact h.leads
  closed := by simp [h.closed, h'.closed]

theorem closesFunctions_combinator (c : Combinator) :
    ClosesFunctions [.combinator c] [.combinator c] :=
  ⟨.keep (by simp) .nil, by simp, by simp⟩

/-- Every phrase of the grammar can have its functions closed, and derives the same then. -/
theorem closesFunctions_of_derives {sort : Phrase} {phrase : List Symbol} {nodes : List Node}
    (h : Derives sort phrase nodes) :
    ∃ reduced, ClosesFunctions phrase reduced ∧ Derives sort reduced nodes := by
  induction h with
  | leaf => exact ⟨_, ⟨.keep (by simp) .nil, by simp, by simp⟩, .leaf⟩
  | @paren _ ms _ multiplied =>
    exact ⟨_, ⟨.keep (by simp) (.of_multipliers ms), by simp, by simp⟩, .paren multiplied⟩
  | @group _ _ ms _ _ multiplied ih =>
    obtain ⟨q, hc, hd⟩ := ih
    exact ⟨_, ⟨hc.contracts.group ms, by simp, by simp [hc.closed]⟩, .group hd multiplied⟩
  | @call _ _ _ ms node _ multiplied ih =>
    obtain ⟨q, hc, hd⟩ := ih
    have whole := Contracts.call (hc.contracts.arguments ms) hc.closed (by simp) hd multiplied
    exact ⟨[.component node], ⟨whole, by simp, by simp⟩, .leaf⟩
  | noArguments => exact ⟨_, ⟨.nil, by simp, by simp⟩, .noArguments⟩
  | someArguments _ ih =>
    obtain ⟨q, hc, hd⟩ := ih
    exact ⟨q, hc, .someArguments hd⟩
  | lastComponent _ ih =>
    obtain ⟨q, hc, hd⟩ := ih
    exact ⟨q, hc, .lastComponent hd⟩
  | nextComponent _ _ ih ihs =>
    obtain ⟨q, hc, hd⟩ := ih
    obtain ⟨q', hc', hd'⟩ := ihs
    exact ⟨_, hc.append hc', .nextComponent hd hd'⟩
  | juxtaposition _ ih =>
    obtain ⟨q, hc, hd⟩ := ih
    exact ⟨q, hc, .juxtaposition hd⟩
  | lastOperand _ ih =>
    obtain ⟨q, hc, hd⟩ := ih
    exact ⟨q, hc, .lastOperand hd⟩
  | @nextOperand c _ _ _ _ _ _ _ ih ihs =>
    obtain ⟨q, hc, hd⟩ := ih
    obtain ⟨q', hc', hd'⟩ := ihs
    exact ⟨_, hc.append ((closesFunctions_combinator c).append hc'), .nextOperand hd hd'⟩
  | combination _ ih =>
    obtain ⟨q, hc, hd⟩ := ih
    exact ⟨q, hc, .combination hd⟩

/-- Where a phrase is cut at the first end of a function does not depend on who cuts. -/
theorem append_functionEnd_inj {p p' q q' : List Symbol} (hp : .functionEnd ∉ p)
    (hp' : .functionEnd ∉ p') (h : p ++ .functionEnd :: q = p' ++ .functionEnd :: q') :
    p = p' ∧ q = q' := by
  induction p generalizing p' with
  | nil =>
    cases p' with
    | nil => exact ⟨rfl, (List.cons.inj h).2⟩
    | cons s p' => exact absurd (by rw [(List.cons.inj h).1]; exact List.mem_cons_self) hp'
  | cons s p ih =>
    cases p' with
    | nil => exact absurd (by rw [← (List.cons.inj h).1]; exact List.mem_cons_self) hp
    | cons s' p' =>
      obtain ⟨rfl, h₂⟩ := List.cons.inj h
      obtain ⟨rfl, rfl⟩ := ih (fun m => hp (List.mem_cons_of_mem _ m))
        (fun m => hp' (List.mem_cons_of_mem _ m)) h₂
      exact ⟨rfl, rfl⟩

/-- Reading multipliers and then something else, the items are those multipliers first. -/
theorem symbols_eq_multipliers_append {opened : List Opening} {ms : List Token}
    {tail : List Symbol} (leads : ∀ t, tail.head? ≠ some (.multiplier t)) {items : List Item}
    (h : symbols opened items = some (ms.map .multiplier ++ tail)) :
    leadingMultipliers items = ms ∧ symbols opened (afterMultipliers items) = some tail := by
  induction ms generalizing items with
  | nil =>
    have hl : leadingMultipliers items = [] := by
      cases hi : leadingMultipliers items with
      | nil => rfl
      | cons t ms =>
        have hm : ∀ u ∈ t :: ms, u.isMultiplier := fun u hu =>
          isMultiplier_of_mem_leadingMultipliers (hi ▸ hu)
        rw [← leadingMultipliers_append_afterMultipliers items, hi, symbols_multipliers hm] at h
        obtain ⟨rest, -, h⟩ := Option.map_eq_some_iff.mp h
        exact absurd (congrArg List.head? h.symm) (leads t)
    have ha := leadingMultipliers_append_afterMultipliers items
    rw [hl] at ha
    exact ⟨hl, by rw [show afterMultipliers items = items from ha]; exact h⟩
  | cons t ms ih =>
    cases items with
    | nil => simp [symbols] at h
    | cons item rest =>
      obtain ⟨tail', hr, h'⟩ := symbols_cons_eq_some.mp h
      obtain ⟨hs, rfl⟩ := List.cons.inj h'
      obtain ⟨rfl, ht⟩ := Item.eq_of_resolve_multiplier hs.symm
      rw [Item.resolve_of_isMultiplier ht] at hr
      obtain ⟨hl, ha⟩ := ih hr
      simp only [leadingMultipliers, ht, if_true, hl, afterMultipliers, Item.isMultiplier,
        List.dropWhile_cons_of_pos]
      exact ⟨trivial, ha⟩

/-- A function whose end and arguments are known becomes a component when its multipliers can be
applied. -/
theorem exists_closeFunction_eq {items : List Item} (hf : FunctionFree items)
    {outer : List Opening} {inside after : List Symbol} {ms : List Token} {arguments : Node}
    (hs : symbols (.function :: outer) items =
      some (inside ++ .functionEnd :: (ms.map .multiplier ++ after)))
    (hi : .functionEnd ∉ inside) (leads : ∀ t, after.head? ≠ some (.multiplier t))
    (ha : Derives .arguments inside [arguments]) (name : String) :
    ∃ rest, symbols outer rest = some after ∧ closeFunction name items =
      multiplyAll (.function name arguments false) false ms >>= fun node =>
        pure (.node node :: rest) := by
  -- The end that the phrase has is the one that counting finds.
  rw [show Opening.function :: outer = openedInside 0 outer from rfl,
    symbols_openedInside hf] at hs
  obtain ⟨⟨inside', after'⟩, hsplit, hs⟩ := Option.bind_eq_some_iff.mp hs
  obtain ⟨tail, ht, hs⟩ := Option.map_eq_some_iff.mp hs
  have hopen : .functionEnd ∉ inside'.map Item.symbol := fun hmem => by
    obtain ⟨item, -, h⟩ := List.mem_map.mp hmem
    exact item.symbol_ne_functionEnd h
  obtain ⟨rfl, rfl⟩ := append_functionEnd_inj hopen hi hs
  obtain ⟨hlead, hafter⟩ := symbols_eq_multipliers_append leads ht
  refine ⟨afterMultipliers after', hafter, ?_⟩
  rw [closeFunction_of_splitAtParenEnd hsplit, argumentsOf_eq_ok_iff.mpr ha, hlead]
  rfl

/-- Items that read as a phrase whose functions can be closed have them closed. -/
theorem closeFunctions_of_contracts {phrase reduced : List Symbol} (h : Contracts phrase reduced)
    {opened : List Opening} {items : List Item} (hs : symbols opened items = some phrase) :
    ∃ closed, closeFunctions items = .ok closed ∧ symbols opened closed = some reduced := by
  induction h generalizing opened items with
  | nil =>
    cases items with
    | nil => exact ⟨[], rfl, hs⟩
    | cons item rest =>
      obtain ⟨_, -, h⟩ := symbols_cons_eq_some.mp hs
      cases h
  | @keep symbol phrase reduced hk _ ih =>
    cases items with
    | nil => simp [symbols] at hs
    | cons item rest =>
      obtain ⟨phrase', hr, h⟩ := symbols_cons_eq_some.mp hs
      obtain ⟨hi, rfl⟩ := List.cons.inj h
      obtain ⟨closed, hc, hd⟩ := ih hr
      have hm : item.mark? .functionStart = none := by
        cases hm : item.mark? .functionStart with
        | none => rfl
        | some t =>
          rw [Item.resolve_functionStart hm] at hi
          exact absurd hi (hk t.text)
      refine ⟨item :: closed, ?_, ?_⟩
      · simp [closeFunctions, hc, hm, bind, Except.bind, pure, Except.pure]
      · exact symbols_cons_eq_some.mpr ⟨_, hd, by rw [← hi]⟩
  | @call name phrase inside arguments ms node after _ hi hl ha hn ih =>
    cases items with
    | nil => simp [symbols] at hs
    | cons item rest =>
      obtain ⟨phrase', hr, h⟩ := symbols_cons_eq_some.mp hs
      obtain ⟨hname, rfl⟩ := List.cons.inj h
      obtain ⟨t, hm, rfl⟩ := Item.eq_of_resolve_functionStart hname.symm
      rw [Item.resolve_functionStart hm] at hr
      obtain ⟨rest', hc, hd⟩ := ih hr
      obtain ⟨after', hafter, closes⟩ :=
        exists_closeFunction_eq (functionFree_of_closeFunctions hc) hd hi hl ha t.text
      refine ⟨.node node :: after', ?_, ?_⟩
      · simp only [closeFunctions, hc, hm, closes, hn, bind, Except.bind]
        rfl
      · simp [symbols, Item.resolve, hafter]

/-! ### Assembly -/

/-- Items become a tree exactly when they read as a phrase of the grammar, and it is the tree that
the grammar gives. -/
theorem assemble_eq_ok_iff {items : List Item} {node : Node} :
    assemble items = .ok node ↔
      ∃ phrase, symbols [] items = some phrase ∧
        Derives (.level allCombinators) phrase [node] := by
  rw [assemble, bind_eq_ok]
  constructor
  · rintro ⟨closed, hc, h⟩
    have hs := symbols_of_functionFree (functionFree_of_closeFunctions hc)
      (List.not_mem_nil : Opening.function ∉ [])
    obtain ⟨phrase, hp, hcov⟩ := covers_of_closeFunctions hc hs
    exact ⟨phrase, hp, (assembleFlat_eq_ok_iff.mp h).of_covers hcov⟩
  · rintro ⟨phrase, hp, h⟩
    obtain ⟨reduced, hr, hd⟩ := closesFunctions_of_derives h
    obtain ⟨closed, hc, hs⟩ := closeFunctions_of_contracts hr.contracts hp
    rw [symbols_of_functionFree (functionFree_of_closeFunctions hc) (by simp)] at hs
    obtain rfl := Option.some.inj hs
    exact ⟨closed, hc, assembleFlat_eq_ok_iff.mpr hd⟩

/-! ### Parts on their own -/

/-- Items that read as the phrase become components and combinators, which read as the reduced
one. -/
def Reduces (phrase reduced : List Symbol) : Prop :=
  ∃ contracted, ClosesFunctions phrase contracted ∧
    ∀ items : List Item, items.map Item.symbol = contracted →
      ∃ closed, Flattens items closed ∧ closed.map Item.symbol = reduced

theorem Reduces.nil : Reduces [] [] := by
  refine ⟨[], ⟨.nil, by simp, by simp⟩, fun items hi => ?_⟩
  obtain rfl := List.map_eq_nil_iff.mp hi
  exact ⟨[], .mk rfl rfl rfl rfl rfl, rfl⟩

theorem Reduces.append {p q p' q' : List Symbol} (h : Reduces p q) (h' : Reduces p' q') :
    Reduces (p ++ p') (q ++ q') := by
  obtain ⟨contracted, hc, flattens⟩ := h
  obtain ⟨contracted', hc', flattens'⟩ := h'
  refine ⟨_, hc.append hc', fun items hi => ?_⟩
  obtain ⟨l, l', rfl, hl, hl'⟩ := List.map_eq_append_iff.mp hi
  obtain ⟨closed, hf, rfl⟩ := flattens l hl
  obtain ⟨closed', hf', rfl⟩ := flattens' l' hl'
  exact ⟨_, hf.append hf', List.map_append⟩

/-- A part becomes the component that it derives before any combinator is looked at. -/
theorem reduces_component {part : List Symbol} {node : Node} (h : Derives .component part [node]) :
    Reduces part [.component node] := by
  obtain ⟨contracted, hc, hd⟩ := closesFunctions_of_derives h
  refine ⟨contracted, hc, fun items hi => ?_⟩
  obtain ⟨closed, hf, hp, hd⟩ := flattens_of_derives hd hi
  obtain ⟨rfl, -⟩ := combine_of_derives hd hp rfl
  exact ⟨_, hf, rfl⟩

theorem reduces_combinator (c : Combinator) : Reduces [.combinator c] [.combinator c] := by
  refine ⟨_, closesFunctions_combinator c, fun items hi => ?_⟩
  obtain ⟨item, rfl, hs⟩ := List.map_eq_singleton_iff.mp hi
  exact ⟨_, flattens_combinator (Item.isCombinator_iff.mpr hs), hi⟩

theorem reduces_of_covers {phrase reduced : List Symbol} (h : Covers phrase reduced)
    (hp : Plain reduced) : Reduces phrase reduced := by
  induction h with
  | nil => exact .nil
  | @keep symbol _ _ _ ih =>
    obtain ⟨hs, rest_plain⟩ := Plain.cons_iff.mp hp
    cases symbol with
    | component node => exact (reduces_component .leaf).append (ih rest_plain)
    | combinator c => exact (reduces_combinator c).append (ih rest_plain)
    | _ => exact hs.elim
  | reduce part_derived _ ih =>
    exact (reduces_component part_derived).append (ih (Plain.cons_iff.mp hp).2)

/-- Items that read as parts and combinators are assembled as the components of the parts are. -/
theorem assemble_eq_combine {items : List Item} {phrase reduced : List Symbol}
    (h : symbols [] items = some phrase) (hc : Covers phrase reduced) (hp : Plain reduced) :
    ∃ closed, closed.map Item.symbol = reduced ∧
      assemble items = combine allCombinators closed := by
  obtain ⟨contracted, functions, flattens⟩ := reduces_of_covers hc hp
  obtain ⟨functionFree, hf, hs⟩ := closeFunctions_of_contracts functions.contracts h
  rw [symbols_of_functionFree (functionFree_of_closeFunctions hf) (by simp)] at hs
  obtain ⟨closed, flattened, rfl⟩ := flattens functionFree (Option.some.inj hs)
  refine ⟨closed, rfl, ?_⟩
  rw [← assembleFlat_of_flattens flattened hp, assemble, hf]
  rfl

end WebSpec.Value
