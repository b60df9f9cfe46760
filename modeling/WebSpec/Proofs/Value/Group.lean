import WebSpec.Proofs.Value.Combination
import WebSpec.Proofs.Value.Run

/-!
# Groups, free parentheses and the grammar

`assembleFlat` first turns parentheses into literals and then closes the groups, the last one first.
Both steps replace parts of a phrase by the components that the parts derive, so what is assembled
is derived. In the other direction, a derivation says for each of its parts what both steps make of
it, and what they make of two parts side by side is side by side (`Flattens.append`).

`assembleFlat_eq_ok_iff`: without functions, what is assembled is what the grammar says.
-/

namespace WebSpec.Value

/-! ### What the steps make is derived -/

theorem covers_of_release {run : Run} (hm : ∀ t ∈ run.multipliers, t.isMultiplier)
    {part : List Item} (h : run.release = .ok part) :
    Covers (run.items.map Item.symbol) (part.map Item.symbol) := by
  obtain ⟨item, ms⟩ := run
  cases item with
  | node =>
    obtain rfl := Except.ok.inj h
    exact .refl _
  | mark t =>
    simp only [Run.release, Bool.or_eq_true, decide_eq_true_eq] at h
    split_ifs at h with hp
    · obtain ⟨node, hn, h⟩ := bind_eq_ok.mp h
      obtain rfl := Except.ok.inj h
      have hs : (Item.mark t).symbol = .paren t.text :=
        Item.symbol_eq_paren.mpr ⟨t, rfl, hp, rfl⟩
      rw [Run.items, List.map_cons, map_symbol_multipliers hm, hs, ← List.append_nil (_ :: _)]
      exact .reduce (.paren hn) .nil
    · obtain rfl := Except.ok.inj h
      exact .refl _

theorem covers_of_mapM_release {runs : List Run} {parts : List (List Item)}
    (h : List.Forall₂ (fun run part => run.release = .ok part) runs parts)
    (hm : ∀ run ∈ runs, ∀ t ∈ run.multipliers, t.isMultiplier) :
    Covers ((runs.flatMap Run.items).map Item.symbol) (parts.flatten.map Item.symbol) := by
  induction h with
  | nil => exact .nil
  | cons hr _ ih =>
    obtain ⟨hm, hms⟩ := List.forall_mem_cons.mp hm
    rw [List.flatMap_cons, List.flatten_cons, List.map_append, List.map_append]
    exact (covers_of_release hm hr).append (ih hms)

theorem covers_of_releaseParens {items released : List Item}
    (h : releaseParens items = .ok released) :
    Covers (items.map Item.symbol) (released.map Item.symbol) := by
  obtain ⟨hi, hm⟩ := splitRuns_items items
  unfold releaseParens at h
  generalize splitRuns items = split at h hi hm
  obtain ⟨ms, runs⟩ := split
  obtain ⟨parts, hp, h⟩ := bind_eq_ok.mp h
  obtain rfl := Except.ok.inj h
  rw [← hi, List.map_append, List.map_append]
  exact (Covers.refl _).append (covers_of_mapM_release (mapM_eq_ok.mp hp) hm)

theorem splitAtGroupEnd_eq_some {items inside after : List Item}
    (h : splitAtGroupEnd items = some (inside, after)) :
    ∃ t, t.kind = .bracketClose ∧ items = inside ++ .mark t :: after ∧
      ∀ item ∈ inside, ¬ item.isMark .bracketClose := by
  induction items generalizing inside with
  | nil => cases h
  | cons item rest ih =>
    rw [splitAtGroupEnd] at h
    split_ifs at h with hc
    · obtain ⟨t, rfl, ht⟩ := Item.isMark_iff.mp hc
      obtain ⟨rfl, rfl⟩ := Prod.mk.inj (Option.some.inj h)
      exact ⟨t, ht, rfl, by simp⟩
    · obtain ⟨⟨inside', after'⟩, hs, h⟩ := Option.map_eq_some_iff.mp h
      obtain ⟨rfl, rfl⟩ := Prod.mk.inj h
      obtain ⟨t, ht, rfl, hi⟩ := ih hs
      exact ⟨t, ht, rfl, List.forall_mem_cons.mpr ⟨hc, hi⟩⟩

theorem splitAtGroupEnd_append {inside : List Item} {t : Token} (ht : t.kind = .bracketClose)
    (hi : ∀ item ∈ inside, ¬ item.isMark .bracketClose) (after : List Item) :
    splitAtGroupEnd (inside ++ .mark t :: after) = some (inside, after) := by
  induction inside with
  | nil => simp [splitAtGroupEnd, ht]
  | cons item inside ih =>
    obtain ⟨h, hi⟩ := List.forall_mem_cons.mp hi
    simp [splitAtGroupEnd, h, ih hi]

/-- The items from the inside of a group on, and what they become when the group is closed. -/
inductive ClosesGroup : List Item → List Item → Prop where
  | mk {inside : List Item} {bracket : Token} {multipliers : List Token} {after : List Item}
      {inner node : Node}
      (bracket_kind : bracket.kind = .bracketClose)
      (inside_open : ∀ item ∈ inside, ¬ item.isMark .bracketClose)
      (are_multipliers : ∀ t ∈ multipliers, t.isMultiplier)
      (after_leads : leadingMultipliers after = [])
      (combined : combine allCombinators inside = .ok inner)
      (multiplied : multiplyAll inner true multipliers = .ok node) :
      ClosesGroup (inside ++ .mark bracket :: (multipliers.map .mark ++ after))
        (.node node :: after)

theorem closeGroup_eq_ok_iff {items closed : List Item} :
    closeGroup items = .ok closed ↔ ClosesGroup items closed := by
  constructor
  · intro h
    unfold closeGroup at h
    split at h
    · cases h
    · cases h
    · rename_i inside after _ hs
      obtain ⟨t, ht, rfl, hi⟩ := splitAtGroupEnd_eq_some hs
      obtain ⟨inner, hc, h⟩ := bind_eq_ok.mp h
      obtain ⟨node, hm, h⟩ := bind_eq_ok.mp h
      obtain rfl := Except.ok.inj h
      have := ClosesGroup.mk ht hi (fun _ => isMultiplier_of_mem_leadingMultipliers)
        (leadingMultipliers_afterMultipliers after) hc hm
      rwa [leadingMultipliers_append_afterMultipliers] at this
  · rintro ⟨ht, hi, hms, ha, hc, hm⟩
    rename_i inside t ms after inner node
    have hs := splitAtGroupEnd_append ht hi (ms.map .mark ++ after)
    cases inside with
    | nil => rw [combine_nil] at hc; cases hc
    | cons item inside =>
      simp only [closeGroup, hs]
      refine bind_eq_ok.mpr ⟨_, hc, bind_eq_ok.mpr ⟨node, ?_, ?_⟩⟩
      · rwa [leadingMultipliers_append hms ha]
      · rw [afterMultipliers_append hms ha]
        rfl

theorem covers_of_closeGroups {items closed : List Item} (h : closeGroups items = .ok closed) :
    Covers (items.map Item.symbol) (closed.map Item.symbol) := by
  induction items generalizing closed with
  | nil =>
    obtain rfl := Except.ok.inj h
    exact .nil
  | cons item rest ih =>
    rw [closeGroups, bind_eq_ok] at h
    obtain ⟨rest', hr, h⟩ := h
    split_ifs at h with ho
    · have hg := ih hr
      cases closeGroup_eq_ok_iff.mp h with
      | @mk _ _ _ after _ _ ht _ hms _ hc hm =>
        have hd := Derives.group (derives_of_combine hc) hm
        rw [List.map_append, List.map_cons, List.map_append, map_symbol_multipliers hms,
          Item.symbol_eq_groupEnd.mpr (Item.isMark_iff.mpr ⟨_, rfl, ht⟩)] at hg
        rw [List.map_cons, Item.symbol_eq_groupStart.mpr ho]
        refine (Covers.keep hg).trans ?_
        simpa using Covers.reduce hd (.refl (after.map Item.symbol))
    · obtain rfl := Except.ok.inj h
      exact .keep (ih hr)

/-- What is assembled without functions is derived. -/
theorem derives_of_assembleFlat {items : List Item} {node : Node}
    (h : assembleFlat items = .ok node) :
    Derives (.level allCombinators) (items.map Item.symbol) [node] := by
  obtain ⟨released, hr, h⟩ := bind_eq_ok.mp h
  obtain ⟨closed, hc, h⟩ := bind_eq_ok.mp h
  split_ifs at h
  exact (derives_of_combine h).of_covers
    ((covers_of_releaseParens hr).trans (covers_of_closeGroups hc))

/-! ### What is derived is assembled -/

theorem releaseParens_append {items released items' released' : List Item}
    (h : releaseParens items = .ok released) (h' : releaseParens items' = .ok released')
    (hl : leadingMultipliers items' = []) :
    releaseParens (items ++ items') = .ok (released ++ released') := by
  have hs : splitRuns (items ++ items') = _ := splitRuns_append hl
  rw [← splitRuns_fst] at hl
  unfold releaseParens at h h' ⊢
  rw [hs]
  generalize splitRuns items = split at h ⊢
  generalize splitRuns items' = split' at h' hl ⊢
  obtain ⟨parts, hp, h⟩ := bind_eq_ok.mp h
  obtain ⟨parts', hp', h'⟩ := bind_eq_ok.mp h'
  obtain rfl := Except.ok.inj h
  obtain rfl := Except.ok.inj h'
  refine bind_eq_ok.mpr ⟨_, mapM_append_eq_ok hp hp', ?_⟩
  simp [hl, pure, Except.pure]

/-- A mark other than a parenthesis stays, with the multipliers behind it. -/
theorem releaseParens_mark {t : Token} (ht : ¬ (Item.mark t).isMultiplier)
    (hp : t.kind ≠ .parenOpen ∧ t.kind ≠ .parenClose) (ms : List Token)
    (hm : ∀ u ∈ ms, u.isMultiplier) :
    releaseParens (.mark t :: ms.map .mark) = .ok (.mark t :: ms.map .mark) := by
  simp [releaseParens, splitRuns_run ht hm, Run.release, hp, Run.items, bind, Except.bind, pure,
    Except.pure]

/-- A parenthesis becomes a literal when its multipliers can be applied. -/
theorem releaseParens_paren_eq {t : Token} (hp : t.kind = .parenOpen ∨ t.kind = .parenClose)
    {ms : List Token} (hm : ∀ u ∈ ms, u.isMultiplier) :
    releaseParens (.mark t :: ms.map .mark) =
      multiplyAll (.required .string t.text) false ms >>= fun node => pure [.node node] := by
  have ht : ¬ (Item.mark t).isMultiplier := by
    rcases hp with h | h <;> simp [Item.isMultiplier, Token.isMultiplier, h]
  cases hn : multiplyAll (.required .string t.text) false ms <;>
    simp [releaseParens, splitRuns_run ht hm, Run.release, hp, hn, bind, Except.bind, pure,
      Except.pure]

theorem releaseParens_paren {t : Token} (hp : t.kind = .parenOpen ∨ t.kind = .parenClose)
    {ms : List Token} (hm : ∀ u ∈ ms, u.isMultiplier) {node : Node}
    (hn : multiplyAll (.required .string t.text) false ms = .ok node) :
    releaseParens (.mark t :: ms.map .mark) = .ok [.node node] := by
  rw [releaseParens_paren_eq hp hm, hn]
  rfl

theorem closeGroup_append {items closed items' : List Item} (h : closeGroup items = .ok closed)
    (hl : leadingMultipliers items' = []) :
    closeGroup (items ++ items') = .ok (closed ++ items') := by
  obtain ⟨ht, hi, hms, ha, hc, hm⟩ := closeGroup_eq_ok_iff.mp h
  simp only [List.append_assoc, List.cons_append]
  exact closeGroup_eq_ok_iff.mpr (.mk ht hi hms (leadingMultipliers_append_eq_nil ha hl) hc hm)

theorem closeGroups_append {items closed items' closed' : List Item}
    (h : closeGroups items = .ok closed) (h' : closeGroups items' = .ok closed')
    (hl : leadingMultipliers closed' = []) :
    closeGroups (items ++ items') = .ok (closed ++ closed') := by
  induction items generalizing closed with
  | nil =>
    obtain rfl := Except.ok.inj h
    exact h'
  | cons item rest ih =>
    rw [closeGroups, bind_eq_ok] at h
    obtain ⟨rest', hr, h⟩ := h
    rw [List.cons_append, closeGroups, bind_eq_ok]
    refine ⟨_, ih hr, ?_⟩
    split_ifs at h ⊢ with ho
    · exact closeGroup_append h hl
    · obtain rfl := Except.ok.inj h
      rfl

theorem closeGroups_eq_self {items : List Item} (h : ∀ item ∈ items, ¬ item.isMark .bracketOpen) :
    closeGroups items = .ok items := by
  induction items with
  | nil => rfl
  | cons item items ih =>
    obtain ⟨h, hs⟩ := List.forall_mem_cons.mp h
    exact bind_eq_ok.mpr ⟨items, ih hs, if_neg h⟩

/-- What the two steps make of items: neither the items nor what they become start with
multipliers, which would belong to what is before them. -/
inductive Flattens (items closed : List Item) : Prop where
  | mk {released : List Item} (leads : leadingMultipliers items = [])
      (released_eq : releaseParens items = .ok released)
      (released_leads : leadingMultipliers released = [])
      (closed_eq : closeGroups released = .ok closed)
      (closed_leads : leadingMultipliers closed = [])

theorem Flattens.append {items closed items' closed' : List Item} (h : Flattens items closed)
    (h' : Flattens items' closed') : Flattens (items ++ items') (closed ++ closed') := by
  obtain ⟨h₁, h₂, h₃, h₄, h₅⟩ := h
  obtain ⟨h₁', h₂', h₃', h₄', h₅'⟩ := h'
  exact .mk (leadingMultipliers_append_eq_nil h₁ h₁') (releaseParens_append h₂ h₂' h₁')
    (leadingMultipliers_append_eq_nil h₃ h₃') (closeGroups_append h₄ h₄' h₅')
    (leadingMultipliers_append_eq_nil h₅ h₅')

theorem flattens_node (node : Node) : Flattens [.node node] [.node node] :=
  .mk rfl rfl rfl rfl rfl

theorem flattens_combinator {item : Item} {c : Combinator} (h : item.isCombinator c) :
    Flattens [item] [item] := by
  cases item with
  | node => cases h
  | mark t =>
    have ht : t.kind = .combinator := by
      simp only [Item.isCombinator, Item.mark?] at h
      split_ifs at h
      assumption
    have hm : ¬ t.isMultiplier := by simp [Token.isMultiplier, ht]
    refine .mk (if_neg hm) (releaseParens_mark hm (by simp [ht]) [] (by simp))
      (if_neg hm) ?_ (if_neg hm)
    exact closeGroups_eq_self (by simp [ht])

theorem flattens_paren {t : Token} (hp : t.kind = .parenOpen ∨ t.kind = .parenClose)
    {ms : List Token} (hm : ∀ u ∈ ms, u.isMultiplier) {node : Node}
    (hn : multiplyAll (.required .string t.text) false ms = .ok node) :
    Flattens (.mark t :: ms.map .mark) [.node node] := by
  refine .mk (leadingMultipliers_cons_of_not ?_) (releaseParens_paren hp hm hn) rfl rfl rfl
  rcases hp with h | h <;> simp [Item.isMultiplier, Token.isMultiplier, h]

/-- Parentheses are not touched outside of a group's inside. -/
theorem releaseParens_group {inside released : List Item} (leads : leadingMultipliers inside = [])
    (h : releaseParens inside = .ok released) {ms : List Token} (hm : ∀ u ∈ ms, u.isMultiplier)
    {t u : Token} (ht : t.kind = .bracketOpen) (hu : u.kind = .bracketClose) :
    releaseParens (.mark t :: (inside ++ .mark u :: ms.map .mark)) =
      .ok (.mark t :: (released ++ .mark u :: ms.map .mark)) := by
  have hmt : ¬ t.isMultiplier := by simp [Token.isMultiplier, ht]
  have hmu : ¬ u.isMultiplier := by simp [Token.isMultiplier, hu]
  have end_released := releaseParens_mark hmu (by simp [hu]) ms hm
  have rest_released := releaseParens_append h end_released (if_neg hmu)
  have start_released := releaseParens_mark hmt (by simp [ht]) [] (by simp)
  have rest_leads : leadingMultipliers (inside ++ .mark u :: ms.map .mark) = [] :=
    leadingMultipliers_append_eq_nil leads (if_neg hmu)
  exact releaseParens_append start_released rest_released rest_leads

/-- A group becomes a component when its multipliers can be applied. -/
theorem closeGroups_group {released closed : List Item} (h : closeGroups released = .ok closed)
    (hp : Plain (closed.map Item.symbol)) {inner : Node} {ms : List Token}
    (hm : ∀ u ∈ ms, u.isMultiplier) (hc : combine allCombinators closed = .ok inner)
    {t u : Token} (ht : t.kind = .bracketOpen) (hu : u.kind = .bracketClose) :
    closeGroups (.mark t :: (released ++ .mark u :: ms.map .mark)) =
      multiplyAll inner true ms >>= fun node => pure [.node node] := by
  have no_open : ∀ item ∈ .mark u :: ms.map .mark, ¬ Item.isMark .bracketOpen item := by
    intro item hi
    rcases List.mem_cons.mp hi with rfl | hi
    · simp [hu]
    · obtain ⟨v, hv, rfl⟩ := List.mem_map.mp hi
      have := hm v hv
      simp only [Token.isMultiplier, Bool.or_eq_true, decide_eq_true_eq] at this
      rcases this with h | h <;> simp [h]
  have hmu : ¬ u.isMultiplier := by simp [Token.isMultiplier, hu]
  have rest_closed := closeGroups_append h (closeGroups_eq_self no_open) (if_neg hmu)
  -- The group ends at the first closing bracket, as its inside has none left.
  have no_close : ∀ item ∈ closed, ¬ item.isMark .bracketClose := by
    intro item hi hc
    have := hp _ (List.mem_map_of_mem hi)
    rw [Item.symbol_eq_groupEnd.mpr hc] at this
    exact this
  have split := splitAtGroupEnd_append hu no_close (ms.map .mark)
  have multipliers := @leadingMultipliers_append ms hm [] rfl
  have after := @afterMultipliers_append ms hm [] rfl
  rw [List.append_nil] at multipliers after
  rw [closeGroups, rest_closed]
  simp only [bind, Except.bind, if_pos (Item.isMark_iff.mpr ⟨t, rfl, ht⟩)]
  cases closed with
  | nil =>
    rw [combine_nil] at hc
    cases hc
  | cons item closed => simp only [closeGroup, split, hc, multipliers, after, bind, Except.bind]

theorem flattens_group {inside closed : List Item} (h : Flattens inside closed)
    (hp : Plain (closed.map Item.symbol)) {inner node : Node} {ms : List Token}
    (hm : ∀ u ∈ ms, u.isMultiplier) (hc : combine allCombinators closed = .ok inner)
    (hn : multiplyAll inner true ms = .ok node) {t u : Token} (ht : t.kind = .bracketOpen)
    (hu : u.kind = .bracketClose) :
    Flattens (.mark t :: (inside ++ .mark u :: ms.map .mark)) [.node node] := by
  obtain ⟨leads, released_eq, -, closed_eq, -⟩ := h
  have hmt : ¬ t.isMultiplier := by simp [Token.isMultiplier, ht]
  refine .mk (if_neg hmt) (releaseParens_group leads released_eq hm ht hu) (if_neg hmt) ?_ rfl
  rw [closeGroups_group closed_eq hp hm hc ht hu, hn]
  rfl

/-- A derivation says what the steps make of the items: components and combinators, from which
the same is derived. -/
theorem flattens_of_derives {sort : Phrase} {phrase : List Symbol} {nodes : List Node}
    (h : Derives sort phrase nodes) {items : List Item} (hi : items.map Item.symbol = phrase) :
    ∃ closed, Flattens items closed ∧ Plain (closed.map Item.symbol) ∧
      Derives sort (closed.map Item.symbol) nodes := by
  have component (node : Node) : Plain (List.map Item.symbol [.node node]) ∧
      Derives .component (List.map Item.symbol [.node node]) [node] :=
    ⟨plain_components [node], .leaf⟩
  induction h generalizing items with
  | @leaf node =>
    obtain ⟨item, rfl, hs⟩ := List.map_eq_singleton_iff.mp hi
    rw [Item.symbol_eq_component.mp hs]
    exact ⟨_, flattens_node node, component node⟩
  | @paren text ms node multiplied =>
    obtain ⟨item, rest, rfl, hs, hr⟩ := List.map_eq_cons_iff.mp hi
    obtain ⟨t, rfl, hp, rfl⟩ := Item.symbol_eq_paren.mp hs
    obtain ⟨rfl, hm⟩ := items_of_multipliers hr
    exact ⟨_, flattens_paren hp hm multiplied, component node⟩
  | @group inside inner ms node _ multiplied ih =>
    obtain ⟨first, rest, rfl, ho, hr⟩ := List.map_eq_cons_iff.mp hi
    obtain ⟨l, rest', rfl, hl, hr'⟩ := List.map_eq_append_iff.mp hr
    obtain ⟨last, end_, rfl, hc, he⟩ := List.map_eq_cons_iff.mp hr'
    obtain ⟨t, rfl, ht⟩ := Item.isMark_iff.mp (Item.symbol_eq_groupStart.mp ho)
    obtain ⟨u, rfl, hu⟩ := Item.isMark_iff.mp (Item.symbol_eq_groupEnd.mp hc)
    obtain ⟨rfl, hm⟩ := items_of_multipliers he
    obtain ⟨closed, hf, hp, hd⟩ := ih hl
    obtain ⟨_, hn, combined⟩ := combine_of_derives hd hp rfl (by decide)
    obtain rfl := (List.cons.inj hn).1
    exact ⟨_, flattens_group hf hp hm combined multiplied ht hu, component node⟩
  | call =>
    obtain ⟨_, rest, rfl, -, hr⟩ := List.map_eq_cons_iff.mp hi
    obtain ⟨_, rest', rfl, -, hr'⟩ := List.map_eq_append_iff.mp hr
    obtain ⟨item, _, rfl, he, -⟩ := List.map_eq_cons_iff.mp hr'
    exact absurd he item.symbol_ne_functionEnd
  | noArguments =>
    obtain rfl := List.map_eq_nil_iff.mp hi
    exact ⟨[], .mk rfl rfl rfl rfl rfl, plain_components [], .noArguments⟩
  | someArguments _ ih =>
    obtain ⟨closed, hf, hp, hd⟩ := ih hi
    exact ⟨closed, hf, hp, .someArguments hd⟩
  | lastComponent _ ih =>
    obtain ⟨closed, hf, hp, hd⟩ := ih hi
    exact ⟨closed, hf, hp, .lastComponent hd⟩
  | nextComponent _ _ ih ihs =>
    obtain ⟨l, l', rfl, hl, hl'⟩ := List.map_eq_append_iff.mp hi
    obtain ⟨closed, hf, hp, hd⟩ := ih hl
    obtain ⟨closed', hf', hp', hd'⟩ := ihs hl'
    refine ⟨_, hf.append hf', ?_, ?_⟩ <;> rw [List.map_append]
    · exact Plain.append_iff.mpr ⟨hp, hp'⟩
    · exact .nextComponent hd hd'
  | juxtaposition _ ih =>
    obtain ⟨closed, hf, hp, hd⟩ := ih hi
    exact ⟨closed, hf, hp, .juxtaposition hd⟩
  | lastOperand _ ih =>
    obtain ⟨closed, hf, hp, hd⟩ := ih hi
    exact ⟨closed, hf, hp, .lastOperand hd⟩
  | @nextOperand c tighter _ _ _ _ _ _ ih ihs =>
    obtain ⟨l, rest, rfl, hl, hr⟩ := List.map_eq_append_iff.mp hi
    obtain ⟨item, l', rfl, hc, hl'⟩ := List.map_eq_cons_iff.mp hr
    obtain ⟨closed, hf, hp, hd⟩ := ih hl
    obtain ⟨closed', hf', hp', hd'⟩ := ihs hl'
    have hs := flattens_combinator (Item.isCombinator_iff.mpr hc)
    refine ⟨_, hf.append (hs.append hf'), ?_, ?_⟩ <;>
      rw [List.map_append, List.singleton_append, List.map_cons, hc]
    · have : c ∈ allCombinators := by cases c <;> decide
      exact Plain.append_iff.mpr ⟨hp, Plain.cons_iff.mpr ⟨this, hp'⟩⟩
    · exact .nextOperand hd hd'
  | combination _ ih =>
    obtain ⟨closed, hf, hp, hd⟩ := ih hi
    exact ⟨closed, hf, hp, .combination hd⟩

/-- Items that become components and combinators are assembled as these. -/
theorem assembleFlat_of_flattens {items closed : List Item} (h : Flattens items closed)
    (hp : Plain (closed.map Item.symbol)) : assembleFlat items = combine allCombinators closed := by
  obtain ⟨-, released_eq, -, closed_eq, -⟩ := h
  have no_close : ¬ closed.any (Item.isMark .bracketClose) := by
    intro hc
    obtain ⟨item, hi, hc⟩ := List.any_eq_true.mp hc
    have := hp _ (List.mem_map_of_mem hi)
    rw [Item.symbol_eq_groupEnd.mpr hc] at this
    exact this
  unfold assembleFlat
  simp only [released_eq, closed_eq, bind, Except.bind]
  exact if_neg no_close

/-- Without functions, what is assembled is what the grammar says. -/
theorem assembleFlat_eq_ok_iff {items : List Item} {node : Node} :
    assembleFlat items = .ok node ↔
      Derives (.level allCombinators) (items.map Item.symbol) [node] := by
  refine ⟨derives_of_assembleFlat, fun h => ?_⟩
  obtain ⟨closed, hf, hp, hd⟩ := flattens_of_derives h rfl
  obtain ⟨_, hn, combined⟩ := combine_of_derives hd hp rfl (by decide)
  obtain rfl := (List.cons.inj hn).1
  rwa [assembleFlat_of_flattens hf hp]

end WebSpec.Value
