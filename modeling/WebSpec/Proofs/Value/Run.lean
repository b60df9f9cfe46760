import WebSpec.Proofs.Outcome
import WebSpec.Proofs.Value.Grammar

/-!
# Items and the multipliers that follow them

A list of items falls into runs: an item that is no multiplier, and the multipliers up to the next
such item. Lists of runs can be put one after the other as long as none of them starts with
multipliers, which would belong to the list before.
-/

namespace WebSpec.Value

/-! ### Multipliers at the start -/

theorem leadingMultipliers_append_afterMultipliers : ∀ items : List Item,
    (leadingMultipliers items).map .mark ++ afterMultipliers items = items
  | [] => rfl
  | .node _ :: _ => rfl
  | .mark t :: rest => by
    by_cases h : t.isMultiplier
    · simp [leadingMultipliers, afterMultipliers, Item.isMultiplier, h]
      exact leadingMultipliers_append_afterMultipliers rest
    · simp [leadingMultipliers, afterMultipliers, Item.isMultiplier, h]

theorem isMultiplier_of_mem_leadingMultipliers {t : Token} :
    ∀ {items : List Item}, t ∈ leadingMultipliers items → t.isMultiplier
  | .mark u :: rest, h => by
    by_cases hu : u.isMultiplier
    · simp only [leadingMultipliers, hu, if_true, List.mem_cons] at h
      rcases h with rfl | h
      · exact hu
      · exact isMultiplier_of_mem_leadingMultipliers h
    · simp [leadingMultipliers, hu] at h

theorem leadingMultipliers_cons_of_not {item : Item} {rest : List Item}
    (h : ¬ item.isMultiplier) : leadingMultipliers (item :: rest) = [] := by
  cases item with
  | node => rfl
  | mark t => exact if_neg h

theorem leadingMultipliers_cons_eq_nil_iff {item : Item} {rest : List Item} :
    leadingMultipliers (item :: rest) = [] ↔ ¬ item.isMultiplier := by
  refine ⟨fun h => ?_, leadingMultipliers_cons_of_not⟩
  cases item with
  | node => simp [Item.isMultiplier]
  | mark t => simpa [leadingMultipliers, Item.isMultiplier] using h

theorem leadingMultipliers_eq_nil_iff {items : List Item} :
    leadingMultipliers items = [] ↔ ∀ item ∈ items.head?, ¬ item.isMultiplier := by
  cases items with
  | nil => simp [leadingMultipliers]
  | cons item rest => rw [leadingMultipliers_cons_eq_nil_iff]; simp

theorem leadingMultipliers_append {ms : List Token} (hm : ∀ t ∈ ms, t.isMultiplier)
    {rest : List Item} (hr : leadingMultipliers rest = []) :
    leadingMultipliers (ms.map .mark ++ rest) = ms := by
  induction ms with
  | nil => exact hr
  | cons t ms ih =>
    obtain ⟨ht, hm⟩ := List.forall_mem_cons.mp hm
    simp [leadingMultipliers, ht, ih hm]

theorem leadingMultipliers_map_mark {ms : List Token} (hm : ∀ t ∈ ms, t.isMultiplier) :
    leadingMultipliers (ms.map .mark) = ms := by
  rw [← List.append_nil (ms.map Item.mark)]
  exact leadingMultipliers_append hm rfl

theorem afterMultipliers_append {ms : List Token} (hm : ∀ t ∈ ms, t.isMultiplier)
    {rest : List Item} (hr : leadingMultipliers rest = []) :
    afterMultipliers (ms.map .mark ++ rest) = rest := by
  have h := leadingMultipliers_append_afterMultipliers (ms.map .mark ++ rest)
  rw [leadingMultipliers_append hm hr] at h
  exact List.append_cancel_left h

theorem leadingMultipliers_afterMultipliers : ∀ items : List Item,
    leadingMultipliers (afterMultipliers items) = []
  | [] => rfl
  | .node _ :: _ => rfl
  | .mark t :: rest => by
    by_cases h : t.isMultiplier
    · simp only [afterMultipliers, Item.isMultiplier, h, List.dropWhile_cons_of_pos]
      exact leadingMultipliers_afterMultipliers rest
    · simp [afterMultipliers, leadingMultipliers, Item.isMultiplier, h]

/-- What starts with no multiplier still does with more items behind it, unless it is empty. -/
theorem leadingMultipliers_append_eq_nil {items rest : List Item}
    (h : leadingMultipliers items = []) (hr : leadingMultipliers rest = []) :
    leadingMultipliers (items ++ rest) = [] := by
  cases items with
  | nil => exact hr
  | cons item items =>
    cases item with
    | node => rfl
    | mark t =>
      by_cases ht : t.isMultiplier
      · simp [leadingMultipliers, ht] at h
      · exact if_neg ht

/-- In a phrase, the multipliers are multipliers. -/
theorem items_of_multipliers {items : List Item} {ms : List Token}
    (h : items.map Item.symbol = ms.map .multiplier) :
    items = ms.map .mark ∧ ∀ t ∈ ms, t.isMultiplier := by
  induction ms generalizing items with
  | nil => exact ⟨List.map_eq_nil_iff.mp h, by simp⟩
  | cons t ms ih =>
    obtain ⟨item, rest, rfl, ht, hr⟩ := List.map_eq_cons_iff.mp h
    obtain ⟨rfl, hu⟩ := Item.symbol_eq_multiplier.mp ht
    obtain ⟨rfl, hm⟩ := ih hr
    exact ⟨rfl, List.forall_mem_cons.mpr ⟨hu, hm⟩⟩

theorem map_symbol_multipliers {ms : List Token} (h : ∀ t ∈ ms, t.isMultiplier) :
    (ms.map Item.mark).map Item.symbol = ms.map .multiplier := by
  rw [List.map_map]
  exact List.map_congr_left fun t ht => Token.symbol_of_isMultiplier (h t ht)

/-! ### Runs -/

theorem splitRuns_fst : ∀ items : List Item, (splitRuns items).1 = leadingMultipliers items
  | [] => rfl
  | .node _ :: _ => rfl
  | .mark t :: rest => by
    by_cases h : t.isMultiplier
    · simp [splitRuns, leadingMultipliers, h, splitRuns_fst rest]
    · simp [splitRuns, leadingMultipliers, h]

theorem splitRuns_cons {item : Item} (h : ¬ item.isMultiplier) (rest : List Item) :
    splitRuns (item :: rest) = ([], ⟨item, leadingMultipliers rest⟩ :: (splitRuns rest).2) := by
  cases item with
  | node => simp [splitRuns, splitRuns_fst]
  | mark t =>
    have h : t.isMultiplier = false := by simpa [Item.isMultiplier] using h
    simp [splitRuns, h, splitRuns_fst]

/-- The runs hold the items, and only multipliers behind their first items. -/
theorem splitRuns_items : ∀ items : List Item,
    (splitRuns items).1.map .mark ++ (splitRuns items).2.flatMap Run.items = items ∧
      ∀ run ∈ (splitRuns items).2, ∀ t ∈ run.multipliers, t.isMultiplier
  | [] => ⟨rfl, by simp [splitRuns]⟩
  | item :: rest => by
    obtain ⟨hi, hm⟩ := splitRuns_items rest
    by_cases h : item.isMultiplier
    · cases item with
      | node => cases h
      | mark t =>
        simp only [Item.isMultiplier] at h
        simpa [splitRuns, h, hi] using hm
    · rw [splitRuns_cons h]
      refine ⟨?_, List.forall_mem_cons.mpr ⟨?_, hm⟩⟩
      · simp only [List.map_nil, List.nil_append, List.flatMap_cons, Run.items, List.cons_append]
        rw [← splitRuns_fst, hi]
      · intro t ht
        exact isMultiplier_of_mem_leadingMultipliers ht

/-- No run starts with a multiplier. -/
theorem not_isMultiplier_of_mem_splitRuns {items : List Item} :
    ∀ run ∈ (splitRuns items).2, ¬ run.item.isMultiplier := by
  induction items with
  | nil => simp [splitRuns]
  | cons item rest ih =>
    by_cases h : item.isMultiplier
    · cases item with
      | node => cases h
      | mark t =>
        have ht : t.isMultiplier := h
        simpa [splitRuns, ht] using ih
    · rw [splitRuns_cons h]
      exact List.forall_mem_cons.mpr ⟨h, ih⟩

theorem items_infix_of_mem_splitRuns {items : List Item} {run : Run}
    (h : run ∈ (splitRuns items).2) : run.items <:+: items := by
  have whole := (splitRuns_items items).1
  have within : run.items <:+: (splitRuns items).2.flatMap Run.items :=
    List.infix_of_mem_flatten (List.mem_map_of_mem h)
  rw [← whole]
  exact within.trans (List.suffix_append _ _).isInfix

theorem splitRuns_snd_ne_nil {items : List Item} (filled : items ≠ [])
    (leads : leadingMultipliers items = []) : (splitRuns items).2 ≠ [] := by
  intro none
  have whole := (splitRuns_items items).1
  rw [splitRuns_fst, leads, none] at whole
  exact filled whole.symm

theorem splitRuns_append {items rest : List Item} (hr : leadingMultipliers rest = []) :
    splitRuns (items ++ rest) =
      ((splitRuns items).1, (splitRuns items).2 ++ (splitRuns rest).2) := by
  induction items with
  | nil => simp [splitRuns, ← hr, ← splitRuns_fst]
  | cons item items ih =>
    cases item with
    | node => simp [splitRuns, ih]
    | mark t => by_cases h : t.isMultiplier <;> simp [splitRuns, ih, h]

theorem splitRuns_run {item : Item} (h : ¬ item.isMultiplier) {ms : List Token}
    (hm : ∀ t ∈ ms, t.isMultiplier) :
    splitRuns (item :: ms.map .mark) = ([], [⟨item, ms⟩]) := by
  have hl := leadingMultipliers_map_mark hm
  have hs : (splitRuns (ms.map .mark)).2 = [] := by
    clear hl
    induction ms with
    | nil => rfl
    | cons t ms ih =>
      obtain ⟨ht, hm⟩ := List.forall_mem_cons.mp hm
      simp [splitRuns, ht, ih hm]
  rw [splitRuns_cons h, hl, hs]

end WebSpec.Value
