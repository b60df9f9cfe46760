import Mathlib.Data.List.Chain
import WebSpec.Proofs.Value.Combination
import WebSpec.Proofs.Value.Run
import WebSpec.Proofs.Value.Tiling

/-!
# Items between two passes

Each pass of the assembly resolves some kinds of marks and leaves the others where they are. What is
left between two passes is `Tidy`: no mark is of a kind that is resolved, and multipliers wait only
behind a closing bracket or parenthesis.

A part of tidy items is tidy (`Tidy.part`), and a component can take the place of a part and of the
multipliers behind it (`Tidy.node_afterMultipliers`). So what a pass does to a part is said with the
same words as what it does to the whole, and after the last pass only components and combinators are
left (`Orderly.isOperand`).
-/

namespace WebSpec.Value

/-- Whether multipliers may wait behind an item. -/
def Item.closes (item : Item) : Bool :=
  item.isMark .bracketClose || item.isMark .parenClose

/-- Components, and marks that are written as such and are of no kind that is resolved already. -/
def Item.IsLeft (resolved : List TokenKind) : Item → Prop
  | .node _ => True
  | .mark t => t.IsLexical ∧ t.kind.isStructural ∧ t.kind ∉ resolved

/-- Marks of some kinds are resolved, and a multiplier stands behind another one or behind something
that closes, or it is the first item. -/
structure Tidy (resolved : List TokenKind) (items : List Item) : Prop where
  left : ∀ item ∈ items, item.IsLeft resolved
  placed : items.IsChain fun item next => next.isMultiplier → item.isMultiplier ∨ item.closes

/-- Tidy items that start with no multiplier. -/
structure Orderly (resolved : List TokenKind) (items : List Item) : Prop
    extends Tidy resolved items where
  leads : leadingMultipliers items = []

/-- Orderly items, of which there are some. -/
structure Ready (resolved : List TokenKind) (items : List Item) : Prop
    extends Orderly resolved items where
  filled : items ≠ []

variable {resolved : List TokenKind} {kind : TokenKind} {item : Item}
  {items items' rest closed : List Item}

theorem Item.IsLeft.resolve (h : item.IsLeft resolved) (other : ¬ item.isMark kind) :
    item.IsLeft (kind :: resolved) := by
  cases item with
  | node => trivial
  | mark t =>
    obtain ⟨lexical, structural, unresolved⟩ := h
    simp only [Item.isMark_mark, decide_eq_true_eq] at other
    exact ⟨lexical, structural, by simp [other, unresolved]⟩

theorem Tidy.nil : Tidy resolved [] :=
  ⟨by simp, .nil⟩

theorem tidy_cons_iff : Tidy resolved (item :: rest) ↔ item.IsLeft resolved ∧
    (item.isMultiplier ∨ item.closes ∨ leadingMultipliers rest = []) ∧ Tidy resolved rest := by
  rw [leadingMultipliers_eq_nil_iff]
  constructor
  · rintro ⟨left, placed⟩
    obtain ⟨first, others⟩ := List.forall_mem_cons.mp left
    obtain ⟨next, placed⟩ := List.isChain_cons.mp placed
    refine ⟨first, ?_, others, placed⟩
    by_cases takes : item.isMultiplier ∨ item.closes
    · exact takes.imp_right .inl
    · exact .inr (.inr fun b hb hm => takes (next b hb hm))
  · rintro ⟨first, next, others, placed⟩
    refine ⟨List.forall_mem_cons.mpr ⟨first, others⟩, List.isChain_cons.mpr ⟨?_, placed⟩⟩
    intro b hb hm
    obtain takes | takes | leads := next
    · exact .inl takes
    · exact .inr takes
    · exact absurd hm (leads b hb)

theorem Tidy.part (h : Tidy resolved items') (within : items <:+: items') : Tidy resolved items :=
  ⟨fun item hi => h.left item (within.subset hi), h.placed.infix within⟩

theorem Tidy.append (h : Tidy resolved items) (h' : Orderly resolved items') :
    Tidy resolved (items ++ items') := by
  refine ⟨List.forall_mem_append.mpr ⟨h.left, h'.left⟩, h.placed.append h'.placed ?_⟩
  intro _ _ next hn hm
  exact absurd hm (leadingMultipliers_eq_nil_iff.mp h'.leads next hn)

theorem Orderly.resolve (h : Orderly resolved items) (free : ∀ item ∈ items, ¬ item.isMark kind) :
    Orderly (kind :: resolved) items :=
  ⟨⟨fun item hi => (h.left item hi).resolve (free item hi), h.placed⟩, h.leads⟩

theorem Tidy.isLexical_leadingMultipliers (h : Tidy resolved items) :
    ∀ t ∈ leadingMultipliers items, t.IsLexical ∧ t.isMultiplier := by
  intro t ht
  have mem : .mark t ∈ items := by
    rw [← leadingMultipliers_append_afterMultipliers items]
    exact List.mem_append_left _ (List.mem_map_of_mem ht)
  exact ⟨(h.left _ mem).1, isMultiplier_of_mem_leadingMultipliers ht⟩

/-- A component takes the place of a part and of the multipliers behind it. -/
theorem Tidy.node_afterMultipliers (h : Tidy resolved items) (node : Node) :
    Orderly resolved (.node node :: afterMultipliers items) := by
  have after : Tidy resolved (afterMultipliers items) :=
    h.part (List.dropWhile_suffix _).isInfix
  have leads := leadingMultipliers_afterMultipliers items
  exact ⟨tidy_cons_iff.mpr ⟨trivial, .inr (.inr leads), after⟩, rfl⟩

theorem Orderly.left_of_append (h : Orderly resolved (items ++ items')) :
    Orderly resolved items := by
  refine ⟨h.part (List.prefix_append items items').isInfix, ?_⟩
  cases items with
  | nil => rfl
  | cons item items =>
    exact leadingMultipliers_cons_of_not (leadingMultipliers_cons_eq_nil_iff.mp h.leads)

theorem Orderly.right_of_append (h : Orderly resolved (items ++ item :: rest)) :
    Tidy resolved rest :=
  h.part ((List.suffix_cons item rest).trans (List.suffix_append items _)).isInfix

theorem Orderly.append (h : Orderly resolved items) (h' : Orderly resolved items') :
    Orderly resolved (items ++ items') :=
  ⟨h.toTidy.append h', leadingMultipliers_append_eq_nil h.leads h'.leads⟩

theorem ready_node (node : Node) : Ready resolved [.node node] :=
  ⟨Tidy.nil.node_afterMultipliers node, List.cons_ne_nil _ _⟩

theorem Ready.flatten {parts : List (List Item)} (filled : parts ≠ [])
    (h : ∀ part ∈ parts, Ready resolved part) : Ready resolved parts.flatten := by
  induction parts with
  | nil => exact absurd rfl filled
  | cons part parts ih =>
    obtain ⟨first, others⟩ := List.forall_mem_cons.mp h
    refine ⟨?_, List.append_ne_nil_of_left_ne_nil first.filled _⟩
    cases parts with
    | nil => simpa using first.toOrderly
    | cons => exact first.append (ih (List.cons_ne_nil _ _) others).toOrderly

/-! ### Runs -/

theorem tidy_multipliers {ms : List Token} (hm : ∀ t ∈ ms, t.isMultiplier)
    (left : ∀ t ∈ ms, (Item.mark t).IsLeft resolved) : Tidy resolved (ms.map .mark) := by
  induction ms with
  | nil => exact .nil
  | cons t ms ih =>
    obtain ⟨ht, hm⟩ := List.forall_mem_cons.mp hm
    obtain ⟨first, others⟩ := List.forall_mem_cons.mp left
    exact tidy_cons_iff.mpr ⟨first, .inl ht, ih hm others⟩

theorem isLexical_multipliers {run : Run} (hm : ∀ t ∈ run.multipliers, t.isMultiplier)
    (left : ∀ item ∈ run.items, item.IsLeft resolved) :
    ∀ t ∈ run.multipliers, t.IsLexical ∧ t.isMultiplier := fun t ht =>
  ⟨(left _ (List.mem_cons_of_mem _ (List.mem_map_of_mem ht))).1, hm t ht⟩

/-- A run whose multipliers may wait. -/
theorem ready_items {run : Run} (hi : ¬ run.item.isMultiplier)
    (hm : ∀ t ∈ run.multipliers, t.isMultiplier) (left : ∀ item ∈ run.items, item.IsLeft resolved)
    (waits : run.item.closes ∨ run.multipliers = []) : Ready resolved run.items := by
  obtain ⟨first, others⟩ := List.forall_mem_cons.mp left
  rw [← leadingMultipliers_map_mark hm] at waits
  have rest := tidy_multipliers hm fun t ht => others _ (List.mem_map_of_mem ht)
  exact ⟨⟨tidy_cons_iff.mpr ⟨first, .inr waits, rest⟩, leadingMultipliers_cons_of_not hi⟩,
    List.cons_ne_nil _ _⟩

theorem Item.not_isMark_of_isMultiplier {t : Token} (ht : t.isMultiplier)
    (h : kind ≠ .multiplier ∧ kind ≠ .multiplierRange) : ¬ (Item.mark t).isMark kind := by
  have hk : t.kind = .multiplier ∨ t.kind = .multiplierRange := by
    simpa [Token.isMultiplier] using ht
  rw [Item.isMark_mark, decide_eq_true_eq]
  obtain hk | hk := hk
  · exact fun same => h.1 (same.symm.trans hk)
  · exact fun same => h.2 (same.symm.trans hk)

/-- A mark of another kind than a multiplier can only be what a run starts with. -/
theorem free_items {run : Run} (hi : ¬ run.item.isMark kind)
    (hm : ∀ t ∈ run.multipliers, t.isMultiplier)
    (h : kind ≠ .multiplier ∧ kind ≠ .multiplierRange) :
    ∀ item ∈ run.items, ¬ item.isMark kind := by
  refine List.forall_mem_cons.mpr ⟨hi, fun item hit => ?_⟩
  obtain ⟨t, ht, rfl⟩ := List.mem_map.mp hit
  exact Item.not_isMark_of_isMultiplier (hm t ht) h

/-! ### What a pass resolves -/

/-- Where nothing closes, no multipliers wait. -/
theorem Orderly.not_isMultiplier (h : Orderly resolved items)
    (free : ∀ item ∈ items, ¬ item.closes) : ∀ item ∈ items, ¬ item.isMultiplier := by
  induction items with
  | nil => simp
  | cons item rest ih =>
    obtain ⟨-, next, tidy⟩ := tidy_cons_iff.mp h.toTidy
    obtain ⟨opens, free⟩ := List.forall_mem_cons.mp free
    have other := leadingMultipliers_cons_eq_nil_iff.mp h.leads
    have leads : leadingMultipliers rest = [] := (next.resolve_left other).resolve_left opens
    exact List.forall_mem_cons.mpr ⟨other, ih ⟨tidy, leads⟩ free⟩

/-- The kinds of marks that are resolved before the groups are. -/
def parens : List TokenKind :=
  [.parenClose, .parenOpen, .functionStart]

theorem Item.IsLeft.not_closes (h : item.IsLeft (.bracketClose :: .bracketOpen :: parens)) :
    ¬ item.closes := by
  cases item with
  | node => simp [Item.closes]
  | mark t =>
    have unresolved := h.2.2
    simp only [parens, List.mem_cons, not_or] at unresolved
    simp [Item.closes, unresolved]

theorem Item.IsLeft.isOperand (h : item.IsLeft (.bracketClose :: .bracketOpen :: parens))
    (other : ¬ item.isMultiplier) : item.symbol.IsOperand allCombinators := by
  cases item with
  | node => trivial
  | mark t =>
    obtain ⟨lexical, structural, unresolved⟩ := h
    have kind : t.kind = .combinator := by
      obtain ⟨kind, text, position⟩ := t
      cases kind <;> simp_all [TokenKind.isStructural, parens, Item.isMultiplier,
        Token.isMultiplier]
    rw [Token.IsLexical, kind] at lexical
    obtain ⟨c, spelled⟩ := TokenKind.exists_combinator lexical
    have symbol : (Item.mark t).symbol = .combinator c := by
      simp [Token.symbol, kind, Token.combinator?_eq_some.mpr spelled]
    rw [symbol]
    cases c <;> simp [Symbol.IsOperand, allCombinators]

/-- Without parentheses and brackets there are components and combinators only. -/
theorem Orderly.isOperand (h : Orderly (.bracketClose :: .bracketOpen :: parens) items) :
    ∀ item ∈ items, item.symbol.IsOperand allCombinators := by
  intro item hi
  have bare := h.not_isMultiplier fun other ho => (h.left other ho).not_closes
  exact (h.left item hi).isOperand (bare item hi)

/-- What closing the functions or groups among some items may make of the items. -/
structure Keeps (resolved : List TokenKind) (items closed : List Item) : Prop
    extends Tidy resolved closed where
  leads : leadingMultipliers items = [] → leadingMultipliers closed = []
  filled : items ≠ [] → closed ≠ []

theorem Keeps.nil : Keeps resolved [] [] :=
  ⟨.nil, id, id⟩

/-- An item that opens nothing stays. -/
theorem Keeps.cons (h : Keeps (kind :: resolved) rest closed)
    (tidy : Tidy resolved (item :: rest)) (other : ¬ item.isMark kind) :
    Keeps (kind :: resolved) (item :: rest) (item :: closed) := by
  obtain ⟨left, next, -⟩ := tidy_cons_iff.mp tidy
  refine ⟨tidy_cons_iff.mpr ⟨left.resolve other, ?_, h.toTidy⟩, fun leads => ?_, fun _ => ?_⟩
  · exact next.imp_right (Or.imp_right h.leads)
  · exact leadingMultipliers_cons_of_not (leadingMultipliers_cons_eq_nil_iff.mp leads)
  · exact List.cons_ne_nil _ _

theorem Keeps.orderly (h : Keeps resolved items closed) (leads : leadingMultipliers items = []) :
    Orderly resolved closed :=
  ⟨h.toTidy, h.leads leads⟩

theorem Keeps.ready (h : Keeps (kind :: resolved) items closed) (ready : Ready resolved items) :
    Ready (kind :: resolved) closed :=
  ⟨h.orderly ready.leads, h.filled ready.filled⟩

/-- A part becomes a component. -/
theorem Orderly.keeps {node : Node} (h : Orderly resolved (.node node :: closed)) :
    Keeps resolved items (.node node :: closed) :=
  ⟨h.toTidy, fun _ => rfl, fun _ => List.cons_ne_nil _ _⟩

/-- Right behind a mark that opens something there are no multipliers. -/
theorem Tidy.leads_behind (h : Tidy resolved (item :: rest)) (opens : item.isMark kind)
    (opening : kind = .functionStart ∨ kind = .bracketOpen) : leadingMultipliers rest = [] := by
  obtain ⟨-, next, -⟩ := tidy_cons_iff.mp h
  obtain ⟨t, rfl, rfl⟩ := Item.isMark_iff.mp opens
  obtain ⟨other, bare⟩ : ¬ (Item.mark t).isMultiplier ∧ ¬ (Item.mark t).closes := by
    obtain hk | hk := opening <;> simp [Item.isMultiplier, Token.isMultiplier, Item.closes, hk]
  exact (next.resolve_left other).resolve_left bare

end WebSpec.Value
