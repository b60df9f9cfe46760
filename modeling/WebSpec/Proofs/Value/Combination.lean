import WebSpec.Proofs.Outcome
import WebSpec.Proofs.Value.Grammar

/-!
# Combinators and the grammar

`combine` splits a list of items at one combinator after the other. On items without brackets,
parentheses and function names this is what the grammar says: what `combine` makes of any items
they derive (`derives_of_combine`), and it makes of components and combinators what they derive.
-/

namespace WebSpec.Value

variable {α : Type} {p : α → Bool}

/-! ### Splitting -/

theorem splitAt_eq_singleton {l : List α} (h : ∀ a ∈ l, ¬ p a) : splitAt p l = [l] := by
  induction l with
  | nil => rfl
  | cons a l ih =>
    obtain ⟨ha, hl⟩ := List.forall_mem_cons.mp h
    simp [splitAt, ha, ih hl]

theorem splitAt_append_cons {l l' : List α} {a : α} (h : ∀ a ∈ l, ¬ p a) (ha : p a) :
    splitAt p (l ++ a :: l') = l :: splitAt p l' := by
  induction l with
  | nil => simp [splitAt, ha]
  | cons b l ih =>
    obtain ⟨hb, hl⟩ := List.forall_mem_cons.mp h
    simp [splitAt, hb, ih hl]

theorem splitAt_ne_nil (p : α → Bool) (l : List α) : splitAt p l ≠ [] := by
  cases l with
  | nil => simp [splitAt]
  | cons a l => rw [splitAt]; split_ifs <;> [simp; (split <;> simp)]

/-- A list has one part, or a first part that ends at a separator. -/
theorem forall_not_or_first (p : α → Bool) (l : List α) :
    (∀ a ∈ l, ¬ p a) ∨ ∃ l₁ a l₂, l = l₁ ++ a :: l₂ ∧ (∀ a ∈ l₁, ¬ p a) ∧ p a := by
  induction l with
  | nil => exact .inl (by simp)
  | cons a l ih =>
    by_cases ha : p a
    · exact .inr ⟨[], a, l, rfl, by simp, ha⟩
    rcases ih with h | ⟨l₁, b, l₂, rfl, h, hb⟩
    · exact .inl (List.forall_mem_cons.mpr ⟨ha, h⟩)
    · exact .inr ⟨a :: l₁, b, l₂, rfl, List.forall_mem_cons.mpr ⟨ha, h⟩, hb⟩

theorem eq_of_length_splitAt {l : List α} (h : (splitAt p l).length = 1) :
    splitAt p l = [l] ∧ ∀ a ∈ l, ¬ p a := by
  obtain plain | ⟨l₁, a, l₂, rfl, hl, ha⟩ := forall_not_or_first p l
  · exact ⟨splitAt_eq_singleton plain, plain⟩
  · rw [splitAt_append_cons hl ha] at h
    simp [splitAt_ne_nil] at h

theorem mem_splitAt {l part : List α} (h : part ∈ splitAt p l) {a : α} (ha : a ∈ part) :
    a ∈ l ∧ ¬ p a := by
  induction l generalizing part with
  | nil =>
    obtain rfl := List.mem_singleton.mp h
    cases ha
  | cons b l ih =>
    rw [splitAt] at h
    split_ifs at h with hb
    · obtain rfl | h := List.mem_cons.mp h
      · cases ha
      · exact (ih h ha).imp_left (List.mem_cons_of_mem b)
    · split at h
      · rename_i first parts hs
        rw [hs] at ih
        obtain rfl | h := List.mem_cons.mp h
        · obtain rfl | ha := List.mem_cons.mp ha
          · exact ⟨List.mem_cons_self, hb⟩
          · exact (ih List.mem_cons_self ha).imp_left (List.mem_cons_of_mem b)
        · exact (ih (List.mem_cons_of_mem _ h) ha).imp_left (List.mem_cons_of_mem b)
      · rename_i hs
        exact absurd hs (splitAt_ne_nil p l)

/-- Parts with a separator between them, and without the separator inside, are what splitting at
the separator gives. -/
theorem map_splitAt {β : Type} {f : α → β} {s : β} (hp : ∀ a, p a ↔ f a = s)
    {parts : List (List β)} (nonempty : parts ≠ []) (free : ∀ part ∈ parts, s ∉ part) {l : List α}
    (h : l.map f = [s].intercalate parts) : (splitAt p l).map (List.map f) = parts := by
  have plain {l : List α} (hl : s ∉ l.map f) : ∀ a ∈ l, ¬ p a := fun a ha hs =>
    hl (List.mem_map.mpr ⟨a, ha, (hp a).mp hs⟩)
  induction parts generalizing l with
  | nil => exact absurd rfl nonempty
  | cons part parts ih =>
    obtain ⟨free_part, free_parts⟩ := List.forall_mem_cons.mp free
    cases parts with
    | nil =>
      rw [List.intercalate_singleton] at h
      rw [splitAt_eq_singleton (plain (h ▸ free_part)), List.map_singleton, h]
    | cons next parts =>
      rw [List.intercalate_cons_cons, List.append_assoc, List.singleton_append] at h
      obtain ⟨l₁, l₂, rfl, rfl, h₂⟩ := List.map_eq_append_iff.mp h
      obtain ⟨a, l₂, rfl, ha, h₂⟩ := List.map_eq_cons_iff.mp h₂
      rw [splitAt_append_cons (plain free_part) ((hp a).mpr ha), List.map_cons,
        ih (List.cons_ne_nil _ _) free_parts h₂]

/-! ### Components side by side -/

theorem juxtapose_eq_ok {items : List Item} {node : Node} (h : juxtapose items = .ok node) :
    ∃ nodes, nodes ≠ [] ∧ items = nodes.map .node ∧ node = collapse .juxtaposed nodes := by
  rw [juxtapose, bind_eq_ok] at h
  obtain ⟨nodes, hn, h⟩ := h
  have hi : items = nodes.map .node := by
    rw [mapM_eq_ok] at hn
    clear h
    induction hn with
    | nil => rfl
    | @cons item _ _ _ hi _ ih =>
      cases item with
      | node => cases hi; rw [List.map_cons, ih]
      | mark => cases hi
  refine ⟨nodes, ?_, hi, ?_⟩
  · rintro rfl; cases h
  · match nodes, h with
    | [_], h => exact (Except.ok.inj h).symm
    | _ :: _ :: _, h => exact (Except.ok.inj h).symm

theorem juxtapose_map_node {nodes : List Node} (h : nodes ≠ []) :
    juxtapose (nodes.map .node) = .ok (collapse .juxtaposed nodes) := by
  unfold juxtapose
  refine bind_eq_ok.mpr ⟨nodes, mapM_eq_ok.mpr ?_, ?_⟩
  · rw [List.forall₂_map_left_iff, List.forall₂_same]
    exact fun _ _ => rfl
  · match nodes, h with
    | [_], _ => rfl
    | _ :: _ :: _, _ => rfl

/-! ### One combinator after the other -/

theorem combine_nil : ∀ cs : List Combinator, combine cs [] = .error .noComponents
  | [] => rfl
  | _ :: tighter => by simp [combine, splitAt, combine_nil tighter]

/-- A combination is made of the nodes of its parts. -/
theorem combine_cons_eq_ok {c : Combinator} {tighter : List Combinator} {items : List Item}
    {node : Node} :
    combine (c :: tighter) items = .ok node ↔
      ∃ nodes, (splitAt (Item.isCombinator c) items).mapM (combine tighter) = .ok nodes ∧
        node = collapse (fun nodes => .combined c nodes false) nodes := by
  rw [combine]
  constructor
  · intro h
    split_ifs at h with h₁ h₂
    · rw [(eq_of_length_splitAt h₁).1]
      exact ⟨[node], mapM_eq_ok.mpr (.cons h .nil), rfl⟩
    · obtain ⟨nodes, hn, h⟩ := bind_eq_ok.mp h
      refine ⟨nodes, hn, ?_⟩
      have hl := (mapM_eq_ok.mp hn).length_eq
      match nodes, h with
      | [], h => exact (Except.ok.inj h).symm
      | [_], _ => exact absurd hl h₁
      | _ :: _ :: _, h => exact (Except.ok.inj h).symm
  · rintro ⟨nodes, hn, rfl⟩
    have hp := mapM_eq_ok.mp hn
    split_ifs with h₁ h₂
    · obtain ⟨n, rfl⟩ := List.length_eq_one_iff.mp (hp.length_eq ▸ h₁)
      rw [(eq_of_length_splitAt h₁).1] at hp
      exact (List.forall₂_cons.mp hp).1
    · -- An empty part would have no node.
      obtain ⟨part, hpart, he⟩ := List.any_eq_true.mp h₂
      obtain ⟨n, -, hn⟩ := exists_of_mapM_eq_ok hn hpart
      rw [List.isEmpty_iff.mp he, combine_nil] at hn
      cases hn
    · refine bind_eq_ok.mpr ⟨nodes, hn, ?_⟩
      match nodes, hp.length_eq with
      | [], _ => rfl
      | [_], hl => exact absurd hl h₁
      | _ :: _ :: _, _ => rfl

theorem derives_components {nodes : List Node} (h : nodes ≠ []) :
    Derives .components (nodes.map .component) nodes := by
  induction nodes with
  | nil => exact absurd rfl h
  | cons node nodes ih =>
    cases nodes with
    | nil => exact .lastComponent .leaf
    | cons next nodes => exact .nextComponent .leaf (ih (by simp))

theorem derives_operands {c : Combinator} {tighter : List Combinator}
    (operand : ∀ {items node}, combine tighter items = .ok node →
      Derives (.level tighter) (items.map Item.symbol) [node])
    {items : List Item} {nodes : List Node}
    (h : (splitAt (Item.isCombinator c) items).mapM (combine tighter) = .ok nodes) :
    Derives (.operands c tighter) (items.map Item.symbol) nodes := by
  have hp := mapM_eq_ok.mp h
  induction nodes generalizing items with
  | nil => exact absurd (List.forall₂_nil_right_iff.mp hp) (splitAt_ne_nil _ _)
  | cons node nodes ih =>
    rcases forall_not_or_first (Item.isCombinator c) items with hi | ⟨l₁, a, l₂, rfl, hl, ha⟩
    · rw [splitAt_eq_singleton hi, List.forall₂_cons, List.forall₂_nil_left_iff] at hp
      obtain ⟨hn, rfl⟩ := hp
      exact .lastOperand (operand hn)
    · rw [splitAt_append_cons hl ha, List.forall₂_cons] at hp
      rw [List.map_append, List.map_cons, Item.isCombinator_iff.mp ha]
      exact .nextOperand (operand hp.1) (ih (mapM_eq_ok.mpr hp.2) hp.2)

/-- What `combine` makes of items, they derive. -/
theorem derives_of_combine {cs : List Combinator} {items : List Item} {node : Node}
    (h : combine cs items = .ok node) : Derives (.level cs) (items.map Item.symbol) [node] := by
  induction cs generalizing items node with
  | nil =>
    obtain ⟨nodes, hn, rfl, rfl⟩ := juxtapose_eq_ok h
    rw [List.map_map]
    exact .juxtaposition (derives_components hn)
  | cons c tighter ih =>
    obtain ⟨nodes, hn, rfl⟩ := combine_cons_eq_ok.mp h
    exact .combination (derives_operands ih hn)

/-! ### Components and combinators only -/

/-- Components and some combinators. -/
def Symbol.IsOperand (cs : List Combinator) : Symbol → Prop
  | .component _ => True
  | .combinator c => c ∈ cs
  | _ => False

/-- Components and combinators only. -/
def Plain (phrase : List Symbol) : Prop := ∀ s ∈ phrase, s.IsOperand allCombinators

theorem Plain.append_iff {p q : List Symbol} : Plain (p ++ q) ↔ Plain p ∧ Plain q :=
  List.forall_mem_append

theorem Plain.cons_iff {s : Symbol} {p : List Symbol} :
    Plain (s :: p) ↔ s.IsOperand allCombinators ∧ Plain p :=
  List.forall_mem_cons

theorem plain_components (nodes : List Node) : Plain (nodes.map .component) := by
  intro s hs
  obtain ⟨_, -, rfl⟩ := List.mem_map.mp hs
  trivial

theorem Symbol.IsOperand.looser {s : Symbol} {cs : List Combinator} (h : s.IsOperand cs)
    (c : Combinator) : s.IsOperand (c :: cs) := by
  cases s with
  | combinator => exact List.mem_cons_of_mem _ h
  | _ => exact h

theorem Symbol.IsOperand.tighter {item : Item} {c : Combinator} {cs : List Combinator}
    (h : item.symbol.IsOperand (c :: cs)) (other : ¬ item.isCombinator c) :
    item.symbol.IsOperand cs := by
  rw [Item.isCombinator_iff] at other
  cases hs : item.symbol with
  | component => trivial
  | combinator c' =>
    rw [hs] at h other
    exact (List.mem_cons.mp h).resolve_left fun same => other (same ▸ rfl)
  | _ => rw [hs] at h; exact h.elim

theorem exists_nodes_of_isOperand {items : List Item}
    (h : ∀ item ∈ items, item.symbol.IsOperand []) :
    ∃ nodes : List Node, items = nodes.map .node := by
  induction items with
  | nil => exact ⟨[], rfl⟩
  | cons item items ih =>
    obtain ⟨first, others⟩ := List.forall_mem_cons.mp h
    obtain ⟨nodes, rfl⟩ := ih others
    cases hs : item.symbol with
    | component node => exact ⟨node :: nodes, by rw [Item.symbol_eq_component.mp hs]; rfl⟩
    | combinator => rw [hs] at first; cases first
    | _ => rw [hs] at first; exact first.elim

/-- What is between two combinators holds tighter ones only. -/
theorem Derives.isOperand {sort : Phrase} {phrase : List Symbol} {nodes : List Node}
    (h : Derives sort phrase nodes) (hp : Plain phrase) :
    match sort with
    | .component | .components => ∀ s ∈ phrase, s.IsOperand []
    | .arguments => ∀ s ∈ phrase, s.IsOperand allCombinators
    | .level cs => ∀ s ∈ phrase, s.IsOperand cs
    | .operands c tighter => ∀ s ∈ phrase, s.IsOperand (c :: tighter) := by
  induction h with
  | leaf => simp [Symbol.IsOperand]
  | paren | group | call => exact (Plain.cons_iff.mp hp).1.elim
  | noArguments => exact hp
  | someArguments _ ih => exact ih hp
  | lastComponent _ ih => exact ih hp
  | nextComponent _ _ ih ihs =>
    obtain ⟨h₁, h₂⟩ := Plain.append_iff.mp hp
    exact List.forall_mem_append.mpr ⟨ih h₁, ihs h₂⟩
  | juxtaposition _ ih => exact ih hp
  | lastOperand _ ih => exact fun s hs => (ih hp s hs).looser _
  | nextOperand _ _ ih ihs =>
    obtain ⟨h₁, h₂⟩ := Plain.append_iff.mp hp
    obtain ⟨-, h₂⟩ := Plain.cons_iff.mp h₂
    exact List.forall_mem_append.mpr ⟨fun s hs => (ih h₁ s hs).looser _,
      List.forall_mem_cons.mpr ⟨List.mem_cons_self, ihs h₂⟩⟩
  | combination _ ih => exact ih hp

/-- A combinator does not stand among tighter ones. -/
theorem not_isCombinator {c : Combinator} {tighter : List Combinator} (hc : (c :: tighter).Nodup)
    {items : List Item} (h : ∀ s ∈ items.map Item.symbol, s.IsOperand tighter) :
    ∀ item ∈ items, ¬ item.isCombinator c := by
  intro item hi hic
  have := h _ (List.mem_map_of_mem hi)
  rw [Item.isCombinator_iff.mp hic] at this
  exact (List.nodup_cons.mp hc).1 this

/-- Components and combinators are combined into what they derive. -/
theorem combine_of_derives {sort : Phrase} {phrase : List Symbol} {nodes : List Node}
    (h : Derives sort phrase nodes) (hp : Plain phrase) {items : List Item}
    (hi : items.map Item.symbol = phrase) :
    match sort with
    | .component | .components => items = nodes.map .node ∧ nodes ≠ []
    | .arguments => True
    | .level cs => cs.Nodup → ∃ node, nodes = [node] ∧ combine cs items = .ok node
    | .operands c tighter => (c :: tighter).Nodup →
        (splitAt (Item.isCombinator c) items).mapM (combine tighter) = .ok nodes := by
  induction h generalizing items with
  | leaf =>
    obtain ⟨item, rfl, hs⟩ := List.map_eq_singleton_iff.mp hi
    exact ⟨by rw [Item.symbol_eq_component.mp hs]; rfl, by simp⟩
  | paren | group | call => exact (Plain.cons_iff.mp hp).1.elim
  | noArguments | someArguments => trivial
  | lastComponent _ ih => exact ih hp hi
  | nextComponent _ _ ih ihs =>
    obtain ⟨h₁, h₂⟩ := Plain.append_iff.mp hp
    obtain ⟨l₁, l₂, rfl, hl₁, hl₂⟩ := List.map_eq_append_iff.mp hi
    obtain ⟨rfl, -⟩ := ih h₁ hl₁
    obtain ⟨rfl, -⟩ := ihs h₂ hl₂
    exact ⟨rfl, by simp⟩
  | juxtaposition _ ih =>
    intro _
    obtain ⟨rfl, hn⟩ := ih hp hi
    exact ⟨_, rfl, juxtapose_map_node hn⟩
  | @lastOperand c tighter _ _ h ih =>
    intro hcs
    obtain ⟨node, hn, hc⟩ := ih hp hi (List.nodup_cons.mp hcs).2
    rw [splitAt_eq_singleton (not_isCombinator hcs (hi ▸ h.isOperand hp)), hn]
    exact mapM_eq_ok.mpr (.cons hc .nil)
  | @nextOperand c tighter _ _ _ _ h _ ih ihs =>
    intro hcs
    obtain ⟨h₁, h₂⟩ := Plain.append_iff.mp hp
    obtain ⟨l₁, l₂, rfl, hl₁, hl₂⟩ := List.map_eq_append_iff.mp hi
    obtain ⟨a, l₂, rfl, ha, hl₂⟩ := List.map_eq_cons_iff.mp hl₂
    obtain ⟨node, hn, hc⟩ := ih h₁ hl₁ (List.nodup_cons.mp hcs).2
    rw [splitAt_append_cons (not_isCombinator hcs (hl₁ ▸ h.isOperand h₁))
      (Item.isCombinator_iff.mpr ha)]
    obtain rfl := List.cons.inj hn |>.1
    exact mapM_eq_ok.mpr (.cons hc (mapM_eq_ok.mp (ihs (Plain.cons_iff.mp h₂).2 hl₂ hcs)))
  | combination _ ih =>
    intro hcs
    exact ⟨_, rfl, combine_cons_eq_ok.mpr ⟨_, ih hp hi hcs, rfl⟩⟩

end WebSpec.Value
