import WebSpec.Proofs.Value.Context

/-!
# Definitions put together

Definitions that have grammar trees can be put together: side by side, then with `&&` between them,
these with `||`, and these with `|`. `Nested` are the lists of lists that say how, `Nested.text`
writes them with each definition in brackets, and `Nested.tree` is the tree that precedence gives
them.

The text is definitions in brackets, combinators and blanks (`Written`), and each of these stands
for a component, a combinator or nothing whatever is around it. So parsing the text is combining the
components. Where no list is empty, that gives the tree (`Nested.derives_phrase`). Where nothing is
on some side of a combinator, that combinator is blamed: by `combine` on one of its levels
(`Nested.lacks_of_gap`), or before that when the text ends with a single `|`.
-/

namespace WebSpec.Value

/-! ### Nested lists of definitions -/

/-- Operands of the given combinators, the loosest first; the operands of the tightest one are
definitions side by side. -/
abbrev Nested : List Combinator → Type
  | [] => List String
  | _ :: tighter => List (Nested tighter)

namespace Nested

/-- Each definition in brackets, the combinators between their operands. -/
def text : ∀ cs : List Combinator, Nested cs → String
  | [], operands => " ".intercalate (List.map (fun s => "[ " ++ s ++ " ]") operands)
  | c :: tighter, parts => (" " ++ c.symbol ++ " ").intercalate (List.map (text tighter) parts)

/-- The trees of the definitions put together; what is alone in its list stands for itself. -/
def tree (node : String → Node) : ∀ cs : List Combinator, Nested cs → Node
  | [], operands => collapse .juxtaposed (List.map node operands)
  | c :: tighter, parts =>
    collapse (fun nodes => .combined c nodes false) (List.map (tree node tighter) parts)

/-- The lists of definitions side by side. -/
def juxtapositions : ∀ cs : List Combinator, Nested cs → List (List String)
  | [], operands => [operands]
  | _ :: tighter, parts => List.flatMap (juxtapositions tighter) parts

/-- No list of operands of a combinator is empty. -/
def HasOperands : ∀ cs : List Combinator, Nested cs → Prop
  | [], _ => True
  | _ :: tighter, (parts : List (Nested tighter)) =>
    parts ≠ [] ∧ ∀ part ∈ parts, HasOperands tighter part

/-- Some combinator stands between operands. -/
def Combines : ∀ cs : List Combinator, Nested cs → Prop
  | [], _ => False
  | _ :: tighter, (parts : List (Nested tighter)) =>
    2 ≤ parts.length ∨ ∃ part ∈ parts, Combines tighter part

/-- What the text stands for. -/
def phrase (node : String → Node) : ∀ cs : List Combinator, Nested cs → List Symbol
  | [], operands => List.map (fun s => .component (node s)) operands
  | c :: tighter, parts => [.combinator c].intercalate (List.map (phrase node tighter) parts)

end Nested

/-! ### Definitions, combinators and blanks -/

section Writing

variable {extraPrimitives : List String}

/-- How a component or a combinator is written. -/
inductive Writes (extraPrimitives : List String) : Symbol → List Char → Prop where
  | definition {text node} (accepted : parse text extraPrimitives = .ok node) :
      Writes extraPrimitives (.component node) (bracketed text.toList)
  | combinator (c : Combinator) : Writes extraPrimitives (.combinator c) c.symbol.toList

/-- Components and combinators with blanks between them, and perhaps around them. -/
inductive Written (extraPrimitives : List String) : List Symbol → List Char → Prop where
  | nil : Written extraPrimitives [] []
  | blank {symbols cs} (h : Written extraPrimitives symbols cs) :
      Written extraPrimitives symbols (' ' :: cs)
  | last {symbol cs} (h : Writes extraPrimitives symbol cs) : Written extraPrimitives [symbol] cs
  | next {symbol symbols cs cs'} (h : Writes extraPrimitives symbol cs)
      (hs : Written extraPrimitives symbols cs') :
      Written extraPrimitives (symbol :: symbols) (cs ++ ' ' :: cs')

/-- Components and combinators with blanks between them, and none around them. -/
inductive Compact (extraPrimitives : List String) : List Symbol → List Char → Prop where
  | last {symbol cs} (h : Writes extraPrimitives symbol cs) : Compact extraPrimitives [symbol] cs
  | next {symbol symbols cs gap cs'} (h : Writes extraPrimitives symbol cs)
      (blank : ∀ c ∈ gap, Text.isBlank c) (hs : Compact extraPrimitives symbols cs') :
      Compact extraPrimitives (symbol :: symbols) (cs ++ (' ' :: gap ++ cs'))

theorem Written.append {p q : List Symbol} {cs cs' : List Char}
    (h : Written extraPrimitives p cs) (h' : Written extraPrimitives q cs') :
    Written extraPrimitives (p ++ q) (cs ++ ' ' :: cs') := by
  induction h with
  | nil => exact .blank h'
  | blank _ ih => exact .blank ih
  | last h => exact .next h h'
  | next h _ ih =>
    rw [List.append_assoc]
    exact .next h ih

/-- Without the blanks around it, what is written is compact. -/
theorem Written.compact {p : List Symbol} {cs : List Char} (h : Written extraPrimitives p cs) :
    (p = [] ∧ ∀ c ∈ cs, Text.isBlank c) ∨ ∃ before cs' behind, (∀ c ∈ before, Text.isBlank c) ∧
      (∀ c ∈ behind, Text.isBlank c) ∧ cs = before ++ (cs' ++ behind) ∧
        Compact extraPrimitives p cs' := by
  have blank : Text.isBlank ' ' := by decide
  have none (c : Char) (h : c ∈ ([] : List Char)) : Text.isBlank c := absurd h List.not_mem_nil
  induction h with
  | nil => exact .inl ⟨rfl, none⟩
  | blank _ ih =>
    obtain ⟨rfl, blanks⟩ | ⟨before, cs', behind, hb, hb', rfl, compact⟩ := ih
    · exact .inl ⟨rfl, List.forall_mem_cons.mpr ⟨blank, blanks⟩⟩
    · exact .inr ⟨' ' :: before, cs', behind, List.forall_mem_cons.mpr ⟨blank, hb⟩, hb', rfl,
        compact⟩
  | @last _ cs h => exact .inr ⟨[], cs, [], none, none, by simp, .last h⟩
  | @next _ _ cs _ h _ ih =>
    obtain ⟨rfl, blanks⟩ | ⟨before, cs', behind, hb, hb', rfl, compact⟩ := ih
    · exact .inr ⟨[], cs, _, none, List.forall_mem_cons.mpr ⟨blank, blanks⟩, rfl, .last h⟩
    · exact .inr ⟨[], _, behind, none, hb', by simp, .next h hb compact⟩

theorem Writes.solid {symbol : Symbol} {cs : List Char} (h : Writes extraPrimitives symbol cs) :
    Solid cs := by
  cases h with
  | definition => exact solid_bracketed _
  | combinator c =>
    have solid {c : Char} (hc : ¬ Text.isBlank c) : Solid ([c] ++ [c]) :=
      (solid_singleton hc).append fun _ => solid_singleton hc
    cases c with
    | oneOf => exact solid_singleton (by decide)
    | anyOf => exact solid (by decide)
    | allOf => exact solid (by decide)

theorem Compact.solid {p : List Symbol} {cs : List Char} (h : Compact extraPrimitives p cs) :
    Solid cs := by
  induction h with
  | last h => exact h.solid
  | next h _ _ ih => exact h.solid.between ih _

/-- Definitions side by side. -/
theorem written_juxtaposition {node : String → Node} {operands : List String}
    (accepted : ∀ s ∈ operands, parse s extraPrimitives = .ok (node s)) :
    Written extraPrimitives (operands.map fun s => .component (node s))
      (" ".intercalate (operands.map fun s => "[ " ++ s ++ " ]")).toList := by
  have definition {s : String} (h : parse s extraPrimitives = .ok (node s)) :
      Writes extraPrimitives (.component (node s)) ("[ " ++ s ++ " ]").toList := by
    simpa [bracketed] using Writes.definition h
  induction operands with
  | nil => exact .nil
  | cons s operands ih =>
    obtain ⟨hs, accepted⟩ := List.forall_mem_cons.mp accepted
    cases operands with
    | nil => exact .last (definition hs)
    | cons s' operands =>
      have whole := Written.next (definition hs) (ih accepted)
      simpa using whole

/-- Operands with a combinator between them. -/
theorem written_combination {α : Type} {phrase : α → List Symbol} {text : α → String}
    (c : Combinator) {parts : List α}
    (h : ∀ part ∈ parts, Written extraPrimitives (phrase part) (text part).toList) :
    Written extraPrimitives ([.combinator c].intercalate (parts.map phrase))
      ((" " ++ c.symbol ++ " ").intercalate (parts.map text)).toList := by
  induction parts with
  | nil => exact .nil
  | cons part parts ih =>
    obtain ⟨first, h⟩ := List.forall_mem_cons.mp h
    cases parts with
    | nil => simpa using first
    | cons next parts =>
      have whole := first.append (.next (.combinator c) (ih h))
      simpa using whole

/-! ### Reading what is written -/

theorem Writes.standsFor {symbol : Symbol} {cs : List Char}
    (h : Writes extraPrimitives symbol cs) (rest : List Char) :
    StandsFor (primitives ++ extraPrimitives) cs (' ' :: rest) [symbol] := by
  cases h with
  | definition accepted => exact standsFor_bracketed accepted _
  | combinator c => exact standsFor_combinator fun position => .combinator c rest position

/-- At the end of a text, a single `|` could still become `||`. -/
theorem Writes.standsFor_last {symbol : Symbol} {cs : List Char}
    (h : Writes extraPrimitives symbol cs) :
    StandsFor (primitives ++ extraPrimitives) cs [] [symbol] ∨
      symbol = .combinator .oneOf ∧ cs = ['|'] := by
  cases h with
  | definition accepted => exact .inl (standsFor_bracketed accepted _)
  | combinator c =>
    by_cases hc : c = .oneOf
    · subst hc
      exact .inr ⟨rfl, rfl⟩
    · exact .inl (standsFor_combinator fun position => .combinator_of_ne hc [] position)

/-- A compact text stands for its components and combinators, unless it ends with a single `|`. -/
theorem Compact.standsFor {p : List Symbol} {cs : List Char} (h : Compact extraPrimitives p cs) :
    StandsFor (primitives ++ extraPrimitives) cs [] p ∨
      ∃ front q, cs = front ++ ['|'] ∧ p = q ++ [.combinator .oneOf] ∧
        StandsFor (primitives ++ extraPrimitives) front ['|'] q := by
  induction h with
  | last h =>
    obtain stands | ⟨rfl, rfl⟩ := h.standsFor_last
    · exact .inl stands
    · exact .inr ⟨[], [], rfl, rfl, standsFor_blanks (by simp) _⟩
  | @next symbol _ cs gap _ h blank _ ih =>
    have gap_blank : ∀ c ∈ ' ' :: gap, Text.isBlank c :=
      List.forall_mem_cons.mpr ⟨by decide, blank⟩
    obtain stands | ⟨front, q, rfl, rfl, stands⟩ := ih
    · exact .inl ((h.standsFor _).append ((standsFor_blanks gap_blank _).append stands))
    · refine .inr ⟨cs ++ (' ' :: gap ++ front), symbol :: q, by simp, rfl, ?_⟩
      exact (h.standsFor _).append ((standsFor_blanks gap_blank _).append stands)

/-- Half a combinator at the end. -/
theorem tokens_of_bar {known : List String} {front : List Char} {q : List Symbol}
    (h : StandsFor known front ['|'] q) :
    tokens (String.ofList (front ++ ['|'])) = .error (.unterminatedCombinator "|" .bar) := by
  obtain ⟨ts, _, _, _, scans, -⟩ := h 0 [] List.not_mem_nil
  have half : Reading.run (front ++ ['|']) (0 + front.length) .between ['|'] =
      .error (.unterminatedCombinator
        (String.ofList ((front ++ ['|']).drop (0 + front.length))) .bar) := rfl
  rw [Nat.zero_add, List.drop_left] at half
  rw [tokens, String.toList_ofList, scans (front ++ ['|']), Nat.zero_add, half]
  rfl

/-- What is written is parsed by combining the components, unless it ends with a single `|`. -/
theorem Written.parse_eq {p : List Symbol} {text : String}
    (h : Written extraPrimitives p text.toList) (nonempty : p ≠ []) (plain : Plain p) :
    (∃ closed, closed.map Item.symbol = p ∧ parse text extraPrimitives =
        (combine allCombinators closed).mapError fun fault => ⟨fault, Text.strip text⟩) ∨
      p.getLast? = some (.combinator .oneOf) ∧ parse text extraPrimitives =
        .error ⟨.unterminatedCombinator "|" .bar, Text.strip text⟩ := by
  obtain ⟨rfl, -⟩ | ⟨before, cs, behind, blank, blank', chars, compact⟩ := h.compact
  · exact absurd rfl nonempty
  have stripped : Text.strip text = String.ofList cs := strip_eq blank blank' compact.solid chars
  have nonblank : Text.strip text ≠ "" := by
    rw [stripped]
    exact fun he => compact.solid.1 (String.ofList_eq_empty_iff.mp he)
  obtain stands | ⟨front, q, rfl, rfl, stands⟩ := compact.standsFor
  · obtain ⟨ts, attached, phrase, o', scans, attaches, reads, free, covers⟩ :=
      stands 0 [] List.not_mem_nil
    have ht : tokens (Text.strip text) = .ok ts := by
      rw [stripped]
      exact scans.tokens_eq
    obtain ⟨closed, hs, assembled⟩ := assemble_eq_combine (reads.symbols_eq free) covers plain
    exact .inl ⟨closed, hs, by rw [parse_eq_of_attaches nonblank ht attaches, assembled]⟩
  · have ht : tokens (Text.strip text) = .error (.unterminatedCombinator "|" .bar) := by
      rw [stripped]
      exact tokens_of_bar stands
    refine .inr ⟨List.getLast?_concat, ?_⟩
    simp only [parse, nonblank, if_false, parseStripped, ht, bind, Except.bind]
    rfl

end Writing

/-! ### Operands with a combinator between them -/

section Combination

variable {α : Type} {c : Combinator} {tighter : List Combinator} {phrase : α → List Symbol}
  {tree : α → Node} {parts : List α}

theorem isOperand_combination
    (h : ∀ part ∈ parts, ∀ s ∈ phrase part, Symbol.IsOperand tighter s) :
    ∀ s ∈ [.combinator c].intercalate (parts.map phrase), s.IsOperand (c :: tighter) := by
  induction parts with
  | nil => simp
  | cons part parts ih =>
    obtain ⟨first, h⟩ := List.forall_mem_cons.mp h
    cases parts with
    | nil => simpa using fun s hs => (first s hs).looser c
    | cons next parts =>
      rw [List.map_cons, List.map_cons, List.intercalate_cons_cons, List.append_assoc]
      exact List.forall_mem_append.mpr ⟨fun s hs => (first s hs).looser c,
        List.forall_mem_cons.mpr ⟨List.mem_cons_self, ih h⟩⟩

theorem derives_juxtaposition {node : String → Node} {operands : List String}
    (nonempty : operands ≠ []) :
    Derives (.level []) (operands.map fun s => .component (node s))
      [collapse .juxtaposed (operands.map node)] := by
  have components : Derives .components ((operands.map node).map .component) (operands.map node) :=
    derives_components (by simpa using nonempty)
  rw [List.map_map] at components
  exact .juxtaposition components

theorem derives_combination (nonempty : parts ≠ [])
    (h : ∀ part ∈ parts, Derives (.level tighter) (phrase part) [tree part]) :
    Derives (.operands c tighter) ([.combinator c].intercalate (parts.map phrase))
      (parts.map tree) := by
  induction parts with
  | nil => exact absurd rfl nonempty
  | cons part parts ih =>
    obtain ⟨first, h⟩ := List.forall_mem_cons.mp h
    cases parts with
    | nil => simpa using Derives.lastOperand first
    | cons next parts =>
      rw [List.map_cons, List.map_cons, List.intercalate_cons_cons, List.append_assoc]
      exact .nextOperand first (ih (List.cons_ne_nil _ _) h)

theorem exists_combination_eq_concat (nonempty : parts ≠ [])
    (h : ∀ part ∈ parts, ∃ q n, phrase part = q ++ [.component n]) :
    ∃ q n, [.combinator c].intercalate (parts.map phrase) = q ++ [.component n] := by
  induction parts with
  | nil => exact absurd rfl nonempty
  | cons part parts ih =>
    obtain ⟨first, h⟩ := List.forall_mem_cons.mp h
    cases parts with
    | nil => simpa using first
    | cons next parts =>
      obtain ⟨q, n, hq⟩ := ih (List.cons_ne_nil _ _) h
      rw [List.map_cons, List.map_cons, List.intercalate_cons_cons, ← List.map_cons, hq]
      exact ⟨_, n, (List.append_assoc ..).symm⟩

theorem combination_ne_nil (h : 2 ≤ parts.length ∨ ∃ part ∈ parts, phrase part ≠ []) :
    [.combinator c].intercalate (parts.map phrase) ≠ [] := by
  match parts, h with
  | [part], h => simpa using h
  | part :: next :: parts, _ => simp

/-- Items that no tree is made of because there are none, or because some combinator has nothing on
one of its sides. -/
def Lacks (cs : List Combinator) (items : List Item) : Prop :=
  items = [] ∨ ∃ c, combine cs items = .error (.missingOperand c)

/-- Of several operands, the first one that lacks something is blamed. -/
theorem mapM_combine_of_lacks {groups : List (List Item)} (nonempty : ∀ group ∈ groups, group ≠ [])
    (each : ∀ group ∈ groups, Lacks tighter group ∨ ∃ node, combine tighter group = .ok node)
    (gap : ∃ group ∈ groups, Lacks tighter group) :
    ∃ c, groups.mapM (combine tighter) = .error (.missingOperand c) := by
  have blamed {group : List Item} (hg : group ∈ groups) (lacks : Lacks tighter group) :
      ∃ c, combine tighter group = .error (.missingOperand c) :=
    lacks.resolve_left (nonempty group hg)
  cases hm : groups.mapM (combine tighter) with
  | ok nodes =>
    obtain ⟨group, hg, lacks⟩ := gap
    obtain ⟨c, hc⟩ := blamed hg lacks
    obtain ⟨node, -, hn⟩ := exists_of_mapM_eq_ok hm hg
    cases hn.symm.trans hc
  | error fault =>
    obtain ⟨group, hg, hf⟩ := exists_of_mapM_eq_error hm
    obtain lacks | ⟨node, hn⟩ := each group hg
    · obtain ⟨c, hc⟩ := blamed hg lacks
      obtain rfl := Except.error.inj (hf.symm.trans hc)
      exact ⟨c, rfl⟩
    · cases hf.symm.trans hn

/-- An operand that lacks something is found whatever the other ones are. -/
theorem lacks_combination (distinct : c ∉ tighter) {items : List Item}
    (hi : items.map Item.symbol = [.combinator c].intercalate (parts.map phrase))
    (operands : ∀ part ∈ parts, ∀ s ∈ phrase part, s.IsOperand tighter)
    (each : ∀ part ∈ parts, ∀ items : List Item, items.map Item.symbol = phrase part →
      Lacks tighter items ∨ ∃ node, combine tighter items = .ok node)
    (gap : ∃ part ∈ parts, ∀ items : List Item, items.map Item.symbol = phrase part →
      Lacks tighter items) :
    Lacks (c :: tighter) items := by
  obtain ⟨part, hp, lacks⟩ := gap
  have nonempty : parts.map phrase ≠ [] := List.ne_nil_of_mem (List.mem_map_of_mem hp)
  have free : ∀ p ∈ parts.map phrase, .combinator c ∉ p := by
    intro p hm hc
    obtain ⟨part', hp', rfl⟩ := List.mem_map.mp hm
    exact distinct (operands part' hp' _ hc)
  have split := map_splitAt (fun _ => Item.isCombinator_iff) nonempty free hi
  by_cases lone : (splitAt (Item.isCombinator c) items).length = 1
  · -- A lone operand is all there is.
    have : parts.length = 1 := by simpa [lone] using congrArg List.length split.symm
    obtain ⟨only, rfl⟩ := List.length_eq_one_iff.mp this
    obtain rfl := List.mem_singleton.mp hp
    rw [List.map_singleton, List.intercalate_singleton] at hi
    rw [Lacks, combine, if_pos lone]
    exact lacks items hi
  refine .inr ?_
  rw [combine, if_neg lone]
  by_cases empty : (splitAt (Item.isCombinator c) items).any List.isEmpty
  · exact ⟨c, if_pos empty⟩
  rw [if_neg empty]
  have not_nil : ∀ group ∈ splitAt (Item.isCombinator c) items, group ≠ [] := by
    rintro _ hg rfl
    exact empty (List.any_eq_true.mpr ⟨[], hg, rfl⟩)
  have each_group : ∀ group ∈ splitAt (Item.isCombinator c) items,
      Lacks tighter group ∨ ∃ node, combine tighter group = .ok node := by
    intro group hg
    obtain ⟨part, hp, he⟩ := List.mem_map.mp (split ▸ List.mem_map_of_mem hg)
    exact each part hp group he.symm
  obtain ⟨group, hg, he⟩ := List.mem_map.mp (split ▸ List.mem_map_of_mem hp)
  obtain ⟨c', hc⟩ := mapM_combine_of_lacks not_nil each_group ⟨group, hg, lacks group he⟩
  exact ⟨c', by rw [hc]; rfl⟩

end Combination

/-! ### Combining the components -/

namespace Nested

variable {node : String → Node}

theorem written {extraPrimitives : List String} : ∀ {cs : List Combinator} {nested : Nested cs},
    (∀ operands ∈ juxtapositions cs nested, ∀ s ∈ operands,
      parse s extraPrimitives = .ok (node s)) →
    Written extraPrimitives (phrase node cs nested) (text cs nested).toList
  | [], operands, accepted => written_juxtaposition (accepted operands List.mem_cons_self)
  | c :: _, _, accepted => written_combination c fun part hp =>
    written fun operands ho => accepted operands (List.mem_flatMap.mpr ⟨part, hp, ho⟩)

theorem isOperand_phrase : ∀ {cs : List Combinator} (nested : Nested cs),
    ∀ s ∈ phrase node cs nested, s.IsOperand cs
  | [], operands => by
    intro s hs
    obtain ⟨_, -, rfl⟩ := List.mem_map.mp hs
    trivial
  | _ :: _, _ => isOperand_combination fun part _ => isOperand_phrase part

theorem plain_phrase {cs : List Combinator} (nested : Nested cs) :
    Plain (phrase node cs nested) := by
  intro s hs
  have operand := isOperand_phrase nested s hs
  cases s with
  | combinator c =>
    have : c ∈ allCombinators := by cases c <;> decide
    exact this
  | _ => exact operand

/-- Where no list is empty, the grammar gives the tree. -/
theorem derives_phrase : ∀ {cs : List Combinator} {nested : Nested cs}, HasOperands cs nested →
    [] ∉ juxtapositions cs nested →
    Derives (.level cs) (phrase node cs nested) [tree node cs nested]
  | [], _, _, full => derives_juxtaposition fun he => full (he ▸ List.mem_cons_self)
  | _ :: _, _, ⟨nonempty, operands⟩, full => .combination (derives_combination nonempty
    fun part hp => derives_phrase (operands part hp) fun he =>
      full (List.mem_flatMap.mpr ⟨part, hp, he⟩))

theorem exists_phrase_eq_concat : ∀ {cs : List Combinator} {nested : Nested cs},
    HasOperands cs nested → [] ∉ juxtapositions cs nested →
    ∃ q n, phrase node cs nested = q ++ [.component n]
  | [], operands, _, full => by
    obtain rfl | ⟨front, s, rfl⟩ := List.eq_nil_or_concat' operands
    · exact absurd List.mem_cons_self full
    · exact ⟨_, node s, List.map_append⟩
  | _ :: _, _, ⟨nonempty, operands⟩, full => exists_combination_eq_concat nonempty
    fun part hp => exists_phrase_eq_concat (operands part hp) fun he =>
      full (List.mem_flatMap.mpr ⟨part, hp, he⟩)

theorem phrase_ne_nil : ∀ {cs : List Combinator} {nested : Nested cs}, Combines cs nested →
    phrase node cs nested ≠ []
  | [], _, h => h.elim
  | _ :: _, _, h => combination_ne_nil (h.imp_right fun ⟨part, hp, h⟩ =>
    ⟨part, hp, phrase_ne_nil h⟩)

/-- Where a list of definitions side by side is empty, some combinator has nothing on one of its
sides. -/
theorem lacks_of_gap : ∀ {cs : List Combinator} {nested : Nested cs}, cs.Nodup →
    HasOperands cs nested → [] ∈ juxtapositions cs nested → ∀ {items : List Item},
    items.map Item.symbol = phrase node cs nested → Lacks cs items
  | [], operands, _, _, gap, items, hi => by
    obtain rfl := List.mem_singleton.mp gap
    exact .inl (List.map_eq_nil_iff.mp hi)
  | c :: tighter, parts, distinct, ⟨nonempty, operands⟩, gap, items, hi => by
    obtain ⟨free, distinct⟩ := List.nodup_cons.mp distinct
    obtain ⟨part, hp, gap⟩ := List.mem_flatMap.mp gap
    refine lacks_combination free hi (fun part _ => isOperand_phrase part) ?_
      ⟨part, hp, fun items => lacks_of_gap distinct (operands part hp) gap⟩
    intro part hp items hi
    by_cases gap : [] ∈ juxtapositions tighter part
    · exact .inl (lacks_of_gap distinct (operands part hp) gap hi)
    · have derives : Derives (.level tighter) (phrase node tighter part)
          [tree node tighter part] := derives_phrase (operands part hp) gap
      obtain ⟨whole, -, combined⟩ := combine_of_derives derives (plain_phrase part) hi distinct
      exact .inr ⟨whole, combined⟩

end Nested

open Nested

/-- Definitions put together have the tree that precedence gives their trees, and a combinator
without one of its operands is refused as such. -/
theorem parse_text {extraPrimitives : List String} {node : String → Node}
    (nested : List (List (List (List String))))
    (accepted : ∀ operands ∈ juxtapositions allCombinators nested, ∀ s ∈ operands,
      parse s extraPrimitives = .ok (node s))
    (outer : HasOperands allCombinators nested) :
    ([] ∉ juxtapositions allCombinators nested →
      parse (text allCombinators nested) extraPrimitives =
        .ok (tree node allCombinators nested)) ∧
    ([] ∈ juxtapositions allCombinators nested → Combines allCombinators nested →
      ∃ fault, parse (text allCombinators nested) extraPrimitives =
          .error ⟨fault, Text.strip (text allCombinators nested)⟩ ∧
        (fault = .unterminatedCombinator "|" .bar ∨ ∃ c, fault = .missingOperand c)) := by
  have distinct : allCombinators.Nodup := by decide
  have plain : Plain (phrase node allCombinators nested) := plain_phrase _
  constructor
  · intro full
    obtain ⟨q, n, ends⟩ : ∃ q n, phrase node allCombinators nested = q ++ [.component n] :=
      exists_phrase_eq_concat outer full
    have nonempty : phrase node allCombinators nested ≠ [] := by simp [ends]
    obtain ⟨closed, hs, parsed⟩ | ⟨half, -⟩ := (written accepted).parse_eq nonempty plain
    · have derives : Derives (.level allCombinators) (phrase node allCombinators nested)
          [tree node allCombinators nested] := derives_phrase outer full
      obtain ⟨whole, hn, combined⟩ := combine_of_derives derives plain hs distinct
      obtain rfl := (List.cons.inj hn).1
      rw [parsed, combined]
      rfl
    · rw [ends, List.getLast?_concat] at half
      cases half
  · intro gap combines
    have nonempty : phrase node allCombinators nested ≠ [] := phrase_ne_nil combines
    obtain ⟨closed, hs, parsed⟩ | ⟨-, parsed⟩ := (written accepted).parse_eq nonempty plain
    · obtain rfl | ⟨c, combined⟩ := lacks_of_gap distinct outer gap hs
      · exact absurd hs.symm nonempty
      · exact ⟨_, by rw [parsed, combined]; rfl, .inr ⟨c, rfl⟩⟩
    · exact ⟨_, parsed, .inl rfl⟩

/-- Parentheses that close nothing stay literals of their own definitions, and functions end inside
of theirs; where nothing is before a `||`, that is refused. -/
theorem parse_text_strayParens :
    parse "[ f( a ) ] [ ( ] || [ b | ( ] && [ ) ] | [ ) ]" =
      .ok (.combined .oneOf [.combined .anyOf
        [.juxtaposed [.function "f" (.required .keyword "a") false, .required .string "("],
          .combined .allOf [.combined .oneOf [.required .keyword "b", .required .string "("] false,
            .required .string ")"] false] false, .required .string ")"] false) ∧
    ∃ fault, parse " || [ b | ( ] | [ ) ]" = .error ⟨fault, "|| [ b | ( ] | [ ) ]"⟩ ∧
      (fault = .unterminatedCombinator "|" .bar ∨ ∃ c, fault = .missingOperand c) := by
  let node : String → Node
    | "f( a )" => .function "f" (.required .keyword "a") false
    | "b | (" => .combined .oneOf [.required .keyword "b", .required .string "("] false
    | s => .required .string s
  have call : parse "f( a )" = .ok (node "f( a )") := by rfl
  have choice : parse "b | (" = .ok (node "b | (") := by rfl
  have opening : parse "(" = .ok (node "(") := by rfl
  have closing : parse ")" = .ok (node ")") := by rfl
  refine ⟨(@parse_text [] node [[[["f( a )", "("]], [["b | ("], [")"]]], [[[")"]]]] ?_ ?_).1 ?_,
    (@parse_text [] node [[[[]], [["b | ("]]], [[[")"]]]] ?_ ?_).2 ?_ ?_⟩
  · simp [juxtapositions, allCombinators, call, choice, opening, closing]
  · simp [HasOperands, allCombinators]
  · simp [juxtapositions, allCombinators]
  · simp [juxtapositions, allCombinators, choice, closing]
  · simp [HasOperands, allCombinators]
  · simp [juxtapositions, allCombinators]
  · simp [Combines, allCombinators]

end WebSpec.Value
