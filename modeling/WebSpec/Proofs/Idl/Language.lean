import Mathlib.Data.List.Forall2
import WebSpec.Proofs.ContextFree.Acceptance
import WebSpec.Proofs.Idl.Derivation
import WebSpec.Proofs.Idl.TableCheck

/-!
# The language of the grammar

`Generates` is what the rules describe as they are written: a part that may be left out is there or
not, and a rule stands for any of its alternatives. `generates_iff` shows that this is what the
derivations of the numbered productions have as their tokens, and `accepts_iff_generates` that the
parse table accepts this language, with the one derivation of what it accepts as its tree.

A rule that repeats something describes one or more of it in a row (`generates_repeated_iff`), so a
text is any number of definitions (`generates_start_iff`).
-/

namespace WebSpec.Idl

open ContextFree (Derives DerivesAll ParseTree Pattern Production Symbol)

variable {τ : Type} {terminal : τ → Terminal}

/-! ### What the rules describe -/

/-- Tokens that a pattern describes, by the alternatives of the rules. -/
inductive Generates (terminal : τ → Terminal) : Pattern → List τ → Prop where
  | empty : Generates terminal .empty []
  | token (t : τ) : Generates terminal (token (terminal t)) [t]
  | rule {a : Alternative} {tokens} (h : a ∈ alternatives)
      (parts : Generates terminal (.ofList a.parts) tokens) :
      Generates terminal (rule a.rule) tokens
  | sequence {first second tokens more} (h : Generates terminal first tokens)
      (behind : Generates terminal second more) :
      Generates terminal (.sequence first second) (tokens ++ more)
  | present {part tokens} (h : Generates terminal part tokens) :
      Generates terminal (.maybe part) tokens
  | absent {part} : Generates terminal (.maybe part) []

/-- A tree derives tokens from the start symbol. -/
def IsDerivation (terminal : τ → Terminal) (tokens : List τ) (tree : ParseTree τ) : Prop :=
  Derives grammar (fun t => (terminal t).code) (.nonterminal Rule.start.code) tree ∧
    tree.tokens = tokens

theorem mem_grammar_productions {p : Production} :
    p ∈ grammar.productions ↔
      ∃ a ∈ alternatives, p.left = a.rule.code ∧ p.right ∈ (Pattern.ofList a.parts).expand := by
  simp only [grammar, productions, List.mem_map, List.mem_flatMap, Alternative.expand]
  constructor
  · rintro ⟨_, ⟨a, ha, right, hr, rfl⟩, rfl⟩
    exact ⟨a, ha, rfl, hr⟩
  · rintro ⟨a, ha, left, hr⟩
    exact ⟨_, ⟨a, ha, _, hr, rfl⟩, by rw [← left]⟩

/-! ### From rules to derivations -/

/-- Tokens that a pattern describes are those of derivations of one of its right sides. -/
theorem Generates.exists_derivesAll {pattern : Pattern} {tokens : List τ}
    (h : Generates terminal pattern tokens) :
    ∃ right ∈ pattern.expand, ∃ trees,
      DerivesAll grammar (fun t => (terminal t).code) right trees ∧
        ParseTree.tokensOfAll trees = tokens := by
  induction h with
  | empty => exact ⟨[], List.mem_singleton_self _, [], .nil, rfl⟩
  | token t =>
    exact ⟨_, List.mem_singleton_self _, [.leaf t], .cons (.leaf t) .nil, rfl⟩
  | @rule a tokens ha _ ih =>
    obtain ⟨right, hr, trees, derives, rfl⟩ := ih
    have production : ⟨a.rule.code, right⟩ ∈ grammar.productions :=
      mem_grammar_productions.mpr ⟨a, ha, rfl, hr⟩
    obtain ⟨number, hp⟩ := List.mem_iff_getElem?.mp production
    refine ⟨_, List.mem_singleton_self _, [.node number trees], .cons (.node hp derives) .nil, ?_⟩
    exact List.append_nil _
  | sequence _ _ ih ih' =>
    obtain ⟨right, hr, trees, derives, rfl⟩ := ih
    obtain ⟨right', hr', trees', derives', rfl⟩ := ih'
    refine ⟨right ++ right', ?_, trees ++ trees', derives.append derives', ?_⟩
    · exact List.mem_flatMap.mpr ⟨right, hr, List.mem_map.mpr ⟨right', hr', rfl⟩⟩
    · exact ParseTree.tokensOfAll_append trees trees'
  | present _ ih =>
    obtain ⟨right, hr, trees, derives⟩ := ih
    exact ⟨right, List.mem_append_left _ hr, trees, derives⟩
  | absent => exact ⟨[], List.mem_append_right _ (List.mem_singleton_self _), [], .nil, rfl⟩

/-! ### From derivations to rules -/

/-- Trees have tokens that the symbols describe, one each. -/
def GeneratesEach (terminal : τ → Terminal) (right : List Symbol) (trees : List (ParseTree τ)) :
    Prop :=
  List.Forall₂ (fun tree symbol => Generates terminal (.symbol symbol) tree.tokens) trees right

/-- Where trees have tokens of each symbol of a right side of a pattern, the pattern describes the
tokens of all. -/
theorem GeneratesEach.generates {pattern : Pattern} {right : List Symbol}
    {trees : List (ParseTree τ)} (h : GeneratesEach terminal right trees)
    (hr : right ∈ pattern.expand) : Generates terminal pattern (ParseTree.tokensOfAll trees) := by
  induction pattern generalizing right trees with
  | empty =>
    obtain rfl := List.mem_singleton.mp hr
    cases h
    exact .empty
  | symbol symbol =>
    obtain rfl := List.mem_singleton.mp hr
    obtain _ | ⟨one, none⟩ := h
    cases none
    rwa [ParseTree.tokensOfAll, ParseTree.tokensOfAll, List.append_nil]
  | sequence first second ih ih' =>
    obtain ⟨head, hh, hr⟩ := List.mem_flatMap.mp hr
    obtain ⟨tail, ht, rfl⟩ := List.mem_map.mp hr
    have front := ih (List.forall₂_take_append trees head tail h) hh
    have back := ih' (List.forall₂_drop_append trees head tail h) ht
    rw [← List.take_append_drop head.length trees, ParseTree.tokensOfAll_append]
    exact .sequence front back
  | maybe part ih =>
    rcases List.mem_append.mp hr with hr | hr
    · exact .present (ih h hr)
    · obtain rfl := List.mem_singleton.mp hr
      cases h
      exact .absent

mutual

/-- The tokens of a derivation are described by its symbol. -/
theorem generates_of_derives : ∀ {symbol : Symbol} {tree : ParseTree τ},
    Derives grammar (fun t => (terminal t).code) symbol tree →
      Generates terminal (.symbol symbol) tree.tokens
  | _, _, .leaf t => .token t
  | _, .node _ _, .node hp derives => by
    obtain ⟨a, ha, left, hr⟩ := mem_grammar_productions.mp (List.mem_of_getElem? hp)
    rw [left]
    exact .rule ha ((generatesEach_of_derivesAll derives).generates hr)

theorem generatesEach_of_derivesAll : ∀ {right : List Symbol} {trees : List (ParseTree τ)},
    DerivesAll grammar (fun t => (terminal t).code) right trees →
      GeneratesEach terminal right trees
  | _, _, .nil => .nil
  | _, _, .cons first others =>
    .cons (generates_of_derives first) (generatesEach_of_derivesAll others)

end

/-- What the rules describe are the tokens of derivations. -/
theorem generates_iff {tokens : List τ} :
    Generates terminal (rule .start) tokens ↔ ∃ tree, IsDerivation terminal tokens tree := by
  constructor
  · intro h
    obtain ⟨right, hr, trees, derives, rfl⟩ := h.exists_derivesAll
    obtain rfl := List.mem_singleton.mp hr
    obtain _ | ⟨derives, none⟩ := derives
    cases none
    exact ⟨_, derives, (List.append_nil _).symm⟩
  · rintro ⟨tree, derives, rfl⟩
    exact generates_of_derives derives

/-! ### Repetition -/

theorem Rule.code_inj {r s : Rule} (h : r.code = s.code) : r = s := by
  have numbered (r : Rule) : Rule.all[r.code]? = some r := by cases r <;> rfl
  have same := numbered r
  rw [h, numbered s] at same
  exact (Option.some.inj same).symm

/-- A rule describes what its alternatives do. -/
theorem generates_rule_iff {r : Rule} {tokens : List τ} :
    Generates terminal (rule r) tokens ↔
      ∃ a ∈ alternatives, a.rule = r ∧ Generates terminal (.ofList a.parts) tokens := by
  constructor
  · intro h
    generalize hp : rule r = pattern at h
    cases h with
    | @rule a _ ha parts =>
      have code : r.code = a.rule.code := by simpa [rule] using hp
      exact ⟨a, ha, (Rule.code_inj code).symm, parts⟩
    | token t => simp [rule, token] at hp
    | _ => simp [rule] at hp
  · rintro ⟨a, ha, rfl, parts⟩
    exact .rule ha parts

/-- A rule with one alternative describes what it does. -/
theorem generates_only_iff {r : Rule} {construct : Construct} {parts : List Pattern}
    (own : alternatives.filter (·.rule = r) = [⟨r, construct, parts⟩]) {tokens : List τ} :
    Generates terminal (rule r) tokens ↔ Generates terminal (.ofList parts) tokens := by
  rw [generates_rule_iff]
  constructor
  · rintro ⟨a, ha, named, h⟩
    have alternative : a ∈ [(⟨r, construct, parts⟩ : Alternative)] :=
      own ▸ List.mem_filter.mpr ⟨ha, by simpa using named⟩
    rwa [List.mem_singleton.mp alternative] at h
  · have alternative : ⟨r, construct, parts⟩ ∈ alternatives :=
      List.mem_of_mem_filter (own ▸ List.mem_singleton_self _)
    exact fun h => ⟨_, alternative, rfl, h⟩

theorem generates_maybe_iff {part : Pattern} {tokens : List τ} :
    Generates terminal (.maybe part) tokens ↔ Generates terminal part tokens ∨ tokens = [] := by
  constructor
  · intro h
    cases h with
    | present h => exact .inl h
    | absent => exact .inr rfl
  · rintro (h | rfl)
    · exact .present h
    · exact .absent

theorem generates_singleton_iff {pattern : Pattern} {tokens : List τ} :
    Generates terminal (.ofList [pattern]) tokens ↔ Generates terminal pattern tokens := by
  constructor
  · intro h
    obtain _ | _ | _ | ⟨one, none⟩ := h
    cases none
    rwa [List.append_nil]
  · intro h
    exact List.append_nil tokens ▸ .sequence h .empty

/-- Tokens fall into runs, at least one, that a pattern describes each. -/
def Repeats (terminal : τ → Terminal) (pattern : Pattern) (tokens : List τ) : Prop :=
  ∃ runs ≠ [], runs.flatten = tokens ∧ ∀ run ∈ runs, Generates terminal pattern run

section

variable {r : Rule} {parts : List Pattern}

/-- A rule that repeats something describes repetitions. The rule stands first in what it stands
for, so it is said of such patterns too. -/
theorem repeats_of_generates (own : alternatives.filter (·.rule = r) = repeated r parts)
    {pattern : Pattern} {tokens : List τ} (h : Generates terminal pattern tokens) :
    (pattern = rule r → Repeats terminal (.ofList parts) tokens) ∧
      ∀ rest, pattern = .sequence (rule r) rest → ∃ front back, front ++ back = tokens ∧
        Repeats terminal (.ofList parts) front ∧ Generates terminal rest back := by
  induction h with
  | @rule a tokens ha h ih =>
    refine ⟨fun same => ?_, by simp [rule]⟩
    have named : a.rule = r := Rule.code_inj (by simpa [rule] using same)
    have alternative : a ∈ repeated r parts := own ▸ List.mem_filter.mpr ⟨ha, by simpa using named⟩
    simp only [repeated, List.mem_cons, List.not_mem_nil, or_false] at alternative
    rcases alternative with rfl | rfl
    · exact ⟨[tokens], by simp, by simp, by simpa using h⟩
    · obtain ⟨front, back, rfl, ⟨runs, -, rfl, each⟩, last⟩ := ih.2 _ rfl
      refine ⟨runs ++ [back], by simp, by simp, fun run hr => ?_⟩
      rcases List.mem_append.mp hr with hr | hr
      · exact each run hr
      · exact List.mem_singleton.mp hr ▸ last
  | sequence _ behind ih _ =>
    refine ⟨by simp [rule], fun rest same => ?_⟩
    obtain ⟨rfl, rfl⟩ := Pattern.sequence.inj same
    exact ⟨_, _, rfl, ih.1 rfl, behind⟩
  | _ => simp [rule, token]

/-- A rule that repeats something describes one or more of it in a row. -/
theorem generates_repeated_iff (own : alternatives.filter (·.rule = r) = repeated r parts)
    {tokens : List τ} :
    Generates terminal (rule r) tokens ↔ Repeats terminal (.ofList parts) tokens := by
  have alternative {a : Alternative} (h : a ∈ repeated r parts) : a ∈ alternatives :=
    List.mem_of_mem_filter (own ▸ h)
  refine ⟨fun h => (repeats_of_generates own h).1 rfl, ?_⟩
  rintro ⟨runs, some, rfl, each⟩
  induction runs using List.reverseRecOn with
  | nil => exact absurd rfl some
  | append_singleton runs run ih =>
    have last := each run (List.mem_append_right runs (List.mem_singleton_self run))
    rw [List.flatten_append, List.flatten_singleton]
    by_cases first : runs = []
    · subst first
      exact .rule (alternative List.mem_cons_self) last
    · have before := ih first fun run hr => each run (List.mem_append_left _ hr)
      exact .rule (alternative (List.mem_cons_of_mem _ List.mem_cons_self)) (.sequence before last)

end

/-- A text is any number of definitions. -/
theorem generates_start_iff {tokens : List τ} :
    Generates terminal (rule .start) tokens ↔
      ∃ runs : List (List τ), runs.flatten = tokens ∧
        ∀ run ∈ runs, Generates terminal (rule .definition) run := by
  rw [generates_only_iff rfl, generates_singleton_iff, maybe, generates_maybe_iff,
    generates_singleton_iff, generates_repeated_iff rfl, Repeats]
  simp only [generates_singleton_iff]
  constructor
  · rintro (⟨runs, -, h⟩ | rfl)
    · exact ⟨runs, h⟩
    · exact ⟨[], rfl, by simp⟩
  · rintro ⟨runs, rfl, each⟩
    by_cases none : runs = []
    · exact .inr (none ▸ rfl)
    · exact .inl ⟨runs, none, rfl, each⟩

/-! ### The parse table -/

/-- Tokens lead to the trees that derive them. -/
theorem parse?_eq_some_iff {tokens : List τ} {tree : ParseTree τ} :
    table.parse? (fun t => (terminal t).code) tokens = some tree ↔
      IsDerivation terminal tokens tree :=
  ContextFree.Table.parse?_eq_some_iff complete_states madeOf_states
    (fun t => (terminal t).code_lt_width) endMark_lt_width

/-- The parse table accepts the tokens that the rules describe, and no others. What it makes of them
is the derivation from the start symbol that has these tokens, the only one there is; and the tree
of a text is what it makes of the text's tokens. -/
theorem accepts_iff_generates (terminal : τ → Terminal) (tokens : List τ) :
    ((table.parse? (fun t => (terminal t).code) tokens).isSome ↔
      Generates terminal (rule .start) tokens) ∧
    (∀ tree, table.parse? (fun t => (terminal t).code) tokens = some tree ↔
      IsDerivation terminal tokens tree) ∧
    (Generates terminal (rule .start) tokens → ∃! tree, IsDerivation terminal tokens tree) ∧
    ∀ text tree, parseTree text = .ok tree →
      table.parse? Token.code tree.tokens = some tree := by
  have found (tree : ParseTree τ) : table.parse? (fun t => (terminal t).code) tokens = some tree ↔
      IsDerivation terminal tokens tree := parse?_eq_some_iff
  refine ⟨?_, found, fun h => ?_, fun text tree h => ?_⟩
  · rw [generates_iff, Option.isSome_iff_exists]
    exact exists_congr found
  · obtain ⟨tree, derives⟩ := generates_iff.mp h
    refine ⟨tree, derives, fun other derives' => ?_⟩
    exact Option.some.inj (((found other).mpr derives').symm.trans ((found tree).mpr derives))
  · have derives : IsDerivation Token.terminal tree.tokens tree := ⟨derives_of_parseTree h, rfl⟩
    exact parse?_eq_some_iff.mpr derives

end WebSpec.Idl
