import WebSpec.Value.Assembly

/-!
# The grammar of value definitions

What the components and marks of a value definition mean together, as a grammar: `|` is loosest,
then `||`, then `&&`, and components side by side bind tightest. `Derives` is that grammar. It
reads `Symbol`s, in which every parenthesis is known to end a function or to be a literal.

Which one it is depends on the parentheses and function names before it. `symbols` goes through the
items from left to right and keeps what is open, the function names and the opening parentheses: a
closing parenthesis closes the one that was opened last. An opening parenthesis is a literal
always. `Symbol`s say nothing about brackets: the grammar does.

Replacing parts of a phrase by components that they derive, as in `Covers`, and deriving the whole
from the result is as good as deriving it from the phrase: `Derives.of_covers`.
-/

namespace WebSpec.Value

/-! ### Symbols -/

/-- What an item is in the grammar. -/
inductive Symbol where
  | component (node : Node)
  /-- A parenthesis that belongs to no function. -/
  | paren (text : String)
  | functionStart (name : String)
  | functionEnd
  | groupStart
  | groupEnd
  | combinator (c : Combinator)
  | multiplier (token : Token)
  /-- A mark that has no place in the grammar. -/
  | stray (token : Token)

/-- What a closing parenthesis may close. -/
inductive Opening where
  | function
  | paren
  deriving DecidableEq

/-- The combinator that a token spells. -/
def Token.combinator? (t : Token) : Option Combinator :=
  allCombinators.find? fun c => t.text = c.symbol

/-- What a mark is, if a closing parenthesis ends no function. -/
def Token.symbol (t : Token) : Symbol :=
  match t.kind with
  | .parenOpen | .parenClose => .paren t.text
  | .functionStart => .functionStart t.text
  | .bracketOpen => .groupStart
  | .bracketClose => .groupEnd
  | .multiplier | .multiplierRange => .multiplier t
  | .combinator =>
    match t.combinator? with
    | some c => .combinator c
    | none => .stray t
  | _ => .stray t

/-- What an item is, if a closing parenthesis ends no function. -/
def Item.symbol : Item → Symbol
  | .node tree => .component tree
  | .mark token => token.symbol

/-- What an item is where the given openings are still open, the last one first, and what is open
after it. -/
def Item.resolve (opened : List Opening) (item : Item) : Symbol × List Opening :=
  if item.isMark .functionStart then (item.symbol, .function :: opened)
  else if item.isMark .parenOpen then (item.symbol, .paren :: opened)
  else if item.isMark .parenClose then
    match opened with
    | .function :: outer => (.functionEnd, outer)
    | opened => (item.symbol, opened.tail)
  else (item.symbol, opened)

/-- What the items are where the given openings are still open; every function has to end. -/
def symbols (opened : List Opening) : List Item → Option (List Symbol)
  | [] => if .function ∈ opened then none else some []
  | item :: rest =>
    let (symbol, opened) := item.resolve opened
    (symbols opened rest).map (symbol :: ·)

/-! ### Items and their symbols -/

@[simp] theorem Item.symbol_node (node : Node) : (Item.node node).symbol = .component node := rfl

@[simp] theorem Item.symbol_mark (t : Token) : (Item.mark t).symbol = t.symbol := rfl

@[simp] theorem Item.isMark_node (kind : TokenKind) (node : Node) :
    (Item.node node).isMark kind = false := rfl

@[simp] theorem Item.isMark_mark (kind : TokenKind) (t : Token) :
    (Item.mark t).isMark kind = decide (t.kind = kind) := by
  simp [Item.isMark, Item.mark?, apply_ite]

theorem Item.isMark_iff {kind : TokenKind} {item : Item} :
    item.isMark kind ↔ ∃ t, item = .mark t ∧ t.kind = kind := by
  cases item <;> simp

theorem Token.combinator?_eq_some {t : Token} {c : Combinator} :
    t.combinator? = some c ↔ t.text = c.symbol := by
  constructor
  · intro h
    simpa using List.find?_some h
  · intro h
    cases c <;> simp [Token.combinator?, allCombinators, h, Combinator.symbol]

theorem Item.isCombinator_iff {c : Combinator} {item : Item} :
    item.isCombinator c ↔ item.symbol = .combinator c := by
  cases item with
  | node => simp [Item.isCombinator, Item.mark?, Item.symbol]
  | mark t =>
    have h := @Token.combinator?_eq_some t c
    grind [Item.isCombinator, Item.mark?, Item.symbol, Token.symbol]

theorem Token.symbol_of_isMultiplier {t : Token} (h : t.isMultiplier) :
    t.symbol = .multiplier t := by
  rcases of_decide_eq_true (by simpa [Token.isMultiplier] using h) with h | h
    <;> simp [Token.symbol, h]

theorem Item.symbol_eq_component {item : Item} {node : Node} :
    item.symbol = .component node ↔ item = .node node := by
  cases item <;> grind [Item.symbol, Token.symbol]

theorem Item.symbol_eq_multiplier {item : Item} {t : Token} :
    item.symbol = .multiplier t ↔ item = .mark t ∧ t.isMultiplier := by
  cases item <;> grind [Item.symbol, Token.symbol, Token.isMultiplier]

theorem Item.symbol_eq_groupStart {item : Item} :
    item.symbol = .groupStart ↔ item.isMark .bracketOpen := by
  rw [Item.isMark_iff]
  cases item <;> grind [Item.symbol, Token.symbol]

theorem Item.symbol_eq_groupEnd {item : Item} :
    item.symbol = .groupEnd ↔ item.isMark .bracketClose := by
  rw [Item.isMark_iff]
  cases item <;> grind [Item.symbol, Token.symbol]

theorem Item.symbol_eq_paren {item : Item} {text : String} :
    item.symbol = .paren text ↔
      ∃ t, item = .mark t ∧ (t.kind = .parenOpen ∨ t.kind = .parenClose) ∧ t.text = text := by
  cases item <;> grind [Item.symbol, Token.symbol]

theorem Item.symbol_ne_functionEnd (item : Item) : item.symbol ≠ .functionEnd := by
  cases item <;> grind [Item.symbol, Token.symbol]

/-! ### Phrases -/

/-- The sorts of phrases. -/
inductive Phrase where
  | component
  /-- Components side by side. -/
  | components
  /-- What stands between the parentheses of a function. -/
  | arguments
  /-- Operands of the given combinators, the loosest first. -/
  | level (combinators : List Combinator)
  /-- Operands of one combinator. -/
  | operands (combinator : Combinator) (tighter : List Combinator)

/-- Several nodes as one: a lone node stands for itself. -/
def collapse (join : List Node → Node) : List Node → Node
  | [node] => node
  | nodes => join nodes

/-- The nodes that a phrase stands for. It is a single node unless the phrase is one of components
or operands. -/
inductive Derives : Phrase → List Symbol → List Node → Prop where
  | leaf {node} : Derives .component [.component node] [node]
  | paren {text multipliers node}
      (multiplied : multiplyAll (.required .string text) false multipliers = .ok node) :
      Derives .component (.paren text :: multipliers.map .multiplier) [node]
  | group {inside inner multipliers node}
      (inner_derived : Derives (.level allCombinators) inside [inner])
      (multiplied : multiplyAll inner true multipliers = .ok node) :
      Derives .component (.groupStart :: (inside ++ .groupEnd :: multipliers.map .multiplier))
        [node]
  | call {name inside arguments multipliers node}
      (arguments_derived : Derives .arguments inside [arguments])
      (multiplied : multiplyAll (.function name arguments false) false multipliers = .ok node) :
      Derives .component
        (.functionStart name :: (inside ++ .functionEnd :: multipliers.map .multiplier)) [node]
  | noArguments : Derives .arguments [] [.juxtaposed []]
  | someArguments {phrase node} (h : Derives (.level allCombinators) phrase [node]) :
      Derives .arguments phrase [node]
  | lastComponent {phrase node} (h : Derives .component phrase [node]) :
      Derives .components phrase [node]
  | nextComponent {phrase rest node nodes} (h : Derives .component phrase [node])
      (hs : Derives .components rest nodes) :
      Derives .components (phrase ++ rest) (node :: nodes)
  | juxtaposition {phrase nodes} (h : Derives .components phrase nodes) :
      Derives (.level []) phrase [collapse .juxtaposed nodes]
  | lastOperand {c tighter phrase node} (h : Derives (.level tighter) phrase [node]) :
      Derives (.operands c tighter) phrase [node]
  | nextOperand {c tighter phrase rest node nodes} (h : Derives (.level tighter) phrase [node])
      (hs : Derives (.operands c tighter) rest nodes) :
      Derives (.operands c tighter) (phrase ++ .combinator c :: rest) (node :: nodes)
  | combination {c tighter phrase nodes} (h : Derives (.operands c tighter) phrase nodes) :
      Derives (.level (c :: tighter)) phrase [collapse (fun nodes => .combined c nodes false) nodes]

/-! ### Replacing parts of a phrase by components -/

/-- The second phrase is the first one with some parts replaced by the components that they
derive. -/
inductive Covers : List Symbol → List Symbol → Prop where
  | nil : Covers [] []
  | keep {symbol phrase reduced} (h : Covers phrase reduced) :
      Covers (symbol :: phrase) (symbol :: reduced)
  | reduce {part node phrase reduced} (part_derived : Derives .component part [node])
      (h : Covers phrase reduced) : Covers (part ++ phrase) (.component node :: reduced)

theorem Covers.refl : ∀ phrase : List Symbol, Covers phrase phrase
  | [] => .nil
  | _ :: phrase => .keep (Covers.refl phrase)

theorem Covers.append {p q p' q' : List Symbol} (h : Covers p q) (h' : Covers p' q') :
    Covers (p ++ p') (q ++ q') := by
  induction h with
  | nil => exact h'
  | keep _ ih => exact .keep ih
  | reduce part_derived _ ih =>
    rw [List.append_assoc]
    exact .reduce part_derived ih

/-- A phrase whose reduced form falls into two parts does so itself. -/
theorem Covers.split {p q q' : List Symbol} (h : Covers p (q ++ q')) :
    ∃ r r', p = r ++ r' ∧ Covers r q ∧ Covers r' q' := by
  induction q generalizing p with
  | nil => exact ⟨[], p, rfl, .nil, h⟩
  | cons symbol q ih =>
    rw [List.cons_append] at h
    cases h with
    | keep h =>
      obtain ⟨r, r', rfl, hr, hr'⟩ := ih h
      exact ⟨symbol :: r, r', rfl, .keep hr, hr'⟩
    | reduce part_derived h =>
      obtain ⟨r, r', rfl, hr, hr'⟩ := ih h
      exact ⟨_ ++ r, r', (List.append_assoc ..).symm, .reduce part_derived hr, hr'⟩

/-- Only components stand for more than themselves. -/
theorem Covers.cons_inv {p q : List Symbol} {symbol : Symbol} (h : Covers p (symbol :: q))
    (hs : ∀ node, symbol ≠ .component node) : ∃ p', p = symbol :: p' ∧ Covers p' q := by
  cases h with
  | keep h => exact ⟨_, rfl, h⟩
  | reduce _ _ => exact absurd rfl (hs _)

theorem Covers.eq_multipliers {p : List Symbol} {multipliers : List Token}
    (h : Covers p (multipliers.map .multiplier)) : p = multipliers.map .multiplier := by
  induction multipliers generalizing p with
  | nil => cases h; rfl
  | cons t multipliers ih =>
    obtain ⟨p', rfl, h'⟩ := h.cons_inv (by simp)
    rw [ih h', List.map_cons]

/-- What the reduced form of a phrase derives, the phrase derives. -/
theorem Derives.of_covers {sort : Phrase} {p q : List Symbol} {nodes : List Node}
    (h : Derives sort q nodes) (hc : Covers p q) : Derives sort p nodes := by
  induction h generalizing p with
  | leaf =>
    cases hc with
    | keep hc => cases hc; exact .leaf
    | reduce part_derived hc => cases hc; rwa [List.append_nil]
  | paren multiplied =>
    obtain ⟨p₁, rfl, hm⟩ := hc.cons_inv (by simp)
    rw [hm.eq_multipliers]
    exact .paren multiplied
  | group _ multiplied ih =>
    obtain ⟨p₁, rfl, h'⟩ := hc.cons_inv (by simp)
    obtain ⟨inside, p₂, rfl, hi, h₂⟩ := h'.split
    obtain ⟨p₃, rfl, hm⟩ := h₂.cons_inv (by simp)
    rw [hm.eq_multipliers]
    exact .group (ih hi) multiplied
  | call _ multiplied ih =>
    obtain ⟨p₁, rfl, h'⟩ := hc.cons_inv (by simp)
    obtain ⟨inside, p₂, rfl, hi, h₂⟩ := h'.split
    obtain ⟨p₃, rfl, hm⟩ := h₂.cons_inv (by simp)
    rw [hm.eq_multipliers]
    exact .call (ih hi) multiplied
  | noArguments => cases hc; exact .noArguments
  | someArguments _ ih => exact .someArguments (ih hc)
  | lastComponent _ ih => exact .lastComponent (ih hc)
  | nextComponent _ _ ih ihs =>
    obtain ⟨r, r', rfl, hr, hr'⟩ := hc.split
    exact .nextComponent (ih hr) (ihs hr')
  | juxtaposition _ ih => exact .juxtaposition (ih hc)
  | lastOperand _ ih => exact .lastOperand (ih hc)
  | nextOperand _ _ ih ihs =>
    obtain ⟨r, r', rfl, hr, hr'⟩ := hc.split
    obtain ⟨r₂, rfl, hr₂⟩ := hr'.cons_inv (by simp)
    exact .nextOperand (ih hr) (ihs hr₂)
  | combination _ ih => exact .combination (ih hc)

theorem Covers.trans {p q r : List Symbol} (h : Covers p q) (h' : Covers q r) : Covers p r := by
  induction h' generalizing p with
  | nil => exact h
  | keep _ ih =>
    cases h with
    | keep h => exact .keep (ih h)
    | reduce part_derived h => exact .reduce part_derived (ih h)
  | reduce part_derived _ ih =>
    obtain ⟨r, r', rfl, hr, hr'⟩ := h.split
    exact .reduce (part_derived.of_covers hr) (ih hr')

end WebSpec.Value
