import Mathlib.Algebra.BigOperators.Ring.Finset
import WebSpec.Proofs.Value.Context

/-!
# Nothing of a definition is lost

Read from left to right, a grammar tree says what the text of its definition says: its leaves and
the names of its functions are the tokens that name something, and between the parts of a
combination stands its combinator. A `Sign` is such a leaf, name or combinator. What a text has
besides are brackets, multipliers and the parentheses that close functions.

The signs of items depend on what is open where they stand, as their symbols do. The grammar keeps
signs (`signs_of_derives`), and so do the multipliers of leaves (`signs_of_attachMultipliers`); so a
tree has the signs of its tokens (`signs_of_parse`). A parser that takes parts out of a list and
puts others in could drop one of them or use one twice; `leaves_of_parse` says that it does not.
-/

namespace WebSpec.Value

/-! ### Signs -/

/-- What a text or a tree says in one place. -/
inductive Sign where
  | leaf (kind : LeafKind) (text : String)
  | call (name : String)
  | combinator (c : Combinator)
  deriving DecidableEq

/-- Whether a sign is a leaf or the name of a function. -/
def Sign.isLeaf : Sign → Bool
  | .combinator _ => false
  | _ => true

mutual

/-- The leaves of a tree from left to right. The name of a function comes before the leaves of its
arguments. -/
def Node.leaves : Node → List Sign
  | .leaf kind text _ => [.leaf kind text]
  | .function name arguments _ => .call name :: arguments.leaves
  | .sequence items _ _ => Node.leavesOfAll items
  | .combined _ items _ => Node.leavesOfAll items

/-- The leaves of several trees, one tree after the other. -/
def Node.leavesOfAll : List Node → List Sign
  | [] => []
  | item :: rest => item.leaves ++ Node.leavesOfAll rest

end

mutual

/-- How many seams the combinations of a tree have that use the combinator: one less than they have
items. -/
def Node.joints (c : Combinator) : Node → Int
  | .leaf .. => 0
  | .function _ arguments _ => arguments.joints c
  | .sequence items _ _ => Node.jointsOfAll c items
  | .combined c' items _ =>
    (if c' = c then (items.length : Int) - 1 else 0) + Node.jointsOfAll c items

/-- The seams of several trees. -/
def Node.jointsOfAll (c : Combinator) : List Node → Int
  | [] => 0
  | item :: rest => item.joints c + Node.jointsOfAll c rest

end

mutual

/-- The signs of a tree from left to right. -/
def Node.signs : Node → List Sign
  | .leaf kind text _ => [.leaf kind text]
  | .function name arguments _ => .call name :: arguments.signs
  | .sequence items _ _ => (Node.signsOfEach items).flatten
  | .combined c items _ => [.combinator c].intercalate (Node.signsOfEach items)

/-- The signs of each of several trees. -/
def Node.signsOfEach : List Node → List (List Sign)
  | [] => []
  | item :: rest => item.signs :: Node.signsOfEach rest

end

@[simp] theorem Node.signsOfEach_eq (items : List Node) :
    Node.signsOfEach items = items.map Node.signs := by
  induction items with
  | nil => rfl
  | cons item rest ih => rw [Node.signsOfEach, ih, List.map_cons]

@[simp] theorem Node.leavesOfAll_eq (items : List Node) :
    Node.leavesOfAll items = items.flatMap Node.leaves := by
  induction items with
  | nil => rfl
  | cons item rest ih => rw [Node.leavesOfAll, ih, List.flatMap_cons]

@[simp] theorem Node.jointsOfAll_eq (c : Combinator) (items : List Node) :
    Node.jointsOfAll c items = (items.map (Node.joints c)).sum := by
  induction items with
  | nil => rfl
  | cons item rest ih => rw [Node.jointsOfAll, ih, List.map_cons, List.sum_cons]

/-- The leaf that a token makes, if it closes no function. A type reference says what it refers
to, without a range. -/
def Token.leaf? (known : List String) (t : Token) : Option Sign :=
  match t.kind with
  | .keyword => some (.leaf .keyword t.text)
  | .typeRef =>
    let name := String.ofList (withoutRange t.text.toList)
    some (.leaf (if known.contains name then .primitive else .valueSpace) name)
  | .propertyRef => some (.leaf .propertyRef t.text)
  | .string | .comma | .slash | .parenOpen | .parenClose => some (.leaf .string t.text)
  | .functionStart => some (.call t.text)
  | _ => none

/-- The sign that a token makes, if it closes no function. -/
def Token.sign? (known : List String) (t : Token) : Option Sign :=
  if t.kind = .combinator then t.combinator?.map .combinator else t.leaf? known

/-- Whether a token closes a function, where the given openings are still open. -/
def Token.closesFunction (opened : List Opening) (t : Token) : Bool :=
  t.kind = .parenClose && opened.head? = some .function

/-- What is open after a token. -/
def Token.opens (opened : List Opening) (t : Token) : List Opening :=
  match t.kind with
  | .functionStart => .function :: opened
  | .parenOpen => .paren :: opened
  | .parenClose => opened.tail
  | _ => opened

/-- The tokens that close no function, where the given openings are open before them. -/
def withoutFunctionEnds (opened : List Opening) : List Token → List Token
  | [] => []
  | t :: ts =>
    if t.closesFunction opened then withoutFunctionEnds (t.opens opened) ts
    else t :: withoutFunctionEnds (t.opens opened) ts

/-! ### Multipliers -/

theorem signs_makeOptional (node : Node) : node.makeOptional.signs = node.signs := by
  cases node <;> simp [Node.makeOptional, Node.signs]

theorem signs_repeated (node : Node) (r : Repetition) :
    (Node.repeated node r).signs = node.signs := by
  simp [Node.signs]

theorem signs_of_multiply {t : Token} {node whole : Node} {isGroup : Bool}
    (h : multiply t node isGroup = .ok whole) : whole.signs = node.signs := by
  unfold multiply at h
  split_ifs at h
  · obtain ⟨_, -, h⟩ := bind_eq_ok.mp h
    obtain rfl := Except.ok.inj h
    exact signs_repeated ..
  all_goals
    obtain rfl := Except.ok.inj h
    first | exact signs_repeated .. | exact signs_makeOptional ..

theorem signs_of_multiplyNext {previous t : Token} {node whole : Node}
    (h : multiplyNext previous t node = .ok whole) : whole.signs = node.signs := by
  unfold multiplyNext at h
  split at h
  · split_ifs at h
    · obtain ⟨_, -, h⟩ := bind_eq_ok.mp h
      obtain rfl := Except.ok.inj h
      simp [Node.signs]
    · exact signs_of_multiply h
  · exact signs_of_multiply h

theorem signs_of_multiplyRest {previous : Token} {node whole : Node} {ts : List Token}
    (h : multiplyRest previous node ts = .ok whole) : whole.signs = node.signs := by
  induction ts generalizing previous node with
  | nil => rw [Except.ok.inj h]
  | cons t ts ih =>
    obtain ⟨next, hn, h⟩ := bind_eq_ok.mp h
    rw [ih h, signs_of_multiplyNext hn]

/-- Multipliers say how often something occurs, and change nothing of what it says. -/
theorem signs_of_multiplyAll {node whole : Node} {isGroup : Bool} {ts : List Token}
    (h : multiplyAll node isGroup ts = .ok whole) : whole.signs = node.signs := by
  cases ts with
  | nil => rw [Except.ok.inj h]
  | cons t ts =>
    obtain ⟨next, hn, h⟩ := bind_eq_ok.mp h
    rw [signs_of_multiplyRest h, signs_of_multiply hn]

/-! ### Phrases -/

/-- The signs of a symbol. -/
def Symbol.signs : Symbol → List Sign
  | .component node => node.signs
  | .paren text => [.leaf .string text]
  | .functionStart name => [.call name]
  | .combinator c => [.combinator c]
  | .functionEnd | .groupStart | .groupEnd | .multiplier _ | .stray _ => []

/-- The signs of the nodes that a phrase stands for: operands have their combinator between them. -/
def Phrase.signs : Phrase → List Node → List Sign
  | .operands c _, nodes => [.combinator c].intercalate (nodes.map Node.signs)
  | _, nodes => nodes.flatMap Node.signs

theorem signs_multipliers (ms : List Token) :
    (ms.map Symbol.multiplier).flatMap Symbol.signs = [] := by
  simp [List.flatMap_map, Symbol.signs]

/-- Joining nodes adds nothing to what is said where a lone node says it too. -/
theorem signs_collapse (join : List Node → Node) (said : List Node → List Sign)
    (joined : ∀ nodes, (join nodes).signs = said nodes) (lone : ∀ node, said [node] = node.signs)
    (nodes : List Node) : (collapse join nodes).signs = said nodes := by
  match nodes with
  | [] => exact joined []
  | [node] => exact (lone node).symm
  | node :: next :: rest => exact joined (node :: next :: rest)

/-- There is at least one operand. -/
theorem operands_ne_nil {c : Combinator} {tighter : List Combinator} {phrase : List Symbol}
    {nodes : List Node} (h : Derives (.operands c tighter) phrase nodes) : nodes ≠ [] := by
  cases h <;> simp

/-- The grammar keeps all signs in their order. -/
theorem signs_of_derives {sort : Phrase} {phrase : List Symbol} {nodes : List Node}
    (h : Derives sort phrase nodes) : phrase.flatMap Symbol.signs = sort.signs nodes := by
  induction h with
  | leaf => simp [Symbol.signs, Phrase.signs]
  | paren multiplied =>
    simp [signs_multipliers, Symbol.signs, Phrase.signs, signs_of_multiplyAll multiplied,
      Node.signs]
  | group _ multiplied ih =>
    simp only [Phrase.signs, List.flatMap_singleton] at ih
    simp [signs_multipliers, Symbol.signs, Phrase.signs, signs_of_multiplyAll multiplied, ih]
  | call _ multiplied ih =>
    simp only [Phrase.signs, List.flatMap_singleton] at ih
    simp [signs_multipliers, Symbol.signs, Phrase.signs, signs_of_multiplyAll multiplied, ih,
      Node.signs]
  | noArguments => simp [Phrase.signs, Node.signs]
  | someArguments _ ih => exact ih
  | lastComponent _ ih => exact ih
  | nextComponent _ _ ih ihs =>
    simp only [Phrase.signs, List.flatMap_singleton] at ih ihs
    simp [Phrase.signs, ih, ihs]
  | juxtaposition _ ih =>
    have joined := signs_collapse .juxtaposed (List.flatMap Node.signs)
      (by simp [Node.signs, List.flatMap]) (by simp)
    simpa [Phrase.signs, joined] using ih
  | lastOperand _ ih =>
    simpa [Phrase.signs] using ih
  | nextOperand _ operands ih ihs =>
    simp only [Phrase.signs, List.flatMap_singleton] at ih ihs
    obtain ⟨next, rest, rfl⟩ := List.exists_cons_of_ne_nil (operands_ne_nil operands)
    simp only [List.map_cons] at ihs
    simp [Phrase.signs, Symbol.signs, ih, ihs, List.intercalate_cons_cons]
  | @combination c _ _ _ _ ih =>
    have joined := signs_collapse (fun nodes => .combined c nodes false)
      (fun nodes => [.combinator c].intercalate (nodes.map Node.signs))
      (by simp [Node.signs]) (by simp)
    simpa [Phrase.signs, joined] using ih

/-! ### Items -/

/-- The signs of items, where the given openings are still open before them. -/
def signsOfItems (opened : List Opening) : List Item → List Sign
  | [] => []
  | item :: rest => (item.resolve opened).1.signs ++ signsOfItems (item.resolve opened).2 rest

theorem signs_of_symbols {opened : List Opening} {items : List Item} {phrase : List Symbol}
    (h : symbols opened items = some phrase) :
    phrase.flatMap Symbol.signs = signsOfItems opened items := by
  induction items generalizing opened phrase with
  | nil =>
    rw [symbols] at h
    split_ifs at h
    rw [← Option.some.inj h]
    rfl
  | cons item items ih =>
    obtain ⟨rest, hr, rfl⟩ := symbols_cons_eq_some.mp h
    rw [List.flatMap_cons, ih hr, signsOfItems]

/-- Multipliers make no signs. -/
theorem signsOfItems_multipliers {ms : List Token} (hm : ∀ t ∈ ms, t.isMultiplier)
    (opened : List Opening) (rest : List Item) :
    signsOfItems opened (ms.map .mark ++ rest) = signsOfItems opened rest := by
  induction ms with
  | nil => rfl
  | cons t ms ih =>
    obtain ⟨ht, hm⟩ := List.forall_mem_cons.mp hm
    rw [List.map_cons, List.cons_append, signsOfItems, Item.resolve_of_isMultiplier ht, ih hm]
    rfl

/-- A component with its multipliers applied makes the signs that it makes with them behind it. -/
theorem signsOfItems_of_attach {run : Run} {part before behind : List Item}
    (hm : ∀ t ∈ run.multipliers, t.isMultiplier) (h : run.attach = .ok part)
    (same : ∀ opened, signsOfItems opened before = signsOfItems opened behind)
    (opened : List Opening) :
    signsOfItems opened (part ++ before) = signsOfItems opened (run.items ++ behind) := by
  rcases Run.attach_cases h with ⟨node, whole, hn, multiplied, rfl⟩ | ⟨-, rfl⟩
  · have said : whole.signs = node.signs := signs_of_multiplyAll multiplied
    simp [Run.items, hn, signsOfItems, Item.resolve, Symbol.signs, said,
      signsOfItems_multipliers hm, same]
  · simp [Run.items, signsOfItems, signsOfItems_multipliers hm, same]

/-- Applying the multipliers of components keeps all signs in their order. -/
theorem signs_of_attachMultipliers {items attached : List Item}
    (h : attachMultipliers items = .ok attached) (opened : List Opening) :
    signsOfItems opened attached = signsOfItems opened items := by
  obtain ⟨leading, parts, hp, rfl⟩ := attachMultipliers_eq_ok_iff.mp h
  obtain ⟨hi, hm⟩ := splitRuns_items items
  rw [splitRuns_fst, leading, List.map_nil, List.nil_append] at hi
  rw [← hi]
  generalize (splitRuns items).2 = runs at hp hm
  replace hp := mapM_eq_ok.mp hp
  clear hi leading h
  induction hp generalizing opened with
  | nil => rfl
  | cons attaches _ ih =>
    obtain ⟨first, others⟩ := List.forall_mem_cons.mp hm
    rw [List.flatten_cons, List.flatMap_cons]
    exact signsOfItems_of_attach first attaches (fun opened => ih opened others) opened

/-! ### Tokens -/

/-- What a token says, and what is open after it. -/
theorem resolve_of_classify {known : List String} {t : Token} {item : Item}
    (h : t.classify known = .ok item) (opened : List Opening) :
    (item.resolve opened).1.signs =
      (if t.closesFunction opened then [] else (t.sign? known).toList) ∧
    (item.resolve opened).2 = t.opens opened := by
  obtain ⟨kind, text, position⟩ := t
  cases kind
  case keyword =>
    simp only [Token.classify, TokenKind.isStructural, Bool.false_eq_true, if_false] at h
    split_ifs at h
    obtain rfl := Except.ok.inj h
    exact ⟨rfl, rfl⟩
  case parenClose =>
    obtain rfl := Except.ok.inj h
    cases opened with
    | nil => exact ⟨rfl, rfl⟩
    | cons first outer => cases first <;> exact ⟨rfl, rfl⟩
  case combinator =>
    obtain rfl := Except.ok.inj h
    refine ⟨?_, rfl⟩
    simp only [Item.resolve, Item.isMark_mark, Item.symbol_mark, Token.symbol, Token.sign?,
      Token.closesFunction]
    cases Token.combinator? ⟨.combinator, text, position⟩ <;> rfl
  all_goals
    obtain rfl := Except.ok.inj h
    exact ⟨rfl, rfl⟩

theorem signs_of_classify {known : List String} {ts : List Token} {items : List Item}
    (h : ts.mapM (Token.classify known) = .ok items) (opened : List Opening) :
    signsOfItems opened items =
      (withoutFunctionEnds opened ts).filterMap (Token.sign? known) := by
  replace h := mapM_eq_ok.mp h
  induction h generalizing opened with
  | nil => rfl
  | @cons t item ts items first _ ih =>
    obtain ⟨said, left⟩ := resolve_of_classify first opened
    rw [signsOfItems, said, left, ih, withoutFunctionEnds]
    split_ifs with closes
    · rfl
    · rw [List.filterMap_cons]
      cases t.sign? known <;> rfl

/-! ### Leaves and seams -/

theorem intercalate_cons (sign : Sign) (first : List Sign) (others : List (List Sign)) :
    [sign].intercalate (first :: others) = first ++ others.flatMap (sign :: ·) := by
  induction others generalizing first with
  | nil => simp
  | cons next others ih =>
    rw [List.intercalate_cons_cons, ih, List.flatMap_cons]
    simp

/-- A combinator between signs is no leaf. -/
theorem filter_intercalate (c : Combinator) (parts : List (List Sign)) :
    ([.combinator c].intercalate parts).filter Sign.isLeaf =
      parts.flatMap (List.filter Sign.isLeaf) := by
  cases parts with
  | nil => rfl
  | cons first others =>
    rw [intercalate_cons, List.filter_append, List.filter_flatMap, List.flatMap_cons]
    rfl

mutual

/-- The leaves of a tree are its signs but for the combinators. -/
theorem leaves_eq_filter : ∀ node : Node, node.leaves = node.signs.filter Sign.isLeaf
  | .leaf .. => rfl
  | .function _ arguments _ => by
    rw [Node.leaves, Node.signs, leaves_eq_filter arguments]
    rfl
  | .sequence items _ _ => by
    rw [Node.leaves, Node.signs, leavesOfAll_eq_filter, Node.signsOfEach_eq, List.filter_flatten,
      List.flatMap, List.map_map]
    rfl
  | .combined c items _ => by
    rw [Node.leaves, Node.signs, leavesOfAll_eq_filter, Node.signsOfEach_eq, filter_intercalate,
      List.flatMap_map]

theorem leavesOfAll_eq_filter : ∀ items : List Node,
    Node.leavesOfAll items = items.flatMap fun item => item.signs.filter Sign.isLeaf
  | [] => rfl
  | item :: rest => by
    rw [Node.leavesOfAll, leaves_eq_filter item, leavesOfAll_eq_filter rest, List.flatMap_cons]

end

theorem leaf?_eq_filter (known : List String) (ts : List Token) :
    ts.filterMap (Token.leaf? known) = (ts.filterMap (Token.sign? known)).filter Sign.isLeaf := by
  rw [List.filter_filterMap]
  refine List.filterMap_congr fun t _ => ?_
  obtain ⟨kind, text, position⟩ := t
  cases kind
  case combinator =>
    simp only [Token.leaf?, Token.sign?, if_true]
    cases Token.combinator? ⟨.combinator, text, position⟩ <;> rfl
  all_goals rfl

/-- Between the parts of a combination stands its combinator, once less than there are parts. -/
theorem count_intercalate (c c' : Combinator) {parts : List (List Sign)} (filled : parts ≠ []) :
    (([.combinator c'].intercalate parts).count (.combinator c) : Int) =
      (if c' = c then (parts.length : Int) - 1 else 0) +
        (parts.map fun part => (part.count (.combinator c) : Int)).sum := by
  obtain ⟨first, others, rfl⟩ := List.exists_cons_of_ne_nil filled
  rw [intercalate_cons]
  clear filled
  induction others with
  | nil => simp
  | cons next others ih =>
    simp only [List.flatMap_cons, List.count_append, List.count_cons, List.map_cons, List.sum_cons,
      List.length_cons, beq_iff_eq, Sign.combinator.injEq] at ih ⊢
    split_ifs at ih ⊢ <;> omega

/-- The seams of a tree are the combinators among its signs. -/
theorem joints_eq_count {known : List String} {node : Node} (h : Shaped known node)
    (c : Combinator) : node.joints c = node.signs.count (.combinator c) := by
  have joint {items : List Node}
      (ih : ∀ item ∈ items, item.joints c = item.signs.count (.combinator c)) :
      Node.jointsOfAll c items =
        (items.map fun item => (item.signs.count (.combinator c) : Int)).sum := by
    rw [Node.jointsOfAll_eq, List.map_congr_left ih]
  induction h with
  | function _ ih => simpa [Node.joints, Node.signs] using ih
  | juxtaposition _ _ ih =>
    rw [Node.joints, joint ih]
    simp [Node.signs, List.count_flatten, Nat.cast_list_sum, Function.comp_def]
  | repetition _ _ ih => simpa [Node.joints, Node.signs] using ih
  | @combination c' items several _ ih =>
    have filled : items.map Node.signs ≠ [] := by
      rintro empty
      simp [List.map_eq_nil_iff.mp empty] at several
    rw [Node.joints, joint ih, Node.signs, Node.signsOfEach_eq, count_intercalate _ _ filled]
    simp [Function.comp_def]
  | _ => simp [Node.joints, Node.signs]

theorem sign?_eq_combinator (known : List String) (c : Combinator) (t : Token) :
    t.sign? known = some (.combinator c) ↔ t.kind = .combinator ∧ t.text = c.symbol := by
  unfold Token.sign?
  split_ifs with spelled
  · simp [spelled, Token.combinator?_eq_some]
  · obtain ⟨kind, text, position⟩ := t
    cases kind <;> simp_all [Token.leaf?]

/-- No combinator closes a function. -/
theorem countP_withoutFunctionEnds {p : Token → Bool} (silent : ∀ t, t.kind = .parenClose → ¬ p t)
    (opened : List Opening) (ts : List Token) :
    (withoutFunctionEnds opened ts).countP p = ts.countP p := by
  induction ts generalizing opened with
  | nil => rfl
  | cons t ts ih =>
    rw [withoutFunctionEnds]
    split_ifs with closes
    · have unseen : ¬ p t := silent t (by simp_all [Token.closesFunction])
      rw [ih, List.countP_cons_of_neg unseen]
    · rw [List.countP_cons, List.countP_cons, ih]

/-! ### Definitions -/

/-- A tree says what its text says, in the same order. -/
theorem signs_of_parse {text : String} {extraPrimitives : List String} {node : Node}
    (h : parse text extraPrimitives = .ok node) :
    ∃ ts, tokens (Text.strip text) = .ok ts ∧
      node.signs = (withoutFunctionEnds [] ts).filterMap
        (Token.sign? (primitives ++ extraPrimitives)) := by
  obtain ⟨ts, attached, phrase, ht, ⟨items, hc, ha⟩, hs, hd⟩ := exists_of_parse h
  refine ⟨ts, ht, ?_⟩
  calc node.signs = phrase.flatMap Symbol.signs := by
        simpa [Phrase.signs] using (signs_of_derives hd).symm
    _ = signsOfItems [] attached := signs_of_symbols hs
    _ = signsOfItems [] items := (signs_of_attachMultipliers ha [])
    _ = _ := signs_of_classify hc []

/-- Nothing of a definition is lost, and nothing of it is used twice: from left to right, the leaves
of its tree are its tokens that name something, and its combinations have a seam for each of its
combinators. -/
theorem leaves_of_parse {text : String} {extraPrimitives : List String} {node : Node}
    (h : parse text extraPrimitives = .ok node) :
    ∃ ts, tokens (Text.strip text) = .ok ts ∧
      node.leaves = (withoutFunctionEnds [] ts).filterMap
        (Token.leaf? (primitives ++ extraPrimitives)) ∧
      ∀ c : Combinator,
        node.joints c = ts.countP fun t => t.kind = .combinator ∧ t.text = c.symbol := by
  obtain ⟨ts, ht, said⟩ := signs_of_parse h
  refine ⟨ts, ht, ?_, fun c => ?_⟩
  · rw [leaf?_eq_filter, ← said, leaves_eq_filter]
  · have silent (t : Token) (closing : t.kind = .parenClose) :
        ¬ decide (t.kind = .combinator ∧ t.text = c.symbol) := by
      simp [closing]
    rw [joints_eq_count (parseInvariant_shaped.of_parse h), said, List.count_filterMap,
      ← countP_withoutFunctionEnds silent []]
    simp only [beq_eq_decide, sign?_eq_combinator]

theorem leaves_of_parse_parens :
    let tree := Node.juxtaposed [.required .string "(",
      .function "f" (.combined .oneOf [.required .primitive "x", .required .keyword "a"] false)
        false, .required .string ")", .required .string "/", .leaf .keyword "b" true]
    parse "( f(<x [0,∞]> | a) ) / b?" ["x"] = .ok tree ∧
      tree.leaves = [.leaf .string "(", .call "f", .leaf .primitive "x", .leaf .keyword "a",
        .leaf .string ")", .leaf .string "/", .leaf .keyword "b"] ∧
      tree.joints .oneOf = 1 := by
  have parsed : parse "( f(<x [0,∞]> | a) ) / b?" ["x"] = .ok (.juxtaposed [.required .string "(",
      .function "f" (.combined .oneOf [.required .primitive "x", .required .keyword "a"] false)
        false, .required .string ")", .required .string "/", .leaf .keyword "b" true]) := by
    rfl
  obtain ⟨ts, ht, leaves, joints⟩ := leaves_of_parse parsed
  obtain rfl := Except.ok.inj ht
  exact ⟨parsed, leaves, joints .oneOf⟩

end WebSpec.Value
