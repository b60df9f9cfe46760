import WebSpec.Proofs.Value.Invariant

/-!
# The shape of parsed grammars

What every tree that parsing gives looks like: combinations and juxtapositions have at least two
components, a repetition has one, an empty sequence is what a function without arguments has, and
only leaves, functions and repetitions may be optional.

A node that multipliers have been applied to is `Multipliable` again, which is what a further
multiplier needs: `?` marks a node that may be marked, and a range after `#` finds the list that the
`#` made. So the shape is an invariant of parsing (`parseInvariant_shaped`).
-/

namespace WebSpec.Value

/-- Repetitions of parsed grammars. -/
structure Repetition.IsProper (r : Repetition) : Prop where
  isStated : r.isStated = true
  separator : r.separator = none ∨ r.separator = some ","
  /-- The bounds are in order, where both are given. -/
  ordered : ∀ least ∈ r.least, ∀ greatest ∈ r.greatest, least ≤ greatest

/-- Trees of the shape that parsing gives, where the given primitive types are known. -/
inductive Shaped (primitives : List String) : Node → Prop where
  | keyword {name isOptional} (starts : startsKeyword name = true) :
      Shaped primitives (.leaf .keyword name isOptional)
  | primitive {name isOptional} (known : name ∈ primitives) :
      Shaped primitives (.leaf .primitive name isOptional)
  | valueSpace {name isOptional} (unknown : name ∉ primitives) :
      Shaped primitives (.leaf .valueSpace name isOptional)
  | propertyRef {name isOptional} : Shaped primitives (.leaf .propertyRef name isOptional)
  | string {text isOptional} : Shaped primitives (.leaf .string text isOptional)
  | function {name arguments isOptional} (h : Shaped primitives arguments) :
      Shaped primitives (.function name arguments isOptional)
  | noArguments {name isOptional} :
      Shaped primitives (.function name (.sequence [] {} false) isOptional)
  | juxtaposition {items} (several : 2 ≤ items.length)
      (h : ∀ item ∈ items, Shaped primitives item) : Shaped primitives (.sequence items {} false)
  | repetition {item repetition isOptional} (h : Shaped primitives item)
      (proper : repetition.IsProper) : Shaped primitives (.sequence [item] repetition isOptional)
  | combination {combinator items} (several : 2 ≤ items.length)
      (h : ∀ item ∈ items, Shaped primitives item) :
      Shaped primitives (.combined combinator items false)

variable {known : List String}

/-- There is no wrapper to take off. -/
theorem Shaped.unwrap {node : Node} (h : Shaped known node) : unwrap node = node := by
  cases h with
  | @juxtaposition items several =>
    match items with
    | _ :: _ :: _ => rfl
  | repetition _ proper => simp [Value.unwrap, proper.isStated]
  | _ => rfl

/-! ### Multipliers -/

/-- Nodes that may be marked as optional, and whose bounds may be set if they are sequences. -/
inductive Multipliable : Node → Prop where
  | leaf {kind text isOptional} : Multipliable (.leaf kind text isOptional)
  | function {name arguments isOptional} : Multipliable (.function name arguments isOptional)
  | repetition {item repetition isOptional} (proper : repetition.IsProper) :
      Multipliable (.sequence [item] repetition isOptional)

theorem Multipliable.makeOptional {node : Node} (h : Multipliable node) :
    Multipliable node.makeOptional := by
  cases h with
  | leaf => exact .leaf
  | function => exact .function
  | repetition proper => exact .repetition proper

theorem Shaped.makeOptional {node : Node} (h : Shaped known node) (hm : Multipliable node) :
    Shaped known node.makeOptional := by
  cases h with
  | keyword starts => exact .keyword starts
  | primitive listed => exact .primitive listed
  | valueSpace unlisted => exact .valueSpace unlisted
  | propertyRef => exact .propertyRef
  | string => exact .string
  | function h => exact .function h
  | noArguments => exact .noArguments
  | juxtaposition several =>
    obtain _ | _ | ⟨proper⟩ := hm
    exact absurd proper.isStated (by decide)
  | repetition h proper => exact .repetition h proper
  | combination => cases hm

/-- A repeated node. -/
theorem Shaped.repeated {node : Node} {r : Repetition} (h : Shaped known node)
    (proper : r.IsProper) (isOptional : Bool := false) :
    Shaped known (.sequence [node] r isOptional) ∧ Multipliable (.sequence [node] r isOptional) :=
  ⟨.repetition h proper, .repetition proper⟩

/-- What a multiplier makes of a node, which may be any node if it is a group. -/
theorem shaped_of_multiply {t : Token} {node whole : Node} {isGroup : Bool}
    (h : Shaped known node) (hm : isGroup = false → Multipliable node)
    (he : multiply t node isGroup = .ok whole) : Shaped known whole ∧ Multipliable whole := by
  have least (n : Int) : Repetition.IsProper { least := some n } := ⟨rfl, .inl rfl, by simp⟩
  unfold multiply at he
  split_ifs at he with range star plus list optional group some group
  · obtain ⟨⟨low, high⟩, bounds, he⟩ := bind_eq_ok.mp he
    obtain rfl := Except.ok.inj he
    exact h.repeated ⟨rfl, .inl rfl, by simpa using (isRange_of_rangeBounds bounds).ordered⟩
  · obtain rfl := Except.ok.inj he
    exact h.repeated (least 0)
  · obtain rfl := Except.ok.inj he
    exact h.repeated (least 1)
  · obtain rfl := Except.ok.inj he
    exact h.repeated ⟨rfl, .inr rfl, by simp⟩
  · obtain rfl := Except.ok.inj he
    exact h.repeated ⟨rfl, .inl rfl, by simp⟩
  · obtain rfl := Except.ok.inj he
    have markable := hm (by simpa using group)
    exact ⟨h.makeOptional markable, markable.makeOptional⟩
  · obtain rfl := Except.ok.inj he
    exact h.repeated (least 1)

/-- What a multiplier makes of a node that others have been applied to. -/
theorem shaped_of_multiplyNext {previous t : Token} {node whole : Node} (h : Shaped known node)
    (hm : Multipliable node) (he : multiplyNext previous t node = .ok whole) :
    Shaped known whole ∧ Multipliable whole := by
  unfold multiplyNext at he
  split at he
  · rename_i items r isOptional
    split_ifs at he with fuses
    · obtain ⟨⟨low, high⟩, bounds, he⟩ := bind_eq_ok.mp he
      obtain rfl := Except.ok.inj he
      obtain _ | _ | ⟨proper⟩ := hm
      cases h with
      | juxtaposition several => simp at several
      | repetition h =>
        have bounded : Repetition.IsProper { r with least := some low, greatest := high } :=
          ⟨rfl, proper.separator, by simpa using (isRange_of_rangeBounds bounds).ordered⟩
        exact h.repeated bounded _
    · exact shaped_of_multiply h (fun _ => hm) he
  · exact shaped_of_multiply h (fun _ => hm) he

theorem shaped_of_multiplyAll {node whole : Node} {isGroup : Bool} {ts : List Token}
    (h : Shaped known node) (hm : isGroup = false → Multipliable node)
    (he : multiplyAll node isGroup ts = .ok whole) : Shaped known whole := by
  cases ts with
  | nil =>
    obtain rfl := Except.ok.inj he
    exact h
  | cons t ts =>
    obtain ⟨next, hn, he⟩ := bind_eq_ok.mp he
    have first := shaped_of_multiply h hm hn
    exact (holds_multiplyRest (fun h => shaped_of_multiplyNext h.1 h.2) first he).1

/-! ### Trees -/

/-- The components that tokens make are leaves. -/
theorem shaped_of_classify {t : Token} {node : Node} (h : t.classify known = .ok (.node node)) :
    Shaped known node ∧ Multipliable node := by
  unfold Token.classify at h
  split at h
  · cases h
  split at h
  · obtain rfl := Item.node.inj (Except.ok.inj h)
    exact ⟨.string, .leaf⟩
  · obtain rfl := Item.node.inj (Except.ok.inj h)
    exact ⟨.string, .leaf⟩
  · obtain rfl := Item.node.inj (Except.ok.inj h)
    exact ⟨.string, .leaf⟩
  · obtain rfl := Item.node.inj (Except.ok.inj h)
    exact ⟨.propertyRef, .leaf⟩
  · obtain rfl := Item.node.inj (Except.ok.inj h)
    refine ⟨?_, .leaf⟩
    split_ifs with listed
    · exact .primitive (by simpa using listed)
    · exact .valueSpace (by simpa using listed)
  · split_ifs at h with word
    obtain rfl := Item.node.inj (Except.ok.inj h)
    exact ⟨.keyword (Bool.and_eq_true_iff.mp word).2, .leaf⟩

/-- Parsing gives shaped trees, and those that take multipliers without brackets around them can be
multiplied. -/
theorem parseInvariant_shaped :
    ParseInvariant known (Shaped known) fun node => Shaped known node ∧ Multipliable node where
  leaf := shaped_of_classify
  literal _ := ⟨.string, .leaf⟩
  call h := by
    rcases h with h | rfl
    · exact ⟨.function h, .function⟩
    · exact ⟨.noArguments, .function⟩
  multiplied h he := shaped_of_multiplyAll h.1 (fun _ => h.2) he
  group h he := shaped_of_multiplyAll h (by simp) he
  juxtaposition := .juxtaposition
  combination := .combination
  unwrap h := h.unwrap.symm ▸ h

/-- Whatever the text and the extra primitive types, a tree that parsing gives is shaped. -/
theorem shaped_of_parse {text : String} {extraPrimitives : List String} {node : Node}
    (h : parse text extraPrimitives = .ok node) :
    Shaped (primitives ++ extraPrimitives) node :=
  parseInvariant_shaped.of_parse h

theorem shaped_of_parse_listOrCall :
    let tree := Node.combined .oneOf [.leaf .keyword "auto" true,
      .juxtaposed [.function "f" (.juxtaposed []) false,
        .sequence [.required .primitive "x"]
          { least := some 1, greatest := some 2, separator := some "," } false]] false
    parse "auto? | f() <x>#\x7b1,2\x7d" ["x"] = .ok tree ∧ Shaped (primitives ++ ["x"]) tree := by
  have parsed : parse "auto? | f() <x>#\x7b1,2\x7d" ["x"] = .ok (.combined .oneOf
      [.leaf .keyword "auto" true, .juxtaposed [.function "f" (.juxtaposed []) false,
        .sequence [.required .primitive "x"]
          { least := some 1, greatest := some 2, separator := some "," } false]] false) := by
    rfl
  exact ⟨parsed, shaped_of_parse parsed⟩

end WebSpec.Value
