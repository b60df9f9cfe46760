import WebSpec.Proofs.Value.Denotation

/-!
# Invariants of parsing

What every tree has that parsing gives, if the leaves have it and all ways to build a tree keep it.
Nodes that take multipliers may need more than that: a leaf or a function takes its own, while a
group may be any tree. `ParseInvariant` says what is to be shown, and `ParseInvariant.of_parse` what
follows, by induction on the derivation of the tree.
-/

namespace WebSpec.Value

/-- All trees that parsing gives are `p`, and those that take multipliers without brackets around
them are `q`. -/
structure ParseInvariant (known : List String) (p q : Node → Prop) : Prop where
  leaf {t : Token} {node : Node} (h : t.classify known = .ok (.node node)) : q node
  /-- A parenthesis that belongs to no function. -/
  literal (text : String) : q (.required .string text)
  call {name : String} {arguments : Node} (h : p arguments ∨ arguments = .juxtaposed []) :
    q (.function name arguments false)
  multiplied {node whole : Node} {ts : List Token} (h : q node)
    (he : multiplyAll node false ts = .ok whole) : p whole
  group {node whole : Node} {ts : List Token} (h : p node)
    (he : multiplyAll node true ts = .ok whole) : p whole
  juxtaposition {items : List Node} (several : 2 ≤ items.length) (h : ∀ item ∈ items, p item) :
    p (.juxtaposed items)
  combination {c : Combinator} {items : List Node} (several : 2 ≤ items.length)
    (h : ∀ item ∈ items, p item) : p (.combined c items false)
  unwrap {node : Node} (h : p node) : p (unwrap node)

/-! ### Multipliers -/

/-- What each of the multipliers keeps that follow another one, all of them keep. -/
theorem holds_multiplyRest {p : Node → Prop}
    (step : ∀ {previous t : Token} {node whole : Node}, p node →
      multiplyNext previous t node = .ok whole → p whole)
    {previous : Token} {node whole : Node} {ts : List Token} (h : p node)
    (he : multiplyRest previous node ts = .ok whole) : p whole := by
  induction ts generalizing previous node with
  | nil =>
    obtain rfl := Except.ok.inj he
    exact h
  | cons t ts ih =>
    obtain ⟨next, hn, he⟩ := bind_eq_ok.mp he
    exact ih (step h hn) he

/-! ### Components of a list of items -/

/-- The components that tokens make are leaves. -/
theorem exists_leaf_of_classify {known : List String} {t : Token} {node : Node}
    (h : t.classify known = .ok (.node node)) : ∃ kind text, node = .required kind text := by
  unfold Token.classify at h
  split at h
  · cases h
  split at h
  case h_6 =>
    split_ifs at h
    exact ⟨_, _, (Item.node.inj (Except.ok.inj h)).symm⟩
  all_goals exact ⟨_, _, (Item.node.inj (Except.ok.inj h)).symm⟩

theorem Item.eq_of_resolve_component {item : Item} {opened : List Opening} {node : Node}
    (h : (item.resolve opened).1 = .component node) : item = .node node := by
  apply Item.symbol_eq_component.mp
  unfold Item.resolve at h
  split_ifs at h
  · exact h
  · exact h
  · split at h
    · cases h
    · exact h
  · exact h

/-- The components among the symbols of items are those of the items. -/
theorem component_mem_of_symbols {opened : List Opening} {items : List Item}
    {phrase : List Symbol} (h : symbols opened items = some phrase) {node : Node}
    (hn : .component node ∈ phrase) : .node node ∈ items := by
  induction items generalizing opened phrase with
  | nil =>
    simp only [symbols] at h
    split_ifs at h
    obtain rfl := Option.some.inj h
    cases hn
  | cons item items ih =>
    obtain ⟨others, ho, rfl⟩ := Option.map_eq_some_iff.mp h
    rcases List.mem_cons.mp hn with same | hn
    · rw [Item.eq_of_resolve_component same.symm]
      exact List.mem_cons_self
    · exact List.mem_cons_of_mem item (ih ho hn)

/-- What phrases of a sort stand for, if their components are `p`. -/
def Phrase.Holds (p : Node → Prop) : Phrase → List Node → Prop
  | .arguments, nodes => ∀ node ∈ nodes, p node ∨ node = .juxtaposed []
  | _, nodes => nodes ≠ [] ∧ ∀ node ∈ nodes, p node

/-- Several nodes as one, where a lone node stands for itself. -/
theorem holds_collapse {p : Node → Prop} (join : List Node → Node) {nodes : List Node}
    (filled : nodes ≠ []) (h : ∀ node ∈ nodes, p node) (joined : 2 ≤ nodes.length → p (join nodes)) :
    p (collapse join nodes) := by
  match nodes with
  | [node] => exact h node List.mem_cons_self
  | _ :: _ :: _ => exact joined (by simp)

namespace ParseInvariant

variable {known : List String} {p q : Node → Prop} (inv : ParseInvariant known p q)
include inv

theorem of_attach {run : Run} {items : List Item} (h : ∀ node, run.item = .node node → q node)
    (he : run.attach = .ok items) : ∀ node, .node node ∈ items → p node := by
  rcases Run.attach_cases he with ⟨node, whole, hn, hw, rfl⟩ | ⟨⟨t, ht⟩, rfl⟩
  · intro node' hn'
    obtain rfl := Item.node.inj (List.mem_singleton.mp hn')
    exact inv.multiplied (h node hn) hw
  · intro node hn
    simp [Run.items, ht] at hn

/-- The components that tokens become. -/
theorem of_attaches {ts : List Token} {attached : List Item} (h : Attaches known ts attached) :
    ∀ node, .node node ∈ attached → p node := by
  obtain ⟨items, hc, ha⟩ := h
  obtain ⟨leading, parts, hp, rfl⟩ := attachMultipliers_eq_ok_iff.mp ha
  have hitems : (splitRuns items).2.flatMap Run.items = items := by
    have hi := (splitRuns_items items).1
    rwa [splitRuns_fst, leading, List.map_nil, List.nil_append] at hi
  intro node hn
  obtain ⟨part, hpart, hn⟩ := List.mem_flatten.mp hn
  obtain ⟨run, hr, ha⟩ := exists_of_mem_mapM_eq_ok hp hpart
  refine inv.of_attach (fun node' same => ?_) ha node hn
  have mem : run.item ∈ items := by
    rw [← hitems, List.mem_flatMap]
    exact ⟨run, hr, List.mem_cons_self⟩
  obtain ⟨t, -, classified⟩ := exists_of_mem_mapM_eq_ok hc (same ▸ mem)
  exact inv.leaf classified

/-! ### Trees -/

/-- The nodes that a phrase stands for. -/
theorem of_derives {sort : Phrase} {phrase : List Symbol} {nodes : List Node}
    (h : Derives sort phrase nodes) (hs : ∀ node, .component node ∈ phrase → p node) :
    sort.Holds p nodes := by
  induction h with
  | leaf => exact ⟨by simp, by simpa using hs⟩
  | @paren text _ _ multiplied =>
    have whole := inv.multiplied (inv.literal text) multiplied
    exact ⟨by simp, by simpa using whole⟩
  | group _ multiplied ih =>
    obtain ⟨-, inner⟩ := ih fun node hn => hs node (by simp [hn])
    have whole := inv.group (inner _ List.mem_cons_self) multiplied
    exact ⟨by simp, by simpa using whole⟩
  | call _ multiplied ih =>
    have arguments := ih (fun node hn => hs node (by simp [hn])) _ List.mem_cons_self
    have whole := inv.multiplied (inv.call arguments) multiplied
    exact ⟨by simp, by simpa using whole⟩
  | noArguments => exact fun node hn => .inr (List.mem_singleton.mp hn)
  | someArguments _ ih => exact fun node hn => .inl ((ih hs).2 node hn)
  | lastComponent _ ih => exact ih hs
  | nextComponent _ _ ih ihs =>
    obtain ⟨-, first⟩ := ih fun node hn => hs node (by simp [hn])
    obtain ⟨-, others⟩ := ihs fun node hn => hs node (by simp [hn])
    exact ⟨by simp, List.forall_mem_cons.mpr ⟨first _ List.mem_cons_self, others⟩⟩
  | juxtaposition _ ih =>
    obtain ⟨filled, nodes⟩ := ih hs
    have whole := holds_collapse .juxtaposed filled nodes fun several =>
      inv.juxtaposition several nodes
    exact ⟨by simp, by simpa using whole⟩
  | lastOperand _ ih => exact ih hs
  | nextOperand _ _ ih ihs =>
    obtain ⟨-, first⟩ := ih fun node hn => hs node (by simp [hn])
    obtain ⟨-, others⟩ := ihs fun node hn => hs node (by simp [hn])
    exact ⟨by simp, List.forall_mem_cons.mpr ⟨first _ List.mem_cons_self, others⟩⟩
  | @combination c _ _ _ _ ih =>
    obtain ⟨filled, nodes⟩ := ih hs
    have whole := holds_collapse (.combined c · false) filled nodes fun several =>
      inv.combination several nodes
    exact ⟨by simp, by simpa using whole⟩

theorem of_assemble {ts : List Token} {attached : List Item} {node : Node}
    (h : Attaches known ts attached) (assembled : assemble attached = .ok node) : p node := by
  obtain ⟨phrase, hs, hd⟩ := assemble_eq_ok_iff.mp assembled
  have components := inv.of_attaches h
  exact (inv.of_derives hd fun node hn =>
    components node (component_mem_of_symbols hs hn)).2 node List.mem_cons_self

end ParseInvariant

/-- An invariant holds of every tree that parsing gives. -/
theorem ParseInvariant.of_parse {p q : Node → Prop} {text : String}
    {extraPrimitives : List String} {node : Node}
    (inv : ParseInvariant (primitives ++ extraPrimitives) p q)
    (h : parse text extraPrimitives = .ok node) : p node := by
  simp only [parse] at h
  split_ifs at h with blank
  cases hp : parseStripped (primitives ++ extraPrimitives) (Text.strip text) with
  | error => simp [hp, Except.mapError] at h
  | ok whole =>
    obtain rfl : whole = node := by simpa [hp, Except.mapError] using h
    obtain ⟨ts, -, hp⟩ := bind_eq_ok.mp hp
    obtain ⟨items, hc, hp⟩ := bind_eq_ok.mp hp
    obtain ⟨attached, ha, hp⟩ := bind_eq_ok.mp hp
    obtain ⟨tree, assembled, hp⟩ := bind_eq_ok.mp hp
    obtain rfl : Value.unwrap tree = whole := Except.ok.inj hp
    exact inv.unwrap (inv.of_assemble ⟨items, hc, ha⟩ assembled)

end WebSpec.Value
