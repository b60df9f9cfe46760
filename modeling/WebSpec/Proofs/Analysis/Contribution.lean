import WebSpec.Proofs.Analysis.Findings

/-!
# What a definition contributes

`Source` says where the entries of a definition's plan come from, all of them (`source_of_mem`) and
nothing else (`Source.mem`). The rest is read off it. `Contributes` says which name a definition makes
another one depend on, and `depend_mem_entries` shows that the entries of its plan are that relation.
`Finding` says which other entries there are; those that are not plain say where the definition is
visible (`mem_entries`). What is read off these only is `AboutExposure`, and no more of the plan has to
be looked at for it (`AboutExposure.flatMap_entries`).
-/

namespace WebSpec.Analysis

open Idl (Argument Node NodeKind)

variable {wellKnown : List String} {n d : String}

/-! ### Kinds of definitions -/

/-- The kinds of definitions with members, other than enumerations. -/
def containerKinds : List (Option NodeKind) :=
  [some .interface, some .interfaceMixin, some .dictionary, some .namespaceDefinition,
   some .callbackInterface]

/-- Definitions with members, other than enumerations. -/
def IsContainer (node : Node) : Prop :=
  node.kind.meaning? ∈ containerKinds

/-- Definitions whose extended attributes say where they are visible. -/
def IsExposed (node : Node) : Prop :=
  ¬ node.isPartial ∧ node.kind.meaning? ∈
    [some .interface, some .interfaceMixin, some .namespaceDefinition]

instance : DecidablePred IsExposed := fun node =>
  inferInstanceAs (Decidable (¬ _ ∧ node.kind.meaning? ∈ _))

theorem IsExposed.isContainer {node : Node} (h : IsExposed node) : IsContainer node := by
  have kind := h.2
  simp only [IsContainer, containerKinds]
  grind

/-- Statements that relate two names. -/
def IsStatement (node : Node) : Prop :=
  node.kind.meaning? = some .includes ∨ node.kind.meaning? = some .implements

theorem IsContainer.not_isStatement {node : Node} (h : IsContainer node) : ¬ IsStatement node := by
  rintro (statement | statement) <;> simp [IsContainer, containerKinds, statement] at h

theorem IsContainer.meaning_ne {node : Node} (h : IsContainer node) {kind : Option NodeKind}
    (other : kind ∉ containerKinds) : node.kind.meaning? ≠ kind :=
  fun same => other (same ▸ h)

/-! ### Where findings come from -/

/-- The types that a definition is made of. -/
inductive MadeOf (node : Node) : TypeExpr → Prop where
  /-- What a typedef stands for, or what a callback returns. -/
  | own {type}
      (kind : node.kind.meaning? = some .typedef ∨ node.kind.meaning? = some .callback)
      (h : node.type = some type) : MadeOf node type
  | argument {a : Argument} (kind : node.kind.meaning? = some .callback)
      (h : a ∈ node.arguments) : MadeOf node a.type
  | member {m type} (kind : IsContainer node ∨ node.kind.meaning? = some .enumeration)
      (h : m ∈ node.members) (used : MemberUses m type) : MadeOf node type

/-- Where an entry of a definition's plan comes from. -/
inductive Source (wellKnown : List String) (node : Node) : Entry → Prop where
  | extend (kind : IsContainer node) (h : node.isPartial) :
      Source wellKnown node (.extend node.name node)
  /-- A partial definition refers to the name that it adds to. -/
  | itself (kind : IsContainer node) (h : node.isPartial) :
      Source wellKnown node (.depend node.name node.name)
  | inherited {parent e} (kind : IsContainer node) (h : node.inheritance = some parent)
      (nonempty : parent ≠ "") (found : e = .depend node.name parent ∨ e = .use parent) :
      Source wellKnown node e
  | type {type e} (h : MadeOf node type) (found : e ∈ typeEntries wellKnown node.name type) :
      Source wellKnown node e
  | exposure {e} (kind : IsExposed node) (found : e ∈ exposureEntries wellKnown node) :
      Source wellKnown node e
  | relation {e} (kind : IsStatement node) (found : e ∈ (relationPlan node).entries) :
      Source wellKnown node e
  | unknown (found : .remark (.diagnostic (unknownDefinition node)) ∈
      (definitionPlan wellKnown node).entries) :
      Source wellKnown node (.remark (.diagnostic (unknownDefinition node)))

section

variable {node : Node} {e : Entry}

theorem mem_inheritedEntries :
    e ∈ ((node.inheritance.filter (· ≠ "")).toList.flatMap fun parent =>
      [Entry.depend node.name parent, .use parent]) ↔
        ∃ parent, node.inheritance = some parent ∧ parent ≠ "" ∧
          (e = .depend node.name parent ∨ e = .use parent) := by
  cases h : node.inheritance with
  | none => simp
  | some parent =>
    by_cases hp : parent = "" <;> simp [Option.filter, hp]

theorem mem_containerPlan {kind : NodeKind} :
    e ∈ (containerPlan wellKnown kind node).entries ↔
      node.isPartial ∧ (e = .extend node.name node ∨ e = .depend node.name node.name) ∨
      (∃ parent, node.inheritance = some parent ∧ parent ≠ "" ∧
        (e = .depend node.name parent ∨ e = .use parent)) ∨
      (¬ node.isPartial ∧ isExposable kind) ∧ e ∈ exposureEntries wellKnown node ∨
      e ∈ memberEntries wellKnown node.name node := by
  rw [← mem_inheritedEntries]
  by_cases hp : node.isPartial
  · simp [containerPlan, hp, or_assoc]
  · by_cases he : isExposable kind
    · simp [containerPlan, hp, he]
    · simp [containerPlan, hp, he]

theorem IsContainer.exists_plan (container : IsContainer node) (wellKnown : List String) :
    ∃ kind, node.kind.meaning? = some kind ∧
      definitionPlan wellKnown node = containerPlan wellKnown kind node ∧
        (IsExposed node ↔ ¬ node.isPartial ∧ isExposable kind) := by
  have kinds := container
  simp only [IsContainer, containerKinds, List.mem_cons, List.not_mem_nil, or_false] at kinds
  rcases kinds with hk | hk | hk | hk | hk <;>
    exact ⟨_, hk, by simp only [definitionPlan, hk], by simp [IsExposed, isExposable, hk]⟩

/-- The findings of a definition with members that is not partial, in order. -/
theorem entries_of_isWhole (wellKnown : List String) (container : IsContainer node)
    (isWhole : ¬ node.isPartial) :
    (definitionPlan wellKnown node).entries = ((node.inheritance.filter (· ≠ "")).toList.flatMap
      fun parent => [.depend node.name parent, .use parent]) ++
        (if IsExposed node then exposureEntries wellKnown node else []) ++
          memberEntries wellKnown node.name node := by
  obtain ⟨kind, -, plan, exposed⟩ := container.exists_plan wellKnown
  rw [plan, containerPlan, if_neg isWhole, if_congr (exposed.trans (and_iff_right isWhole)) rfl rfl]

theorem mem_entries_of_isContainer (container : IsContainer node) :
    e ∈ (definitionPlan wellKnown node).entries ↔ Source wellKnown node e := by
  obtain ⟨kind, -, plan, exposed⟩ := container.exists_plan wellKnown
  rw [plan, mem_containerPlan, ← exposed, mem_memberEntries]
  constructor
  · rintro (⟨h, rfl | rfl⟩ | ⟨parent, h, nonempty, found⟩ | ⟨visible, found⟩ |
      ⟨m, h, type, used, found⟩)
    · exact .extend container h
    · exact .itself container h
    · exact .inherited container h nonempty found
    · exact .exposure visible found
    · exact .type (.member (.inl container) h used) found
  · intro source
    cases source with
    | extend _ h => exact .inl ⟨h, .inl rfl⟩
    | itself _ h => exact .inl ⟨h, .inr rfl⟩
    | inherited _ h nonempty found => exact .inr (.inl ⟨_, h, nonempty, found⟩)
    | exposure visible found => exact .inr (.inr (.inl ⟨visible, found⟩))
    | type made found =>
      cases made with
      | own other =>
        exact absurd other (not_or.mpr ⟨container.meaning_ne (by decide),
          container.meaning_ne (by decide)⟩)
      | argument other => exact absurd other (container.meaning_ne (by decide))
      | member _ h used => exact .inr (.inr (.inr ⟨_, h, _, used, found⟩))
    | relation statement => exact absurd statement container.not_isStatement
    | unknown found => rwa [plan, mem_containerPlan, ← exposed, mem_memberEntries] at found

theorem mem_relationPlan (kind : IsStatement node) :
    (definitionPlan wellKnown node).entries = (relationPlan node).entries := by
  rcases kind with hk | hk <;> simp only [definitionPlan, hk]

theorem source_of_mem (h : e ∈ (definitionPlan wellKnown node).entries) :
    Source wellKnown node e := by
  by_cases container : IsContainer node
  · exact (mem_entries_of_isContainer container).mp h
  have whole := h
  have own (kind : node.kind.meaning? = some .typedef ∨ node.kind.meaning? = some .callback)
      (h : e ∈ node.type.toList.flatMap (typeEntries wellKnown node.name)) :
      Source wellKnown node e := by
    obtain ⟨type, ht, found⟩ := List.mem_flatMap.mp h
    exact .type (.own kind (Option.mem_toList.mp ht)) found
  unfold definitionPlan at h
  simp only at h
  split at h
  case h_1 hk | h_2 hk | h_3 hk | h_4 hk | h_5 hk =>
    exact absurd (by simp [IsContainer, containerKinds, hk]) container
  case h_6 hk =>
    obtain ⟨m, hm, type, used, found⟩ := mem_memberEntries.mp h
    exact .type (.member (.inr hk) hm used) found
  case h_7 hk => exact own (.inl hk) h
  case h_8 hk =>
    rcases List.mem_append.mp h with h | h
    · exact own (.inr hk) h
    · obtain ⟨a, ha, found⟩ := mem_argumentEntries.mp h
      exact .type (.argument hk ha) found
  case h_9 hk => exact .relation (.inl hk) h
  case h_10 hk => exact .relation (.inr hk) h
  case h_11 =>
    obtain rfl := List.mem_singleton.mp h
    exact .unknown whole

theorem Source.mem (h : Source wellKnown node e) : e ∈ (definitionPlan wellKnown node).entries := by
  cases h with
  | extend kind h => exact (mem_entries_of_isContainer kind).mpr (.extend kind h)
  | itself kind h => exact (mem_entries_of_isContainer kind).mpr (.itself kind h)
  | inherited kind h nonempty found =>
    exact (mem_entries_of_isContainer kind).mpr (.inherited kind h nonempty found)
  | exposure kind found =>
    exact (mem_entries_of_isContainer kind.isContainer).mpr (.exposure kind found)
  | type made found =>
    cases made with
    | own kind ht => rcases kind with hk | hk <;> simp [definitionPlan, hk, ht, found]
    | argument hk ha =>
      simp only [definitionPlan, hk]
      exact List.mem_append_right _ (mem_argumentEntries.mpr ⟨_, ha, found⟩)
    | member kind hm used =>
      rcases kind with container | hk
      · exact (mem_entries_of_isContainer container).mpr
          (.type (.member (.inl container) hm used) found)
      · simp only [definitionPlan, hk]
        exact mem_memberEntries.mpr ⟨_, hm, _, used, found⟩
  | relation kind found => exact mem_relationPlan kind ▸ found
  | unknown found => exact found

end

/-! ### Dependencies -/

/-- A definition that counts makes the first name depend on the second. -/
inductive Contributes (wellKnown : List String) (node : Node) : String → String → Prop where
  | inherited {parent} (kind : IsContainer node) (h : node.inheritance = some parent)
      (nonempty : parent ≠ "") : Contributes wellKnown node node.name parent
  /-- A partial definition refers to the name that it adds to. -/
  | itself (kind : IsContainer node) (h : node.isPartial) :
      Contributes wellKnown node node.name node.name
  | member {m type name} (kind : IsContainer node ∨ node.kind.meaning? = some .enumeration)
      (h : m ∈ node.members) (type_used : MemberUses m type)
      (uses : TypeUses wellKnown type name) : Contributes wellKnown node node.name name
  | typed {type name}
      (kind : node.kind.meaning? = some .typedef ∨ node.kind.meaning? = some .callback)
      (h : node.type = some type) (uses : TypeUses wellKnown type name) :
      Contributes wellKnown node node.name name
  | argument {a : Argument} {name} (kind : node.kind.meaning? = some .callback)
      (h : a ∈ node.arguments) (uses : TypeUses wellKnown a.type name) :
      Contributes wellKnown node node.name name
  | listed {context} (kind : IsExposed node) (h : Lists node context) (specific : context ≠ "*") :
      Contributes wellKnown node node.name context
  | constructor {a : Argument} {name} (kind : IsExposed node) (h : ConstructorArgument node a)
      (uses : TypeUses wellKnown a.type name) : Contributes wellKnown node node.name name
  | statement (kind : IsStatement node) : Contributes wellKnown node node.target node.includes

/-- Unless the findings of a definition are abandoned, they say that a name depends on another one
exactly where the definition contributes this. -/
theorem depend_mem_entries {node : Node}
    (complete : .abandon ∉ (definitionPlan wellKnown node).entries) :
    .depend n d ∈ (definitionPlan wellKnown node).entries ↔ Contributes wellKnown node n d := by
  have visible (kind : IsExposed node) := depend_mem_exposureEntries (n := n) (d := d)
    (mt (Source.mem ∘ Source.exposure kind) complete)
  constructor
  · intro h
    cases source_of_mem h with
    | itself kind isPartial => exact .itself kind isPartial
    | inherited kind h nonempty found =>
      obtain ⟨rfl, rfl⟩ : n = node.name ∧ d = _ := by simpa using found
      exact .inherited kind h nonempty
    | type made found =>
      obtain ⟨rfl, uses⟩ := depend_mem_typeEntries.mp found
      cases made with
      | own kind h => exact .typed kind h uses
      | argument kind h => exact .argument kind h uses
      | member kind h used => exact .member kind h used uses
    | exposure kind found =>
      obtain ⟨rfl, ⟨lists, specific⟩ | ⟨a, ha, uses⟩⟩ := (visible kind).mp found
      · exact .listed kind lists specific
      · exact .constructor kind ha uses
    | relation kind found =>
      obtain ⟨rfl, rfl⟩ : n = node.target ∧ d = node.includes := by
        simpa [relationPlan] using found
      exact .statement kind
  · intro contributes
    refine Source.mem ?_
    cases contributes with
    | inherited kind h nonempty => exact .inherited kind h nonempty (.inl rfl)
    | itself kind h => exact .itself kind h
    | member kind h used uses =>
      exact .type (.member kind h used) (depend_mem_typeEntries.mpr ⟨rfl, uses⟩)
    | typed kind h uses => exact .type (.own kind h) (depend_mem_typeEntries.mpr ⟨rfl, uses⟩)
    | argument kind h uses =>
      exact .type (.argument kind h) (depend_mem_typeEntries.mpr ⟨rfl, uses⟩)
    | listed kind h specific =>
      exact .exposure kind ((visible kind).mpr ⟨rfl, .inl ⟨h, specific⟩⟩)
    | constructor kind h uses =>
      exact .exposure kind ((visible kind).mpr ⟨rfl, .inr ⟨_, h, uses⟩⟩)
    | statement kind => exact .relation kind (by simp [relationPlan])

/-! ### Other findings -/

/-- Where an entry of a definition's plan comes from. -/
inductive Finding (wellKnown : List String) (node : Node) : Entry → Prop where
  | use {e} (h : IsUse node.name e) : Finding wellKnown node e
  | listExposed (context : String) : Finding wellKnown node (.listExposed context node.name)
  | declareGlobal (context : String) : Finding wellKnown node (.declareGlobal context node.name)
  | declarePrimary (context : String) : Finding wellKnown node (.declarePrimary context node.name)
  | aliased (name : String) (target : NameTarget) :
      Finding wellKnown node (.register name target true)
  | expose (bucket : Bucket) (contexts : List Context) (name : String) :
      Finding wellKnown node (.expose bucket contexts name)
  | nameless (attr owner : String) :
      Finding wellKnown node (.remark (.namelessConstructor attr owner))
  | abandon (h : .abandon ∈ exposureEntries wellKnown node) : Finding wellKnown node .abandon
  | extend (kind : IsContainer node) (h : node.isPartial) :
      Finding wellKnown node (.extend node.name node)
  | relation {e} (kind : IsStatement node) (h : e ∈ (relationPlan node).entries) :
      Finding wellKnown node e
  | unknown : Finding wellKnown node (.remark (.diagnostic (unknownDefinition node)))

/-- Findings that are not about where the definition is visible. -/
inductive IsPlain (node : Node) : Entry → Prop where
  | use {e} (h : IsUse node.name e) : IsPlain node e
  | extend (kind : IsContainer node) (h : node.isPartial) : IsPlain node (.extend node.name node)
  | relation {e} (kind : IsStatement node) (h : e ∈ (relationPlan node).entries) : IsPlain node e
  | unknown : IsPlain node (.remark (.diagnostic (unknownDefinition node)))

variable {node : Node} {e : Entry}

theorem finding_of_mem_exposureEntries (h : e ∈ exposureEntries wellKnown node) :
    Finding wellKnown node e := by
  have whole := h
  simp only [exposureEntries, List.mem_append] at h
  rcases h with ((h | h) | h) | h
  · obtain ⟨context, rfl | rfl⟩ := mem_listedEntries h
    · exact .listExposed context
    · exact .use (.depend context)
  · obtain ⟨context, rfl | rfl⟩ := mem_declaredEntries h
    · exact .declareGlobal context
    · exact .aliased context _
  · rcases mem_primaryEntries h with rfl | ⟨context, rfl | rfl | rfl⟩
    · exact .abandon whole
    · exact .declarePrimary context
    · exact .declareGlobal context
    · exact .aliased context _
  · rcases mem_constructorEntries h with
      rfl | ⟨_, _, rfl⟩ | ⟨_, _, rfl⟩ | ⟨_, _, _, rfl⟩ | ⟨a, -, h⟩
    · exact .abandon whole
    · exact .nameless ..
    · exact .aliased ..
    · exact .expose ..
    · exact .use (isUse_of_mem_typeEntries h)

/-- A finding of a definition is plain or says where the definition is visible. -/
theorem mem_entries (h : e ∈ (definitionPlan wellKnown node).entries) :
    IsPlain node e ∨ IsExposed node ∧ e ∈ exposureEntries wellKnown node := by
  cases source_of_mem h with
  | extend kind isPartial => exact .inl (.extend kind isPartial)
  | itself => exact .inl (.use (.depend _))
  | inherited _ _ _ found =>
    rcases found with rfl | rfl
    · exact .inl (.use (.depend _))
    · exact .inl (.use (.use _))
  | type _ found => exact .inl (.use (isUse_of_mem_typeEntries found))
  | exposure kind found => exact .inr ⟨kind, found⟩
  | relation kind found => exact .inl (.relation kind found)
  | unknown => exact .inl .unknown

/-- Definitions that are visible somewhere say so. -/
theorem exposureEntries_subset (exposed : IsExposed node) :
    exposureEntries wellKnown node ⊆ (definitionPlan wellKnown node).entries :=
  fun _ h => (Source.exposure exposed h).mem

/-- What findings tell only if they say where a definition is visible. -/
structure AboutExposure {β : Type} (f : Entry → List β) : Prop where
  use : ∀ name, f (.use name) = []
  depend : ∀ owner name, f (.depend owner name) = []
  reference : ∀ name, f (.reference name) = []
  extend : ∀ name part, f (.extend name part) = []
  remark : ∀ r, f (.remark r) = []
  define : ∀ name target, f (.register name target false) = []

section

variable {β : Type} {f : Entry → List β} (about : AboutExposure f)
include about

theorem AboutExposure.of_isUse {owner : String} (h : IsUse owner e) : f e = [] := by
  cases h with
  | use name => exact about.use name
  | depend name => exact about.depend owner name

theorem AboutExposure.of_isPlain (h : IsPlain node e) : f e = [] := by
  cases h with
  | use used => exact about.of_isUse used
  | extend => exact about.extend _ _
  | relation kind found =>
    simp only [relationPlan, List.mem_cons, List.not_mem_nil, or_false] at found
    rcases found with rfl | rfl | rfl | rfl
    · exact about.extend _ _
    · exact about.reference _
    · exact about.depend _ _
    · exact about.use _
  | unknown => exact about.remark _

theorem AboutExposure.flatMap_entries :
    (definitionPlan wellKnown node).entries.flatMap f =
      if IsExposed node then (exposureEntries wellKnown node).flatMap f else [] := by
  split_ifs with visible
  · have inherited : ((node.inheritance.filter (· ≠ "")).toList.flatMap fun parent =>
        [Entry.depend node.name parent, .use parent]).flatMap f = [] := by
      refine List.flatMap_eq_nil_iff.mpr fun e he => ?_
      obtain ⟨parent, -, -, rfl | rfl⟩ := mem_inheritedEntries.mp he
      · exact about.depend node.name parent
      · exact about.use parent
    have members : (memberEntries wellKnown node.name node).flatMap f = [] :=
      List.flatMap_eq_nil_iff.mpr fun e he => about.of_isUse (isUse_of_mem_memberEntries he)
    rw [entries_of_isWhole wellKnown visible.isContainer visible.1, if_pos visible,
      List.flatMap_append, List.flatMap_append, inherited, members, List.nil_append,
      List.append_nil]
  · exact List.flatMap_eq_nil_iff.mpr fun e he =>
      about.of_isPlain ((mem_entries he).resolve_right fun h => visible h.1)

end

theorem mem_entries_iff (other : ¬ IsPlain node e) :
    e ∈ (definitionPlan wellKnown node).entries ↔
      IsExposed node ∧ e ∈ exposureEntries wellKnown node :=
  ⟨fun h => (mem_entries h).resolve_left other, fun h => exposureEntries_subset h.1 h.2⟩

theorem finding_of_mem (h : e ∈ (definitionPlan wellKnown node).entries) :
    Finding wellKnown node e := by
  rcases mem_entries h with plain | ⟨-, h⟩
  · cases plain with
    | use used => exact .use used
    | extend kind isPartial => exact .extend kind isPartial
    | relation kind found => exact .relation kind found
    | unknown => exact .unknown
  · exact finding_of_mem_exposureEntries h

theorem extend_mem_entries {name : String} {part : Node} :
    .extend name part ∈ (definitionPlan wellKnown node).entries ↔ part = node ∧
      (IsContainer node ∧ node.isPartial ∧ name = node.name ∨
        IsStatement node ∧ name = node.target) := by
  constructor
  · intro h
    cases finding_of_mem h with
    | use h => cases h
    | extend kind isPartial => exact ⟨rfl, .inl ⟨kind, isPartial, rfl⟩⟩
    | relation kind h =>
      obtain ⟨rfl, rfl⟩ : name = node.target ∧ part = node := by simpa [relationPlan] using h
      exact ⟨rfl, .inr ⟨kind, rfl⟩⟩
  · rintro ⟨rfl, ⟨kind, h, rfl⟩ | ⟨kind, rfl⟩⟩
    · exact (Source.extend kind h).mem
    · exact (Source.relation kind List.mem_cons_self).mem

theorem reference_mem_entries {name : String} :
    .reference name ∈ (definitionPlan wellKnown node).entries ↔
      IsStatement node ∧ name = node.target := by
  constructor
  · intro h
    cases finding_of_mem h with
    | use h => cases h
    | relation kind h => exact ⟨kind, by simpa [relationPlan] using h⟩
  · rintro ⟨kind, rfl⟩
    exact (Source.relation kind (by simp [relationPlan])).mem

/-- A plan registers aliases only. -/
theorem isAlias_of_register_mem {name : String} {target : NameTarget} {isAlias : Bool}
    (h : .register name target isAlias ∈ (definitionPlan wellKnown node).entries) :
    isAlias = true := by
  cases finding_of_mem h with
  | use h => cases h
  | aliased => rfl
  | relation kind h => simp [relationPlan] at h

theorem eq_unknownDefinition_of_mem {diagnostic : Diagnostic}
    (h : .remark (.diagnostic diagnostic) ∈ (definitionPlan wellKnown node).entries) :
    diagnostic = unknownDefinition node := by
  cases finding_of_mem h with
  | use h => cases h
  | relation kind h => simp [relationPlan] at h
  | unknown => rfl

/-! ### Names -/

/-- Definitions that take their name. -/
def TakesName (node : Node) : Prop :=
  IsContainer node ∧ ¬ node.isPartial ∨
    node.kind.meaning? ∈ [some .enumeration, some .typedef, some .callback]

instance : DecidablePred TakesName := fun node =>
  inferInstanceAs (Decidable (node.kind.meaning? ∈ _ ∧ ¬ _ ∨ node.kind.meaning? ∈ _))

theorem IsExposed.takesName (h : IsExposed node) : TakesName node :=
  .inl ⟨h.isContainer, h.1⟩

theorem not_takesName_of_isStatement (h : IsStatement node) : ¬ TakesName node := by
  rcases h with h | h <;> simp [TakesName, IsContainer, containerKinds, h]

theorem definitionPlan_name? :
    (definitionPlan wellKnown node).name? = if TakesName node then some node.name else none := by
  unfold definitionPlan
  cases hk : node.kind.meaning? with
  | none => simp [TakesName, IsContainer, containerKinds, hk]
  | some kind =>
    by_cases hp : node.isPartial <;> cases kind <;>
      simp [TakesName, IsContainer, containerKinds, containerPlan, relationPlan, hk, hp]

/-- A name that a definition makes depend on something is its own, or it adds to that name. -/
theorem Contributes.takesName_or_extends (h : Contributes wellKnown node n d) :
    TakesName node ∧ n = node.name ∨ .extend n node ∈ (definitionPlan wellKnown node).entries := by
  have container (kind : IsContainer node) : TakesName node ∧ node.name = node.name ∨
      .extend node.name node ∈ (definitionPlan wellKnown node).entries := by
    rw [extend_mem_entries]
    by_cases hp : node.isPartial
    · exact .inr ⟨rfl, .inl ⟨kind, hp, rfl⟩⟩
    · exact .inl ⟨.inl ⟨kind, hp⟩, rfl⟩
  have other (hk : node.kind.meaning? ∈ [some .enumeration, some .typedef, some .callback]) :
      TakesName node ∧ node.name = node.name :=
    ⟨.inr hk, rfl⟩
  cases h with
  | inherited kind => exact container kind
  | itself kind => exact container kind
  | member kind =>
    rcases kind with kind | hk
    · exact container kind
    · exact .inl (other (by simp [hk]))
  | typed kind =>
    rcases kind with hk | hk <;> exact .inl (other (by simp [hk]))
  | argument hk => exact .inl (other (by simp [hk]))
  | listed kind => exact container kind.isContainer
  | constructor kind => exact container kind.isContainer
  | statement kind => exact .inr (extend_mem_entries.mpr ⟨rfl, .inr ⟨kind, rfl⟩⟩)

/-- What adds to a name makes the name depend on something. -/
theorem exists_contributes_of_extend_mem {part : Node}
    (h : .extend n part ∈ (definitionPlan wellKnown node).entries) :
    ∃ d, Contributes wellKnown node n d := by
  obtain ⟨-, ⟨kind, isPartial, rfl⟩ | ⟨kind, rfl⟩⟩ := extend_mem_entries.mp h
  · exact ⟨_, .itself kind isPartial⟩
  · exact ⟨_, .statement kind⟩

end WebSpec.Analysis
