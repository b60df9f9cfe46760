import Mathlib.Tactic.Common
import WebSpec.Analysis.Definition

/-!
# The findings of types, members and extended attributes

What the parts of a definition contribute, said without lists: which types count for which members,
which contexts an interface lists, and which arguments its constructors have. For each list of
entries a lemma says what is in it.
-/

namespace WebSpec.Analysis

open Idl (Argument ExtAttribute Node NodeKind TypeExpr)

/-! ### Types -/

/-- A name is one of those that a type is made of. -/
inductive IsLeaf (name : String) : TypeExpr → Prop where
  | named {isNullable attributes} (nonempty : name ≠ "") :
      IsLeaf name (.named name isNullable attributes)
  | generic {holder parameters isNullable attributes type} (h : type ∈ parameters)
      (leaf : IsLeaf name type) : IsLeaf name (.generic holder parameters isNullable attributes)
  | union {members isNullable attributes type} (h : type ∈ members) (leaf : IsLeaf name type) :
      IsLeaf name (.union members isNullable attributes)

mutual

theorem mem_leafNames {name : String} :
    ∀ {type : TypeExpr}, name ∈ type.leafNames ↔ IsLeaf name type
  | .named holder isNullable attributes => by
    constructor
    · intro h
      by_cases hn : holder = ""
      · simp [TypeExpr.leafNames, hn] at h
      · obtain rfl : name = holder := by simpa [TypeExpr.leafNames, hn] using h
        exact .named hn
    · rintro ⟨hn⟩
      simp [TypeExpr.leafNames, hn]
  | .generic holder parameters isNullable attributes => by
    rw [TypeExpr.leafNames, mem_leafNamesOfAll]
    exact ⟨fun ⟨_, h, leaf⟩ => .generic h leaf, fun (.generic h leaf) => ⟨_, h, leaf⟩⟩
  | .union members isNullable attributes => by
    rw [TypeExpr.leafNames, mem_leafNamesOfAll]
    exact ⟨fun ⟨_, h, leaf⟩ => .union h leaf, fun (.union h leaf) => ⟨_, h, leaf⟩⟩

theorem mem_leafNamesOfAll {name : String} :
    ∀ {types : List TypeExpr}, name ∈ TypeExpr.leafNamesOfAll types ↔
      ∃ type ∈ types, IsLeaf name type
  | [] => by simp [TypeExpr.leafNamesOfAll]
  | type :: rest => by
    rw [TypeExpr.leafNamesOfAll, List.mem_append, mem_leafNames, mem_leafNamesOfAll]
    simp

end

/-- A type makes its owner depend on each of its names that is not well-known. -/
def TypeUses (wellKnown : List String) (type : TypeExpr) (name : String) : Prop :=
  IsLeaf name type ∧ name ∉ wellKnown

/-- Entries that say that `owner` uses some types. -/
inductive IsUse (owner : String) : Entry → Prop where
  | use (name : String) : IsUse owner (.use name)
  | depend (name : String) : IsUse owner (.depend owner name)

variable {wellKnown : List String} {owner : String} {n d : String}

theorem isUse_of_mem_typeEntries {type : TypeExpr} {e : Entry}
    (h : e ∈ typeEntries wellKnown owner type) : IsUse owner e := by
  obtain ⟨name, -, h⟩ := List.mem_flatMap.mp h
  unfold leafEntries at h
  rcases List.mem_cons.mp h with rfl | h
  · exact .use name
  · split_ifs at h
    · cases h
    · rw [List.mem_singleton.mp h]
      exact .depend name

theorem depend_mem_typeEntries {type : TypeExpr} :
    .depend n d ∈ typeEntries wellKnown owner type ↔ n = owner ∧ TypeUses wellKnown type d := by
  rw [typeEntries, List.mem_flatMap]
  constructor
  · rintro ⟨name, hl, h⟩
    unfold leafEntries at h
    split_ifs at h with hw
    · simp at h
    · obtain ⟨rfl, rfl⟩ : n = owner ∧ d = name := by simpa using h
      exact ⟨rfl, mem_leafNames.mp hl, fun hm => hw (List.contains_iff_mem.mpr hm)⟩
  · rintro ⟨rfl, hl, hw⟩
    refine ⟨d, mem_leafNames.mpr hl, ?_⟩
    simp [leafEntries, hw]

theorem mem_argumentEntries {arguments : List Argument} {e : Entry} :
    e ∈ argumentEntries wellKnown owner arguments ↔
      ∃ a ∈ arguments, e ∈ typeEntries wellKnown owner a.type :=
  List.mem_flatMap

/-! ### Members -/

/-- Members whose type counts. -/
def IsTyped (m : Node) : Prop :=
  m.kind.meaning? ∈ [some .attributeMember, some .const, some .field] ∨
    m.kind.meaning? = some .operation ∧ m.special ≠ "stringifier"

/-- Members that consist of types. -/
def IsCollection (m : Node) : Prop :=
  m.kind.meaning? ∈ [some .iterable, some .asyncIterable, some .maplike, some .setlike]

/-- Members whose arguments count. -/
def TakesArguments (m : Node) : Prop :=
  m.kind.meaning? = some .operation ∧ m.special ≠ "stringifier" ∨
    m.kind.meaning? = some .constructorMember ∨ IsCollection m

/-- A type counts for whoever has the member. -/
inductive MemberUses (m : Node) : TypeExpr → Prop where
  | typed {type} (kind : IsTyped m) (h : m.type = some type) : MemberUses m type
  | element {type} (kind : IsCollection m) (h : type ∈ m.typeArguments) : MemberUses m type
  | argument {a : Argument} (kind : TakesArguments m) (h : a ∈ m.arguments) : MemberUses m a.type

theorem memberUses_iff {m : Node} {type : TypeExpr} :
    MemberUses m type ↔ IsTyped m ∧ m.type = some type ∨
      IsCollection m ∧ type ∈ m.typeArguments ∨
      TakesArguments m ∧ ∃ a ∈ m.arguments, a.type = type := by
  constructor
  · rintro (⟨kind, h⟩ | ⟨kind, h⟩ | ⟨kind, h⟩)
    · exact .inl ⟨kind, h⟩
    · exact .inr (.inl ⟨kind, h⟩)
    · exact .inr (.inr ⟨kind, _, h, rfl⟩)
  · rintro (⟨kind, h⟩ | ⟨kind, h⟩ | ⟨kind, a, h, rfl⟩)
    · exact .typed kind h
    · exact .element kind h
    · exact .argument kind h

theorem mem_memberEntriesOf {m : Node} {e : Entry} :
    e ∈ memberEntriesOf wellKnown owner m ↔
      ∃ type, MemberUses m type ∧ e ∈ typeEntries wellKnown owner type := by
  have typed : e ∈ m.type.toList.flatMap (typeEntries wellKnown owner) ↔
      ∃ type, m.type = some type ∧ e ∈ typeEntries wellKnown owner type := by simp
  have elements : e ∈ m.typeArguments.flatMap (typeEntries wellKnown owner) ↔
      ∃ type ∈ m.typeArguments, e ∈ typeEntries wellKnown owner type := List.mem_flatMap
  have arguments : e ∈ argumentEntries wellKnown owner m.arguments ↔
      ∃ type, (∃ a ∈ m.arguments, a.type = type) ∧ e ∈ typeEntries wellKnown owner type := by
    rw [mem_argumentEntries]
    constructor
    · rintro ⟨a, ha, he⟩
      exact ⟨_, ⟨a, ha, rfl⟩, he⟩
    · rintro ⟨_, ⟨a, ha, rfl⟩, he⟩
      exact ⟨a, ha, he⟩
  simp only [memberUses_iff, or_and_right, exists_or, and_assoc, exists_and_left,
    memberEntriesOf]
  cases hk : m.kind.meaning? with
  | none => simp [IsTyped, IsCollection, TakesArguments, hk]
  | some kind =>
    by_cases hs : m.special = "stringifier" <;> cases kind <;>
      simp [IsTyped, IsCollection, TakesArguments, hk, hs, typed, elements, arguments]

theorem mem_memberEntries {node : Node} {e : Entry} :
    e ∈ memberEntries wellKnown owner node ↔
      ∃ m ∈ node.members, ∃ type, MemberUses m type ∧ e ∈ typeEntries wellKnown owner type := by
  simp only [memberEntries, List.mem_flatMap, mem_memberEntriesOf]

theorem isUse_of_mem_argumentEntries {arguments : List Argument} {e : Entry}
    (h : e ∈ argumentEntries wellKnown owner arguments) : IsUse owner e := by
  obtain ⟨a, -, he⟩ := mem_argumentEntries.mp h
  exact isUse_of_mem_typeEntries he

theorem isUse_of_mem_memberEntries {node : Node} {e : Entry}
    (h : e ∈ memberEntries wellKnown owner node) : IsUse owner e := by
  obtain ⟨m, -, type, -, he⟩ := mem_memberEntries.mp h
  exact isUse_of_mem_typeEntries he

/-! ### Exposure -/

/-- The first `Exposed` attribute of a definition lists a context. -/
def Lists (node : Node) (context : String) : Prop :=
  ∃ attr value, node.extAttribute? "Exposed" = some attr ∧ attr.value = some value ∧
    context ∈ value.names

/-- Arguments of the constructors that extended attributes declare. `Constructor` attributes take
precedence over those that give the constructor another name. -/
inductive ConstructorArgument (node : Node) (a : Argument) : Prop where
  | plain {attr : ExtAttribute} (h : attr ∈ node.attributes) (name : attr.name = "Constructor")
      (argument : a ∈ attr.arguments.getD [])
  | named {attr : ExtAttribute} (others : ∀ attr ∈ node.attributes, attr.name ≠ "Constructor")
      (h : attr ∈ node.attributes) (name : attr.name ∈ namedConstructorAttributes)
      (value : attr.value.isSome) (argument : a ∈ attr.arguments.getD [])

theorem mem_listedContexts {node : Node} {context : String} :
    context ∈ (listedContexts? node).getD [] ↔ Lists node context := by
  unfold listedContexts? Lists
  cases he : node.extAttribute? "Exposed" with
  | none => simp
  | some attr => cases hv : attr.value <;> simp [hv]

theorem depend_mem_listedEntries {node : Node} :
    .depend n d ∈ listedEntries node ↔ n = node.name ∧ Lists node d ∧ d ≠ "*" := by
  rw [listedEntries, List.mem_flatMap]
  constructor
  · rintro ⟨context, hc, h⟩
    split_ifs at h with hw
    · simp at h
    · obtain ⟨rfl, rfl⟩ : n = node.name ∧ d = context := by simpa using h
      exact ⟨rfl, mem_listedContexts.mp hc, hw⟩
  · rintro ⟨rfl, hl, hw⟩
    exact ⟨d, mem_listedContexts.mpr hl, by simp [hw]⟩

theorem mem_listedEntries {node : Node} {e : Entry} (h : e ∈ listedEntries node) :
    ∃ context, e = .listExposed context node.name ∨ e = .depend node.name context := by
  obtain ⟨context, -, h⟩ := List.mem_flatMap.mp h
  rcases List.mem_cons.mp h with rfl | h
  · exact ⟨context, .inl rfl⟩
  · split_ifs at h
    · cases h
    · exact ⟨context, .inr (List.mem_singleton.mp h)⟩

/-- What a global context is found to be: nothing depends on it. -/
theorem mem_globalEntries {node : Node} {context : String} {e : Entry}
    (h : e ∈ globalEntries node context) : e = .declareGlobal context node.name ∨
      e = .register context (.node node) true := by
  unfold globalEntries at h
  rcases List.mem_cons.mp h with rfl | h
  · exact .inl rfl
  · split_ifs at h
    · cases h
    · exact .inr (List.mem_singleton.mp h)

theorem mem_declaredEntries {node : Node} {e : Entry} (h : e ∈ declaredEntries node) :
    ∃ context, e = .declareGlobal context node.name ∨
      e = .register context (.node node) true := by
  unfold declaredEntries at h
  split at h
  · cases h
  · obtain ⟨context, -, h⟩ := List.mem_flatMap.mp h
    exact ⟨context, mem_globalEntries h⟩

theorem mem_primaryEntries {node : Node} {e : Entry} (h : e ∈ primaryEntries node) :
    e = .abandon ∨ ∃ context, e = .declarePrimary context node.name ∨
      e = .declareGlobal context node.name ∨ e = .register context (.node node) true := by
  unfold primaryEntries at h
  split at h
  · cases h
  · split at h
    · exact .inl (List.mem_singleton.mp h)
    · rename_i context _ _
      rcases List.mem_cons.mp h with rfl | h
      · exact .inr ⟨context, .inl rfl⟩
      · exact .inr ⟨context, .inr (mem_globalEntries h)⟩

/-- The findings of an attribute that declares a constructor under another name. -/
theorem mem_namedConstructorEntries {node : Node} {attr : ExtAttribute} {e : Entry}
    (h : e ∈ namedConstructorEntries wellKnown node attr) :
    e = .abandon ∨ e = .remark (.namelessConstructor attr.name node.name) ∨
      (∃ name, e = .register name (.extAttribute attr) true) ∨
      (∃ contexts name, e = .expose .constructors contexts name) ∨
      attr.value.isSome ∧ e ∈ argumentEntries wellKnown node.name (attr.arguments.getD []) := by
  unfold namedConstructorEntries at h
  split at h
  · exact .inr (.inl (List.mem_singleton.mp h))
  · rename_i value hv
    split at h
    · exact .inl (List.mem_singleton.mp h)
    · rename_i name _ _
      simp only [List.cons_append, List.nil_append, List.mem_cons] at h
      rcases h with rfl | rfl | h
      · exact .inr (.inr (.inl ⟨name, rfl⟩))
      · exact .inr (.inr (.inr (.inl ⟨_, name, rfl⟩)))
      · exact .inr (.inr (.inr (.inr ⟨by rw [hv]; rfl, h⟩)))

theorem mem_namedConstructorEntries_of_value {node : Node} {attr : ExtAttribute} {e : Entry}
    (complete : .abandon ∉ namedConstructorEntries wellKnown node attr)
    (value : attr.value.isSome)
    (h : e ∈ argumentEntries wellKnown node.name (attr.arguments.getD [])) :
    e ∈ namedConstructorEntries wellKnown node attr := by
  obtain ⟨v, hv⟩ := Option.isSome_iff_exists.mp value
  unfold namedConstructorEntries at complete ⊢
  simp only [hv] at complete ⊢
  split at complete
  · simp at complete
  · simp [h]

theorem mem_constructorAttributes {node : Node} {attr : ExtAttribute} :
    attr ∈ node.attributes.filter (·.name = "Constructor") ↔
      attr ∈ node.attributes ∧ attr.name = "Constructor" := by
  simp

/-- Where the findings of the constructors of a definition come from. -/
theorem mem_constructorEntries {node : Node} {e : Entry}
    (h : e ∈ constructorEntries wellKnown node) :
    e = .abandon ∨ (∃ attr owner, e = .remark (.namelessConstructor attr owner)) ∨
      (∃ name attr, e = .register name (.extAttribute attr) true) ∨
      (∃ bucket contexts name, e = .expose bucket contexts name) ∨
      ∃ a, ConstructorArgument node a ∧ e ∈ typeEntries wellKnown node.name a.type := by
  unfold constructorEntries at h
  simp only at h
  split_ifs at h with hc hn hm hi
  · rcases List.mem_cons.mp h with rfl | h
    · exact .inr (.inr (.inr (.inl ⟨_, _, _, rfl⟩)))
    · obtain ⟨attr, hattr, he⟩ := List.mem_flatMap.mp h
      obtain ⟨ha, hname⟩ := mem_constructorAttributes.mp hattr
      obtain ⟨a, hmem, ht⟩ := mem_argumentEntries.mp he
      exact .inr (.inr (.inr (.inr ⟨a, .plain ha hname hmem, ht⟩)))
  · obtain ⟨attr, hattr, he⟩ := List.mem_flatMap.mp h
    obtain ⟨ha, hname⟩ := List.mem_filter.mp hattr
    have others : ∀ attr ∈ node.attributes, attr.name ≠ "Constructor" := by simpa using hc
    rcases mem_namedConstructorEntries he with rfl | rfl | ⟨name, rfl⟩ | ⟨_, _, rfl⟩ | ⟨hv, ht⟩
    · exact .inl rfl
    · exact .inr (.inl ⟨_, _, rfl⟩)
    · exact .inr (.inr (.inl ⟨_, _, rfl⟩))
    · exact .inr (.inr (.inr (.inl ⟨_, _, _, rfl⟩)))
    · obtain ⟨a, hmem, ht⟩ := mem_argumentEntries.mp ht
      exact .inr (.inr (.inr (.inr
        ⟨a, .named others ha (List.contains_iff_mem.mp hname) hv hmem, ht⟩)))
  · exact .inr (.inr (.inr (.inl ⟨_, _, _, List.mem_singleton.mp h⟩)))
  · exact .inr (.inr (.inr (.inl ⟨_, _, _, List.mem_singleton.mp h⟩)))
  · cases h

theorem mem_constructorEntries_of_argument {node : Node} {a : Argument} {e : Entry}
    (complete : .abandon ∉ constructorEntries wellKnown node) (ha : ConstructorArgument node a)
    (he : e ∈ typeEntries wellKnown node.name a.type) : e ∈ constructorEntries wellKnown node := by
  cases ha with
  | @plain attr h name argument =>
    have hm : attr ∈ node.attributes.filter (·.name = "Constructor") :=
      mem_constructorAttributes.mpr ⟨h, name⟩
    have hne : (!(node.attributes.filter (·.name = "Constructor")).isEmpty) = true := by
      simpa using List.ne_nil_of_mem hm
    rw [constructorEntries, if_pos hne]
    exact List.mem_cons_of_mem _ (List.mem_flatMap.mpr
      ⟨attr, hm, mem_argumentEntries.mpr ⟨a, argument, he⟩⟩)
  | @named attr others h name value argument =>
    have hm : attr ∈ node.attributes.filter fun a => namedConstructorAttributes.contains a.name :=
      List.mem_filter.mpr ⟨h, List.contains_iff_mem.mpr name⟩
    have hnone : ¬ (!(node.attributes.filter (·.name = "Constructor")).isEmpty) = true := by
      simpa using others
    have hne : (!(node.attributes.filter fun a =>
        namedConstructorAttributes.contains a.name).isEmpty) = true := by
      simpa using List.ne_nil_of_mem hm
    rw [constructorEntries, if_neg hnone, if_pos hne] at complete ⊢
    have hc : .abandon ∉ namedConstructorEntries wellKnown node attr := fun hab =>
      complete (List.mem_flatMap.mpr ⟨attr, hm, hab⟩)
    exact List.mem_flatMap.mpr ⟨attr, hm, mem_namedConstructorEntries_of_value hc value
      (mem_argumentEntries.mpr ⟨a, argument, he⟩)⟩

theorem depend_mem_constructorEntries {node : Node}
    (complete : .abandon ∉ constructorEntries wellKnown node) :
    .depend n d ∈ constructorEntries wellKnown node ↔
      n = node.name ∧ ∃ a, ConstructorArgument node a ∧ TypeUses wellKnown a.type d := by
  constructor
  · intro h
    have hm := mem_constructorEntries h
    simp only [reduceCtorEq, exists_false, false_or] at hm
    obtain ⟨a, ha, he⟩ := hm
    obtain ⟨rfl, hu⟩ := depend_mem_typeEntries.mp he
    exact ⟨rfl, a, ha, hu⟩
  · rintro ⟨rfl, a, ha, hu⟩
    exact mem_constructorEntries_of_argument complete ha (depend_mem_typeEntries.mpr ⟨rfl, hu⟩)

theorem depend_mem_exposureEntries {node : Node}
    (complete : .abandon ∉ exposureEntries wellKnown node) :
    .depend n d ∈ exposureEntries wellKnown node ↔ n = node.name ∧ (Lists node d ∧ d ≠ "*" ∨
      ∃ a, ConstructorArgument node a ∧ TypeUses wellKnown a.type d) := by
  simp only [exposureEntries, List.mem_append, not_or] at complete ⊢
  have declared : .depend n d ∉ declaredEntries node := fun h => by
    simpa using mem_declaredEntries h
  have primary : .depend n d ∉ primaryEntries node := fun h => by
    simpa using mem_primaryEntries h
  simp only [declared, primary, or_false, depend_mem_listedEntries,
    depend_mem_constructorEntries complete.2, and_or_left]

end WebSpec.Analysis
