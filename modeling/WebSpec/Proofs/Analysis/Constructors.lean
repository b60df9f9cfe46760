import WebSpec.Proofs.Analysis.Collection
import WebSpec.Proofs.Analysis.History

/-!
# Visible constructors

Under which names the constructors of a definition are visible, and in which contexts.
`ConstructorName` is the precedence of the ways to declare a constructor: `Constructor` attributes
come first, then attributes that give the constructor a name of its own, and constructor members
count only without either. `mem_constructors_iff` shows that an exposure map lists the constructors
of the definitions that count, each in the contexts of its definition.

So a constructor member next to a factory function is not listed; `not_mem_constructors_image` is
the case of an image, which pages can make in both ways.
-/

namespace WebSpec.Analysis

open Idl (ExtAttribute Node)

variable {wellKnown : List String} {node : Node}

/-! ### One definition -/

/-- A name under which the constructor of a definition is visible. -/
inductive ConstructorName (node : Node) : String → Prop where
  | plain {attr : ExtAttribute} (h : attr ∈ node.attributes) (kind : attr.name = "Constructor") :
      ConstructorName node node.name
  | named {attr : ExtAttribute} {value name rest}
      (others : ∀ attr ∈ node.attributes, attr.name ≠ "Constructor")
      (h : attr ∈ node.attributes) (kind : attr.name ∈ namedConstructorAttributes)
      (given : attr.value = some value) (first : value.names = name :: rest) :
      ConstructorName node name
  | member {m : Node} (others : ∀ attr ∈ node.attributes, attr.name ≠ "Constructor")
      (unnamed : ∀ attr ∈ node.attributes, attr.name ∉ namedConstructorAttributes)
      (h : m ∈ node.members) (kind : m.kind.meaning? = some .constructorMember) :
      ConstructorName node node.name

/-- A definition is visible in a context: it lists the context, or lists none and the context is the
primary global. -/
def IsVisibleIn (primaryGlobal : String) (node : Node) (context : String) : Prop :=
  some context ∈ contextsOf node ∨ none ∈ contextsOf node ∧ context = primaryGlobal

theorem expose_mem_namedConstructorEntries {attr : ExtAttribute} {contexts : List Context}
    {name : String} :
    .expose .constructors contexts name ∈ namedConstructorEntries wellKnown node attr ↔
      contexts = contextsOf node ∧
        ∃ value rest, attr.value = some value ∧ value.names = name :: rest := by
  unfold namedConstructorEntries
  cases attr.value with
  | none => simp
  | some value =>
    cases hn : value.names with
    | nil => simp [hn]
    | cons first rest =>
      have argument : .expose .constructors contexts name ∉
          argumentEntries wellKnown node.name (attr.arguments.getD []) := fun h => by
        cases isUse_of_mem_argumentEntries h
      simp only [hn, List.cons_append, List.nil_append, List.mem_cons, reduceCtorEq, argument,
        Entry.expose.injEq, true_and, false_or, or_false, Option.some.injEq]
      constructor
      · rintro ⟨rfl, rfl⟩
        exact ⟨rfl, value, rest, rfl, hn⟩
      · rintro ⟨rfl, _, _, rfl, h⟩
        exact ⟨rfl, (List.cons.inj (h.symm.trans hn)).1⟩

theorem expose_mem_constructorEntries {contexts : List Context} {name : String} :
    .expose .constructors contexts name ∈ constructorEntries wellKnown node ↔
      contexts = contextsOf node ∧ ConstructorName node name := by
  unfold constructorEntries
  simp only
  by_cases plain : ∃ attr ∈ node.attributes, attr.name = "Constructor"
  · rw [if_pos (by simpa using plain)]
    obtain ⟨attr, h, kind⟩ := plain
    have argument : .expose .constructors contexts name ∉
        (node.attributes.filter (·.name = "Constructor")).flatMap fun attr =>
          argumentEntries wellKnown node.name (attr.arguments.getD []) := fun h => by
      obtain ⟨attr, -, h⟩ := List.mem_flatMap.mp h
      cases isUse_of_mem_argumentEntries h
    rw [List.mem_cons, or_iff_left argument, Entry.expose.injEq]
    constructor
    · rintro ⟨-, rfl, rfl⟩
      exact ⟨rfl, .plain h kind⟩
    · rintro ⟨rfl, constructor⟩
      cases constructor with
      | plain => exact ⟨rfl, rfl, rfl⟩
      | named others | member others => exact absurd kind (others attr h)
  rw [if_neg (by simpa using plain)]
  have others (attr : ExtAttribute) (h : attr ∈ node.attributes) : attr.name ≠ "Constructor" :=
    fun kind => plain ⟨attr, h, kind⟩
  by_cases named : ∃ attr ∈ node.attributes, attr.name ∈ namedConstructorAttributes
  · rw [if_pos (by simpa using named), List.mem_flatMap]
    constructor
    · rintro ⟨attr, h, entry⟩
      obtain ⟨h, kind⟩ := List.mem_filter.mp h
      obtain ⟨rfl, value, rest, given, first⟩ := expose_mem_namedConstructorEntries.mp entry
      exact ⟨rfl, .named others h (List.contains_iff_mem.mp kind) given first⟩
    · rintro ⟨rfl, constructor⟩
      cases constructor with
      | plain h kind => exact absurd kind (others _ h)
      | named _ h kind given first =>
        exact ⟨_, List.mem_filter.mpr ⟨h, List.contains_iff_mem.mpr kind⟩,
          expose_mem_namedConstructorEntries.mpr ⟨rfl, _, _, given, first⟩⟩
      | member _ unnamed =>
        obtain ⟨attr, h, kind⟩ := named
        exact absurd kind (unnamed attr h)
  rw [if_neg (by simpa using named)]
  have unnamed (attr : ExtAttribute) (h : attr ∈ node.attributes) :
      attr.name ∉ namedConstructorAttributes :=
    fun kind => named ⟨attr, h, kind⟩
  by_cases member : ∃ m ∈ node.members, m.kind.meaning? = some .constructorMember
  · rw [if_pos (by simpa using member), List.mem_singleton, Entry.expose.injEq]
    obtain ⟨m, h, kind⟩ := member
    constructor
    · rintro ⟨-, rfl, rfl⟩
      exact ⟨rfl, .member others unnamed h kind⟩
    · rintro ⟨rfl, constructor⟩
      cases constructor with
      | plain => exact ⟨rfl, rfl, rfl⟩
      | named _ h kind => exact absurd kind (unnamed _ h)
      | member => exact ⟨rfl, rfl, rfl⟩
  · -- There is no constructor; at most the interface object is visible, as a function.
    have none : ¬ ConstructorName node name := fun constructor => by
      cases constructor with
      | plain h kind => exact others _ h kind
      | named _ h kind => exact unnamed _ h kind
      | member _ _ h kind => exact member ⟨_, h, kind⟩
    rw [if_neg (by simpa using member)]
    split_ifs <;> simp [none]

theorem expose_mem_exposureEntries {contexts : List Context} {name : String} :
    .expose .constructors contexts name ∈ exposureEntries wellKnown node ↔
      contexts = contextsOf node ∧ ConstructorName node name := by
  have listed : .expose .constructors contexts name ∉ listedEntries node := fun h => by
    simpa using mem_listedEntries h
  have declared : .expose .constructors contexts name ∉ declaredEntries node := fun h => by
    simpa using mem_declaredEntries h
  have primary : .expose .constructors contexts name ∉ primaryEntries node := fun h => by
    simpa using mem_primaryEntries h
  simp only [exposureEntries, List.mem_append, listed, declared, primary, false_or,
    expose_mem_constructorEntries]

/-- A definition makes its constructors visible in its contexts. -/
theorem expose_mem_entries {contexts : List Context} {name : String} :
    .expose .constructors contexts name ∈ (definitionPlan wellKnown node).entries ↔
      IsExposed node ∧ contexts = contextsOf node ∧ ConstructorName node name := by
  have other : ¬ IsPlain node (.expose .constructors contexts name) := fun plain => by
    cases plain with
    | use h => cases h
    | relation kind h => simp [relationPlan] at h
  rw [mem_entries_iff other, expose_mem_exposureEntries]

/-! ### A report -/

/-- What a finding makes visible in a context. -/
theorem Entry.mem_exposing {bucket : Bucket} {context : Context} {e : Entry} {name : String} :
    name ∈ e.exposing bucket context ↔
      ∃ contexts, e = .expose bucket contexts name ∧ context ∈ contexts := by
  cases e with
  | expose b contexts n =>
    by_cases same : b = bucket
    · simp [exposing, same, and_comm, eq_comm]
    · simp [exposing, same]
  | _ => simp [exposing]

/-- The names that an exposure map lists as constructors in a context are those of the constructors
of the definitions that count and are visible there. -/
theorem mem_constructors_iff {settings : Settings} {definitions : List Node}
    {hasObsoleteIdl : Bool} {report : Report}
    (h : analyzeDefinitions settings definitions hasObsoleteIdl = .ok report)
    (context name : String) :
    name ∈ (report.exposure.constructors.get? context).getD [] ↔
      ∃ node, Counts definitions node ∧ IsExposed node ∧
        IsVisibleIn report.primaryGlobal node context ∧ ConstructorName node name := by
  obtain ⟨complete, rfl⟩ := analyzeDefinitions_eq_ok_iff.mp h
  have listed (c : Context) :
      name ∈ (history settings.wellKnown [] definitions).flatMap (Entry.exposing .constructors c) ↔
        ∃ node, Counts definitions node ∧ IsExposed node ∧ c ∈ contextsOf node ∧
          ConstructorName node name := by
    simp only [List.mem_flatMap, Entry.mem_exposing]
    constructor
    · rintro ⟨_, h, contexts, rfl, hc⟩
      obtain ⟨node, counts, h⟩ := (mem_history_iff (by simp) (by simp)).mp h
      obtain ⟨exposed, rfl, constructor⟩ := expose_mem_entries.mp h
      exact ⟨node, counts, exposed, hc, constructor⟩
    · rintro ⟨node, counts, exposed, hc, constructor⟩
      have entry : .expose .constructors (contextsOf node) name ∈
          (definitionPlan settings.wellKnown node).entries :=
        expose_mem_entries.mpr ⟨exposed, rfl, constructor⟩
      exact ⟨_, (mem_history_iff (by simp) (by simp)).mpr ⟨node, counts, entry⟩, _, rfl, hc⟩
  have held := Exposure.get?_freezeEntries
    (Ledger.exposure_ofEntries .constructors (history settings.wellKnown [] definitions))
    ((Ledger.ofEntries (history settings.wellKnown [] definitions)).exposure.primary
      settings.defaultGlobal) context
  rw [show (Ledger.report _ _ _).exposure.constructors.get? context = _ from held, getD_nonempty?,
    List.mem_append, listed]
  split_ifs with primary
  · rw [listed]
    constructor
    · rintro (⟨node, counts, exposed, hc, constructor⟩ | ⟨node, counts, exposed, hc, constructor⟩)
      · exact ⟨node, counts, exposed, .inl hc, constructor⟩
      · exact ⟨node, counts, exposed, .inr ⟨hc, primary⟩, constructor⟩
    · rintro ⟨node, counts, exposed, hc | ⟨hc, -⟩, constructor⟩
      · exact .inl ⟨node, counts, exposed, hc, constructor⟩
      · exact .inr ⟨node, counts, exposed, hc, constructor⟩
  · constructor
    · rintro (⟨node, counts, exposed, hc, constructor⟩ | none)
      · exact ⟨node, counts, exposed, .inl hc, constructor⟩
      · cases none
    · rintro ⟨node, counts, exposed, hc | ⟨-, same⟩, constructor⟩
      · exact .inl ⟨node, counts, exposed, hc, constructor⟩
      · exact absurd same primary

/-- A definition with a constructor member is listed under its own name where it is visible, unless
its constructors have other names only. -/
theorem mem_constructors_of_member {settings : Settings} {definitions : List Node}
    {hasObsoleteIdl : Bool} {report : Report}
    (h : analyzeDefinitions settings definitions hasObsoleteIdl = .ok report)
    (counts : Counts definitions node) (exposed : IsExposed node) {context : String}
    (visible : IsVisibleIn report.primaryGlobal node context) {m : Node} (hm : m ∈ node.members)
    (kind : m.kind.meaning? = some .constructorMember)
    (own : (∃ attr ∈ node.attributes, attr.name = "Constructor") ∨
      ∀ attr ∈ node.attributes, attr.name ∉ namedConstructorAttributes) :
    node.name ∈ (report.exposure.constructors.get? context).getD [] := by
  refine (mem_constructors_iff h context node.name).mpr ⟨node, counts, exposed, visible, ?_⟩
  by_cases plain : ∃ attr ∈ node.attributes, attr.name = "Constructor"
  · obtain ⟨attr, h, kind⟩ := plain
    exact .plain h kind
  · have others (attr : ExtAttribute) (h : attr ∈ node.attributes) : attr.name ≠ "Constructor" :=
      fun kind => plain ⟨attr, h, kind⟩
    exact .member others (own.resolve_left plain) hm kind

/-- An image that pages make with a constructor or with a factory function. -/
def imageNode : Node :=
  { kind := .known .interface, name := "HTMLImageElement"
    attributes :=
      [{ name := "Exposed", value := some ⟨.identifier, .text "Window"⟩ },
       { name := "LegacyFactoryFunction", value := some ⟨.identifier, .text "Image"⟩
         arguments := some [] }]
    members := [{ kind := .known .constructorMember }] }

/-- Next to a factory function, a constructor member is not listed. -/
theorem not_mem_constructors_image :
    ∃ report, analyzeDefinitions {} [imageNode] = .ok report ∧
      "Image" ∈ (report.exposure.constructors.get? "Window").getD [] ∧
      "HTMLImageElement" ∉ (report.exposure.constructors.get? "Window").getD [] :=
  ⟨_, rfl, by decide, by decide⟩

end WebSpec.Analysis
