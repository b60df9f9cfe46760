import WebSpec.Proofs.Analysis.Collection
import WebSpec.Proofs.Analysis.Dependencies

/-!
# Uses of the window

A report says whether the specification really needs the window: whether a definition that counts
inherits from it, includes it, or has it in one of its types (`Uses`). Being visible in the window
does not matter, nor does declaring or adding to it, and what is well-known makes no difference:
`reallyDependsOnWindow_iff`.

Uses of names are recorded where dependencies are, but not in all of these places. `use_mem_entries`
says where.
-/

namespace WebSpec.Analysis

open Idl (Argument Node NodeKind TypeExpr)

/-! ### Uses -/

/-- The names that a definition uses. -/
inductive Uses (node : Node) : String → Prop where
  | inherited {parent} (kind : IsContainer node) (h : node.inheritance = some parent)
      (nonempty : parent ≠ "") : Uses node parent
  | included (kind : IsStatement node) : Uses node node.includes
  | leaf {type name} (h : MadeOf node type) (leaf : IsLeaf name type) : Uses node name
  | constructor {a : Argument} {name} (kind : IsExposed node) (h : ConstructorArgument node a)
      (leaf : IsLeaf name a.type) : Uses node name

section

variable {wellKnown : List String} {owner d : String} {node : Node}

/-! ### Findings -/

theorem use_mem_typeEntries {type : TypeExpr} :
    .use d ∈ typeEntries wellKnown owner type ↔ IsLeaf d type := by
  rw [← mem_leafNames, typeEntries, List.mem_flatMap]
  constructor
  · rintro ⟨name, hl, h⟩
    unfold leafEntries at h
    split_ifs at h <;> simp_all
  · exact fun h => ⟨d, h, List.mem_cons_self⟩

theorem use_mem_constructorEntries
    (complete : .abandon ∉ constructorEntries wellKnown node) :
    .use d ∈ constructorEntries wellKnown node ↔
      ∃ a, ConstructorArgument node a ∧ IsLeaf d a.type := by
  constructor
  · intro h
    have hm := mem_constructorEntries h
    simp only [reduceCtorEq, exists_false, false_or] at hm
    obtain ⟨a, ha, he⟩ := hm
    exact ⟨a, ha, use_mem_typeEntries.mp he⟩
  · rintro ⟨a, ha, leaf⟩
    exact mem_constructorEntries_of_argument complete ha (use_mem_typeEntries.mpr leaf)

/-- Of what says where a definition is visible, only the arguments of constructors are used. -/
theorem use_mem_exposureEntries (complete : .abandon ∉ exposureEntries wellKnown node) :
    .use d ∈ exposureEntries wellKnown node ↔
      ∃ a, ConstructorArgument node a ∧ IsLeaf d a.type := by
  simp only [exposureEntries, List.mem_append, not_or] at complete ⊢
  have listed : .use d ∉ listedEntries node := fun h => by
    simpa using mem_listedEntries h
  have declared : .use d ∉ declaredEntries node := fun h => by
    simpa using mem_declaredEntries h
  have primary : .use d ∉ primaryEntries node := fun h => by
    simpa using mem_primaryEntries h
  simp only [listed, declared, primary, false_or, use_mem_constructorEntries complete.2]

/-- Unless the findings of a definition are abandoned, they say that a name is used exactly where
the definition uses it. -/
theorem use_mem_entries (complete : .abandon ∉ (definitionPlan wellKnown node).entries) :
    .use d ∈ (definitionPlan wellKnown node).entries ↔ Uses node d := by
  have visible (kind : IsExposed node) := use_mem_exposureEntries (d := d)
    (mt (Source.mem ∘ Source.exposure kind) complete)
  constructor
  · intro h
    cases source_of_mem h with
    | inherited kind h nonempty found =>
      obtain rfl : d = _ := by simpa using found
      exact .inherited kind h nonempty
    | type made found => exact .leaf made (use_mem_typeEntries.mp found)
    | exposure kind found =>
      obtain ⟨a, ha, leaf⟩ := (visible kind).mp found
      exact .constructor kind ha leaf
    | relation kind found =>
      obtain rfl : d = node.includes := by simpa [relationPlan] using found
      exact .included kind
  · intro uses
    refine Source.mem ?_
    cases uses with
    | inherited kind h nonempty => exact .inherited kind h nonempty (.inr rfl)
    | included kind => exact .relation kind (by simp [relationPlan])
    | leaf made leaf => exact .type made (use_mem_typeEntries.mpr leaf)
    | constructor kind ha leaf => exact .exposure kind ((visible kind).mpr ⟨_, ha, leaf⟩)

theorem usesWindow_iff {e : Entry} : e.usesWindow ↔ ∃ name ∈ windowNames, e = .use name := by
  cases e <;> simp [Entry.usesWindow]

end

/-- A report says that the specification needs the window if a definition that counts uses one of
the window's names, and only then. -/
theorem reallyDependsOnWindow_iff {settings : Settings} {definitions : List Node}
    {hasObsoleteIdl : Bool} {report : Report}
    (h : analyzeDefinitions settings definitions hasObsoleteIdl = .ok report) :
    report.reallyDependsOnWindow = true ↔
      ∃ node, Counts definitions node ∧ ∃ name ∈ windowNames, Uses node name := by
  obtain ⟨complete, rfl⟩ := analyzeDefinitions_eq_ok_iff.mp h
  have uses (name : String) : .use name ∈ history settings.wellKnown [] definitions ↔
      ∃ node, Counts definitions node ∧ Uses node name :=
    mem_history_iff_of_complete complete (by simp) (by simp) use_mem_entries
  have found := Ledger.reallyDependsOnWindow_ofEntries (history settings.wellKnown [] definitions)
  show (Ledger.ofEntries _).reallyDependsOnWindow = true ↔ _
  rw [found, List.any_eq_true]
  constructor
  · rintro ⟨e, he, window⟩
    obtain ⟨name, hn, rfl⟩ := usesWindow_iff.mp window
    obtain ⟨node, counts, hu⟩ := (uses name).mp he
    exact ⟨node, counts, name, hn, hu⟩
  · rintro ⟨node, counts, name, hn, hu⟩
    exact ⟨.use name, (uses name).mpr ⟨node, counts, hu⟩, usesWindow_iff.mpr ⟨name, hn, rfl⟩⟩

/-- A clock that is visible in the window, to which timers are added, and that can be attached to a
window. -/
def clockDefinitions : List Node :=
  [{ kind := .known .interface, name := "Clock",
     attributes := [{ name := "Exposed", value := some ⟨.identifier, .text "Window"⟩ }],
     members := [{ kind := .known .operation, name := "attach",
                   arguments := [{ name := "view", type := .named "Window" true [] }] }] },
   { kind := .known .includes, target := "Window", includes := "Timers" }]

theorem reallyDependsOnWindow_iff_clock :
    ∃ report, analyzeDefinitions { extraWellKnownTypes := ["Window"] } clockDefinitions = .ok report ∧
      report.reallyDependsOnWindow = true ∧ (report.reallyDependsOnWindow = true ↔
        ∃ node, Counts clockDefinitions node ∧ ∃ name ∈ windowNames, Uses node name) :=
  ⟨_, rfl, rfl,
    @reallyDependsOnWindow_iff { extraWellKnownTypes := ["Window"] } clockDefinitions false _ rfl⟩

end WebSpec.Analysis
