import WebSpec.Proofs.Analysis.History

/-!
# The dependencies of a report

`DependsOn` is the dependency relation of a list of definitions: some definition that counts makes
the first name depend on the second. `dependencies_iff` shows that the dependencies of a report are
this relation.
-/

namespace WebSpec.Analysis

open Idl (Node)

/-- A definition that counts makes a name depend on another one. -/
def DependsOn (wellKnown : List String) (definitions : List Node) (n d : String) : Prop :=
  ∃ node, Counts definitions node ∧ Contributes wellKnown node n d

section

variable {wellKnown : List String} {definitions : List Node} {n d : String}

theorem abandon_not_mem_of_counts {node : Node}
    (complete : .abandon ∉ history wellKnown [] definitions) (counts : Counts definitions node) :
    .abandon ∉ (definitionPlan wellKnown node).entries := fun h =>
  complete ((mem_history_iff (by simp) (by simp)).mpr ⟨node, counts, h⟩)

/-- What is known of the findings of any definition that are not abandoned is known of the findings
of a list. -/
theorem mem_history_iff_of_complete {e : Entry} {P : Node → Prop}
    (complete : .abandon ∉ history wellKnown [] definitions)
    (noName : ∀ name target, e ≠ .register name target false)
    (noDuplicate : ∀ name, e ≠ .remark (.diagnostic (duplicateName name)))
    (found : ∀ {node}, .abandon ∉ (definitionPlan wellKnown node).entries →
      (e ∈ (definitionPlan wellKnown node).entries ↔ P node)) :
    e ∈ history wellKnown [] definitions ↔ ∃ node, Counts definitions node ∧ P node :=
  (mem_history_iff noName noDuplicate).trans <| exists_congr fun _ =>
    and_congr_right fun counts => found (abandon_not_mem_of_counts complete counts)

theorem depend_mem_history (complete : .abandon ∉ history wellKnown [] definitions) :
    .depend n d ∈ history wellKnown [] definitions ↔ DependsOn wellKnown definitions n d :=
  mem_history_iff_of_complete complete (by simp) (by simp) depend_mem_entries

/-- A name that depends on something is taken or added to. -/
theorem DependsOn.mem_keys (h : DependsOn wellKnown definitions n d) :
    n ∈ (Ledger.ofEntries (history wellKnown [] definitions)).names.keys ∨
      n ∈ (Ledger.ofEntries (history wellKnown [] definitions)).extendedNames.keys := by
  obtain ⟨node, counts, h⟩ := h
  rw [Ledger.mem_names_ofEntries, Ledger.mem_extendedNames_ofEntries]
  rcases h.takesName_or_extends with ⟨takes, rfl⟩ | h
  · exact .inl ⟨.node node, false, register_mem_history.mpr ⟨node, counts, takes, rfl, rfl⟩⟩
  · exact .inr ⟨node, (mem_history_iff (by simp) (by simp)).mpr ⟨node, counts, h⟩⟩

/-- A name that is added to depends on something. -/
theorem exists_dependsOn_of_mem_extendedNames
    (h : n ∈ (Ledger.ofEntries (history wellKnown [] definitions)).extendedNames.keys) :
    ∃ d, DependsOn wellKnown definitions n d := by
  obtain ⟨part, h⟩ := Ledger.mem_extendedNames_ofEntries.mp h
  obtain ⟨node, counts, h⟩ := (mem_history_iff (by simp) (by simp)).mp h
  obtain ⟨d, h⟩ := exists_contributes_of_extend_mem h
  exact ⟨d, node, counts, h⟩

end

/-- The names with dependencies are those that are taken or added to, and their dependencies are
what the definitions make them depend on. -/
theorem dependencies_iff {settings : Settings} {definitions : List Node} {hasObsoleteIdl : Bool}
    {report : Report} (h : analyzeDefinitions settings definitions hasObsoleteIdl = .ok report) :
    (∀ n, n ∈ report.dependencies.keys ↔
      n ∈ report.names.keys ∨ n ∈ report.extendedNames.keys) ∧
    ∀ n d, d ∈ (report.dependencies.get? n).getD ∅ ↔
      DependsOn settings.wellKnown definitions n d := by
  obtain ⟨complete, rfl⟩ := analyzeDefinitions_eq_ok_iff.mp h
  constructor
  · intro n
    refine Ledger.mem_dependencies_keys_ofEntries.trans ?_
    simp only [depend_mem_history complete]
    constructor
    · rintro (hn | ⟨d, hd⟩)
      · exact .inl hn
      · exact hd.mem_keys
    · rintro (hn | hn)
      · exact .inl hn
      · exact .inr (exists_dependsOn_of_mem_extendedNames hn)
  · intro n d
    exact Ledger.mem_dependencies_ofEntries.trans (depend_mem_history complete)

/-- A circle, which is defined twice. -/
def circleDefinitions : List Node :=
  [{ kind := .known .interface, name := "Circle", inheritance := some "Shape",
     members := [{ kind := .known .attributeMember, name := "center",
                   type := some (.named "Point" false []) }] },
   { kind := .known .interface, name := "Circle", inheritance := some "Figure" },
   { kind := .known .includes, target := "Circle", includes := "Painting" }]

theorem dependencies_iff_circle :
    ∃ report, analyzeDefinitions {} circleDefinitions = .ok report ∧
      (∀ n, n ∈ report.dependencies.keys ↔
        n ∈ report.names.keys ∨ n ∈ report.extendedNames.keys) ∧
      ∀ n d, d ∈ (report.dependencies.get? n).getD ∅ ↔
        DependsOn (Settings.wellKnown {}) circleDefinitions n d :=
  ⟨_, rfl, dependencies_iff rfl⟩

end WebSpec.Analysis
