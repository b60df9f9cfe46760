import WebSpec.Check.Validation
import WebSpec.Proofs.Analysis.History

/-!
# Reports are consistent

Every report on definitions is consistent: what it refers to is either taken or external, every name
that is taken has dependencies, and so no check finds an error. This does not depend on whether a
name is taken before or after it is referred to, or on whether a definition or an alias takes it:
what is external is said at the end, from the names that are referred to by then.
-/

namespace WebSpec.Check

open Analysis
open Idl (Node)

/-- A report refers to a name: something depends on it, or a statement adds to it. -/
def Refers (definitions : List Node) (report : Report) (n : String) : Prop :=
  (∃ owner, n ∈ (report.dependencies.get? owner).getD ∅) ∨
    ∃ node ∈ definitions, IsStatement node ∧ node.target = n

/-- What holds of the reports on definitions. -/
structure Consistent (definitions : List Node) (report : Report) : Prop where
  external_not_taken : ∀ n ∈ report.externalDependencies, n ∉ report.names.keys
  external_nodup : report.externalDependencies.Nodup
  /-- What is external is what is referred to and not taken. -/
  mem_external_iff : ∀ n, n ∈ report.externalDependencies ↔
    Refers definitions report n ∧ n ∉ report.names.keys
  names_have_dependencies : ∀ n ∈ report.names.keys, n ∈ report.dependencies.keys
  dependencies_known : ∀ n d, d ∈ (report.dependencies.get? n).getD ∅ →
    d ∈ report.names.keys ∨ d ∈ report.externalDependencies
  no_error : ∀ d ∈ validate report, d.severity ≠ .error
  strict : validateStrictly report = .ok (validate report)

/-! ### References -/

variable {wellKnown : List String} {definitions : List Node}

/-- Statements count, wherever they stand. -/
theorem reference_mem_history {n : String} :
    .reference n ∈ history wellKnown [] definitions ↔
      ∃ node ∈ definitions, IsStatement node ∧ node.target = n := by
  rw [mem_history_iff (by simp) (by simp)]
  simp only [reference_mem_entries]
  constructor
  · rintro ⟨node, counts, kind, rfl⟩
    exact ⟨node, counts.mem, kind, rfl⟩
  · rintro ⟨node, hn, kind, rfl⟩
    obtain ⟨before, after, rfl⟩ := List.append_of_mem hn
    exact ⟨node, ⟨before, after, rfl, fun h => absurd h (not_takesName_of_isStatement kind)⟩,
      kind, rfl⟩

/-- What has been noted as referred to. -/
theorem mem_referenced_iff {n : String} :
    n ∈ (Ledger.ofEntries (history wellKnown [] definitions)).referenced ↔
      (∃ owner, n ∈ ((Ledger.ofEntries (history wellKnown [] definitions)).dependencies.get?
        owner).getD ∅) ∨ ∃ node ∈ definitions, IsStatement node ∧ node.target = n := by
  rw [Ledger.mem_referenced_ofEntries, reference_mem_history, or_comm]
  simp only [Ledger.mem_dependencies_ofEntries]

/-! ### Diagnostics -/

/-- The diagnostics of an analysis are warnings. -/
theorem warns_ofEntries_history (wellKnown : List String) (definitions : List Node) :
    (Ledger.ofEntries (history wellKnown [] definitions)).Warns := by
  have start : ({} : Ledger).Warns := fun d hd => absurd hd List.not_mem_nil
  refine start.foldl fun d hd => ?_
  obtain ⟨before, node, after, -, h⟩ := mem_history.mp hd
  unfold effect at h
  split_ifs at h
  · obtain rfl : d = duplicateName node.name := by simpa using h
    rfl
  · obtain rfl := eq_unknownDefinition_of_mem (by simpa using h)
    rfl
  · obtain rfl := eq_unknownDefinition_of_mem h
    rfl

/-! ### Checks -/

section

variable {report : Report}

theorem externalOverlap_eq_nil (h : ∀ n ∈ report.externalDependencies, n ∉ report.names.keys) :
    externalOverlap.findings report = [] := by
  simp only [externalOverlap, List.map_eq_nil_iff, List.filter_eq_nil_iff, Table.contains_iff]
  exact h

theorem dependencyEntries_eq_nil (h : ∀ n ∈ report.names.keys, n ∈ report.dependencies.keys) :
    dependencyEntries.findings report = [] := by
  simp only [dependencyEntries, List.map_eq_nil_iff, List.filter_eq_nil_iff, Bool.not_eq_true',
    Bool.not_eq_false, Table.contains_iff]
  exact h

/-- Only the first two rules find errors, and only in a report that is not consistent. -/
theorem not_error_of_mem_findings
    (external : ∀ n ∈ report.externalDependencies, n ∉ report.names.keys)
    (dependencies : ∀ n ∈ report.names.keys, n ∈ report.dependencies.keys) {rule : Rule}
    (hr : rule ∈ allRules) {d : Diagnostic} (hd : d ∈ rule.findings report) :
    d.severity ≠ .error := by
  simp only [allRules, List.mem_cons, List.not_mem_nil, or_false] at hr
  rcases hr with rfl | rfl | rfl | rfl | rfl
  · rw [externalOverlap_eq_nil external] at hd
    cases hd
  · rw [dependencyEntries_eq_nil dependencies] at hd
    cases hd
  · simp only [obsoleteConstructs] at hd
    split_ifs at hd
    · rw [List.mem_singleton.mp hd]
      decide
    · cases hd
  · obtain ⟨entry, -, rfl⟩ := List.mem_map.mp hd
    simp
  · simp only [windowDependency] at hd
    split_ifs at hd
    · rw [List.mem_singleton.mp hd]
      decide
    · cases hd

/-- A report without errors is not refused. -/
theorem validateStrictly_eq_ok (h : ∀ d ∈ validate report, d.severity ≠ .error) :
    validateStrictly report = .ok (validate report) := by
  have none : (validate report).filter (·.severity = .error) = [] := by simpa using h
  simp only [validateStrictly, none]

end

/-- The report of a ledger is consistent, if what is noted as referred to is what the report refers
to. -/
theorem consistent_report {definitions : List Node} {l : Ledger} (sound : l.Sound) (warns : l.Warns)
    (defaultGlobal : String) (hasObsoleteIdl : Bool)
    (referenced : ∀ n, n ∈ l.referenced ↔
      Refers definitions (l.report defaultGlobal hasObsoleteIdl) n) :
    Consistent definitions (l.report defaultGlobal hasObsoleteIdl) := by
  have not_taken : ∀ n ∈ l.externalDependencies, n ∉ l.names.keys := fun n hn =>
    (Ledger.mem_externalDependencies.mp hn).2
  have no_error : ∀ d ∈ validate (l.report defaultGlobal hasObsoleteIdl), d.severity ≠ .error := by
    intro d hd
    simp only [validate, List.append_nil] at hd
    rcases List.mem_append.mp hd with hd | hd
    · rw [warns d (Ledger.mem_diagnostics.mp hd)]
      decide
    · obtain ⟨rule, hr, hd⟩ := List.mem_flatMap.mp hd
      exact not_error_of_mem_findings not_taken sound.names_have_dependencies hr hd
  exact
    { external_not_taken := not_taken
      external_nodup := l.referenced.nodup.filter _
      mem_external_iff := fun n =>
        Ledger.mem_externalDependencies.trans (and_congr_left' (referenced n))
      names_have_dependencies := sound.names_have_dependencies
      dependencies_known := fun n d hd => by
        by_cases taken : d ∈ l.names.keys
        · exact .inl taken
        · exact .inr (Ledger.mem_externalDependencies.mpr
            ⟨sound.dependencies_referenced n d hd, taken⟩)
      no_error := no_error
      strict := validateStrictly_eq_ok no_error }

/-- The reports on definitions are consistent. -/
theorem consistent_of_analyzeDefinitions {settings : Settings} {definitions : List Node}
    {hasObsoleteIdl : Bool} {report : Report}
    (h : analyzeDefinitions settings definitions hasObsoleteIdl = .ok report) :
    Consistent definitions report := by
  obtain ⟨-, rfl⟩ := analyzeDefinitions_eq_ok_iff.mp h
  exact consistent_report (Ledger.sound_ofEntries _)
    (warns_ofEntries_history settings.wellKnown definitions) settings.defaultGlobal hasObsoleteIdl
    fun _ => mem_referenced_iff

end WebSpec.Check
