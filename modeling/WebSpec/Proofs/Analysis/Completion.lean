import WebSpec.Proofs.Analysis.History
import WebSpec.Proofs.Idl.Attribute

/-!
# Analyses that complete

The findings of a definition are abandoned only where an extended attribute has to name something
and its value stands for no name, which is so for an empty list of names. `LacksName` says which
attributes have to, and `analyzeDefinitions_eq_error_iff` that this is the only way for an analysis
to fail: `analyzeDefinitions_namelessFactory` is one that does, where an attribute without any value
is passed over.

Texts have no such values, so their definitions are always analyzed to the end, and a text has a
report unless it cannot be parsed.
-/

namespace WebSpec.Idl

/-- Only an empty list stands for no name. -/
theorem AttributeValue.names_eq_nil_iff {v : AttributeValue} :
    v.names = [] ↔ v.form = .identifierList ∧ (v.content = .list [] ∨ v.content = .text "") := by
  obtain ⟨form, content⟩ := v
  cases form <;> cases content <;> simp [names]

theorem ExtAttribute.not_named_iff {attr : ExtAttribute} :
    ¬ attr.Named ↔ ∃ value, attr.value = some value ∧ value.names = [] := by
  simp [Named]

end WebSpec.Idl

namespace WebSpec.Analysis

open Idl (ExtAttribute Node)

variable {wellKnown : List String} {node : Node}

/-! ### Abandoned findings -/

/-- A definition has an attribute that has to name something and does not: its first one for the
primary global, or any one for a factory function, if no `Constructor` attribute takes
precedence. -/
def LacksName (node : Node) : Prop :=
  IsExposed node ∧
    ((∃ attr, node.extAttribute? "PrimaryGlobal" = some attr ∧ ¬ attr.Named) ∨
      (∀ attr ∈ node.attributes, attr.name ≠ "Constructor") ∧
        ∃ attr ∈ node.attributes, attr.name ∈ namedConstructorAttributes ∧ ¬ attr.Named)

theorem abandon_mem_primaryEntries :
    .abandon ∈ primaryEntries node ↔
      ∃ attr, node.extAttribute? "PrimaryGlobal" = some attr ∧ ¬ attr.Named := by
  unfold primaryEntries
  cases node.extAttribute? "PrimaryGlobal" with
  | none => simp
  | some attr =>
    have own : (∃ found, some attr = some found ∧ ¬ found.Named) ↔ ¬ attr.Named := by simp
    rw [own, ExtAttribute.not_named_iff]
    cases hv : attr.value with
    | none => simp [globalEntries, hv]
    | some value => cases hn : value.names <;> simp [globalEntries, hv, hn]

theorem abandon_mem_namedConstructorEntries {attr : ExtAttribute} :
    .abandon ∈ namedConstructorEntries wellKnown node attr ↔ ¬ attr.Named := by
  have arguments (as : List Idl.Argument) : .abandon ∉ argumentEntries wellKnown node.name as :=
    fun h => by cases isUse_of_mem_argumentEntries h
  rw [ExtAttribute.not_named_iff, namedConstructorEntries]
  cases attr.value with
  | none => simp
  | some value => cases hn : value.names <;> simp [hn, arguments]

theorem abandon_mem_constructorEntries :
    .abandon ∈ constructorEntries wellKnown node ↔
      (∀ attr ∈ node.attributes, attr.name ≠ "Constructor") ∧
        ∃ attr ∈ node.attributes, attr.name ∈ namedConstructorAttributes ∧ ¬ attr.Named := by
  unfold constructorEntries
  simp only
  split_ifs with hc hn hm hi
  · have plain : ¬ ∀ attr ∈ node.attributes, attr.name ≠ "Constructor" := by simpa using hc
    refine iff_of_false (fun h => ?_) fun h => plain h.1
    obtain ⟨attr, -, h⟩ := List.mem_flatMap.mp (List.mem_of_ne_of_mem (by simp) h)
    cases isUse_of_mem_argumentEntries h
  · have others : ∀ attr ∈ node.attributes, attr.name ≠ "Constructor" := by simpa using hc
    simp only [List.mem_flatMap, abandon_mem_namedConstructorEntries, List.mem_filter,
      List.contains_iff_mem, and_assoc, and_iff_right others]
  all_goals
    have none : ∀ attr ∈ node.attributes, attr.name ∉ namedConstructorAttributes := by
      simpa using hn
    exact iff_of_false (by simp) fun ⟨_, attr, ha, named, _⟩ => none attr ha named

/-- The findings of a definition are abandoned just if it lacks a name. -/
theorem abandon_mem_entries :
    .abandon ∈ (definitionPlan wellKnown node).entries ↔ LacksName node := by
  have other : ¬ IsPlain node .abandon := fun plain => by
    cases plain with
    | use h => cases h
    | relation kind h => simp [relationPlan] at h
  have listed : .abandon ∉ listedEntries node := fun h => by simpa using mem_listedEntries h
  have declared : .abandon ∉ declaredEntries node := fun h => by simpa using mem_declaredEntries h
  rw [mem_entries_iff other, LacksName, ← abandon_mem_primaryEntries,
    ← @abandon_mem_constructorEntries wellKnown]
  simp only [exposureEntries, List.mem_append, listed, declared, false_or]

/-- A definition with named attributes lacks no name. -/
theorem not_lacksName (named : node.Named) : ¬ LacksName node := by
  rintro ⟨-, ⟨attr, ha, unnamed⟩ | ⟨-, attr, ha, -, unnamed⟩⟩
  · exact unnamed (named attr (List.mem_of_find?_eq_some ha))
  · exact unnamed (named attr ha)

theorem abandoned_history_iff {definitions : List Node} :
    .abandon ∈ history wellKnown [] definitions ↔
      ∃ node, Counts definitions node ∧ LacksName node := by
  simp only [mem_history_iff (e := .abandon) (by simp) (by simp), abandon_mem_entries]

/-! ### Analyses -/

section

variable {settings : Settings} {definitions : List Node} {hasObsoleteIdl : Bool}

omit settings hasObsoleteIdl in
theorem Ledger.eq_missingName_of_recordDefinitions {l : Ledger} {e : AnalysisError}
    (h : l.recordDefinitions wellKnown definitions = .error e) : e = .missingName := by
  induction definitions generalizing l with
  | nil => cases h
  | cons node rest ih =>
    rw [recordDefinitions] at h
    split at h
    · exact ih h
    · exact (Except.error.inj h).symm

/-- Definitions have a report, unless one that counts lacks a name. -/
theorem exists_report_iff :
    (∃ report, analyzeDefinitions settings definitions hasObsoleteIdl = .ok report) ↔
      ∀ node, Counts definitions node → ¬ LacksName node := by
  simp only [analyzeDefinitions_eq_ok_iff, exists_and_left, exists_eq', and_true,
    abandoned_history_iff, not_exists, not_and]

/-- The only way for the analysis of definitions to fail is one that counts and lacks a name. -/
theorem analyzeDefinitions_eq_error_iff {e : AnalysisError} :
    analyzeDefinitions settings definitions hasObsoleteIdl = .error e ↔
      e = .missingName ∧ ∃ node, Counts definitions node ∧ LacksName node := by
  have lacks : (∃ node, Counts definitions node ∧ LacksName node) ↔
      ¬ ∃ report, analyzeDefinitions settings definitions hasObsoleteIdl = .ok report := by
    rw [exists_report_iff]
    simp only [not_forall, not_not, exists_prop]
  rw [lacks]
  cases h : analyzeDefinitions settings definitions hasObsoleteIdl with
  | ok report => simp
  | error found =>
    have only : found = .missingName := by
      rw [analyzeDefinitions] at h
      cases hl : ledgerOf settings definitions with
      | ok l =>
        rw [hl] at h
        cases h
      | error e' =>
        rw [hl] at h
        obtain rfl := Except.error.inj h
        exact Ledger.eq_missingName_of_recordDefinitions hl
    simp [only, eq_comm]

/-- Definitions with named attributes have a ledger. -/
theorem exists_ledgerOf (named : ∀ node ∈ definitions, node.Named) :
    ∃ l, ledgerOf settings definitions = .ok l := by
  refine ⟨_, ledgerOf_eq_ok_iff.mpr ⟨fun h => ?_, rfl⟩⟩
  obtain ⟨node, counts, lacks⟩ := abandoned_history_iff.mp h
  exact not_lacksName (named node counts.mem) lacks

/-- A text is analyzed, unless it cannot be parsed. -/
theorem exists_ledgerOf_of_definitionsOfText {text : String}
    (h : definitionsOfText settings text = .ok definitions) :
    ∃ l, ledgerOf settings definitions = .ok l := by
  refine exists_ledgerOf fun node hn => ?_
  cases hp : Idl.parse (settings.sourceOf text) with
  | error e => simp [definitionsOfText, hp, Except.mapError] at h
  | ok found =>
    obtain rfl : found = definitions := by simpa [definitionsOfText, hp, Except.mapError] using h
    exact Idl.named_of_parse hp hn

end

/-- An interface with an attribute for a factory function, and an empty list for its name. -/
def namelessFactory : Node :=
  { kind := .known .interface, name := "A"
    attributes :=
      [{ name := "LegacyFactoryFunction", value := some ⟨.identifierList, .list []⟩ }] }

/-- The analysis of the interface fails. -/
theorem analyzeDefinitions_namelessFactory :
    LacksName namelessFactory ∧
      analyzeDefinitions {} [namelessFactory] = .error .missingName := by
  have exposed : IsExposed namelessFactory := by decide
  have unnamed : ∀ attr ∈ namelessFactory.attributes, ¬ attr.Named := by
    simp [namelessFactory, ExtAttribute.Named, Idl.AttributeValue.names]
  have first := @List.mem_cons_self ExtAttribute
  exact ⟨⟨exposed, .inr ⟨by decide, _, first, by decide, unnamed _ first⟩⟩, rfl⟩

end WebSpec.Analysis
