import Mathlib.Data.List.Count
import WebSpec.Proofs.Analysis.Multiplicity

/-!
# The primary global

A definition that lists no context is visible in the primary global, which an attribute of any
definition may declare. Of several declarations the first one counts, wherever in the specification
it stands; those of other names are reported, each by a diagnostic that names both.

`primaryDeclarations` are the declarations of a specification, in order. A ledger follows them
(`Ledger.Follows`): it keeps the first one and has a diagnostic for each of the `conflicts`.
`primaryGlobal_of_analyze` says of a report which context its primary global is, and what is visible
there and in the other contexts.

A name that is empty is declared like any other, and later ones are in conflict with it, but it is
not the primary global: `primaryGlobal_unnamedScope` has neither of the two that are declared.
-/

namespace WebSpec.Analysis

open Idl (Node)

variable {wellKnown : List String} {node : Node}

/-! ### Declarations -/

/-- The primary globals that definitions declare, in order, each with the definition that does.
Partial definitions and those that are ignored declare none. -/
def primaryDeclarations (definitions : List Node) : List (String × String) :=
  (accepted [] definitions).flatMap fun node =>
    ((declaredPrimary? node).map fun primary => (primary, node.name)).toList

/-- The diagnostics for declarations after the first one: those of other names. -/
def conflicts : List (String × String) → List Diagnostic
  | [] => []
  | (first, _) :: later =>
    (later.filter (·.1 ≠ first)).map fun (primary, interface) =>
      duplicatePrimaryGlobal first primary interface

/-- The primary global after declarations. An empty name does not replace the default. -/
def primaryOf (defaultGlobal : String) : List (String × String) → String
  | [] => defaultGlobal
  | (first, _) :: _ => if first = "" then defaultGlobal else first

theorem conflicts_append_singleton (first : String × String) (earlier : List (String × String))
    (primary interface : String) :
    conflicts (first :: earlier ++ [(primary, interface)]) =
      conflicts (first :: earlier) ++
        if first.1 = primary then [] else [duplicatePrimaryGlobal first.1 primary interface] := by
  simp only [conflicts, List.cons_append, List.filter_append, List.map_append]
  by_cases same : first.1 = primary
  · simp [same]
  · simp [same, Ne.symm same]

/-! ### What a ledger keeps -/

/-- The declaration of a primary global that a finding is. -/
def Entry.primaryDeclaration? : Entry → Option (String × String)
  | .declarePrimary primary interface => some (primary, interface)
  | _ => none

/-- A diagnostic about the primary global. -/
def Diagnostic.IsConflict (d : Diagnostic) : Prop :=
  d.rule = "duplicate-primary-global"

instance : DecidablePred Diagnostic.IsConflict := fun d =>
  inferInstanceAs (Decidable (d.rule = _))

theorem isConflict_duplicatePrimaryGlobal (first primary interface : String) :
    (duplicatePrimaryGlobal first primary interface).IsConflict :=
  rfl

theorem not_isConflict_duplicateName (name : String) : ¬ (duplicateName name).IsConflict := by
  simp [Diagnostic.IsConflict, duplicateName]

theorem not_isConflict_unknownDefinition (node : Node) :
    ¬ (unknownDefinition node).IsConflict := by
  simp [Diagnostic.IsConflict, unknownDefinition]

namespace Ledger

/-- What is said about the primary global. -/
def conflicts (l : Ledger) : List Diagnostic :=
  l.diagnostics.filter Diagnostic.IsConflict

/-- A ledger keeps the first of some declarations of the primary global, and reports the others. -/
structure Follows (l : Ledger) (declarations : List (String × String)) : Prop where
  primaryGlobal : l.exposure.primaryGlobal = declarations.head?.map Prod.fst
  conflicts : l.conflicts = Analysis.conflicts declarations

theorem follows_empty : Follows {} [] :=
  ⟨rfl, rfl⟩

theorem conflicts_diagnose (l : Ledger) (d : Diagnostic) :
    (l.diagnose d).conflicts = l.conflicts ++ if d.IsConflict then [d] else [] := by
  have told : (l.diagnose d).diagnostics = l.diagnostics ++ [d] := by
    simp [diagnostics, diagnose, remark, List.filterMap_append]
  rw [conflicts, told, List.filter_append, conflicts]
  by_cases h : d.IsConflict <;> simp [h]

/-- A primary global is declared. -/
theorem Follows.declare {l : Ledger} {declarations : List (String × String)}
    (h : l.Follows declarations) (primary interface : String) :
    (l.declarePrimary primary interface).Follows (declarations ++ [(primary, interface)]) := by
  obtain ⟨kept, told⟩ := h
  cases declarations with
  | nil =>
    have none : l.exposure.primaryGlobal = none := kept
    simp only [declarePrimary, none]
    exact ⟨rfl, told⟩
  | cons first earlier =>
    have some : l.exposure.primaryGlobal = some first.1 := kept
    simp only [declarePrimary, some]
    split_ifs with same
    · exact ⟨kept, by rw [conflicts_append_singleton, if_pos same, List.append_nil, told]⟩
    · refine ⟨kept, ?_⟩
      rw [conflicts_append_singleton, if_neg same, ← told, conflicts_diagnose,
        if_pos (isConflict_duplicatePrimaryGlobal ..)]

/-- A finding that is no declaration says nothing about the primary global. -/
theorem conflicts_record {l : Ledger} {e : Entry} (none : e.primaryDeclaration? = none)
    (other : ∀ d, e = .remark (.diagnostic d) → ¬ d.IsConflict) :
    (l.record e).conflicts = l.conflicts := by
  have unrelated (d : Diagnostic) (h : ¬ d.IsConflict) :
      (l.diagnose d).conflicts = l.conflicts := by
    rw [conflicts_diagnose, if_neg h, List.append_nil]
  cases e with
  | declarePrimary primary interface => cases none
  | register name target isAlias =>
    simp only [record, register]
    split_ifs
    any_goals rfl
    exact unrelated _ (not_isConflict_duplicateName name)
  | remark r =>
    cases r with
    | diagnostic d => exact unrelated d (other d rfl)
    | namelessConstructor => simp [record, remark, conflicts, diagnostics, List.filterMap_append]
  | use name =>
    simp only [record]
    split_ifs <;> rfl
  | _ => rfl

theorem Follows.record {l : Ledger} {declarations : List (String × String)}
    (h : l.Follows declarations) (e : Entry)
    (other : ∀ d, e = .remark (.diagnostic d) → ¬ d.IsConflict) :
    (l.record e).Follows (declarations ++ e.primaryDeclaration?.toList) := by
  cases declared : e.primaryDeclaration? with
  | some declaration =>
    cases e with
    | declarePrimary primary interface =>
      obtain rfl := Option.some.inj declared
      exact h.declare primary interface
    | _ => cases declared
  | none =>
    have undeclared : e.primary? = none := by
      cases e with
      | declarePrimary primary interface => cases declared
      | _ => rfl
    rw [Option.toList_none, List.append_nil]
    refine ⟨?_, (conflicts_record declared other).trans h.conflicts⟩
    rw [(collected l e).primaryGlobal, undeclared, Option.or_none, h.primaryGlobal]

theorem Follows.foldl {l : Ledger} {declarations : List (String × String)}
    (h : l.Follows declarations) {es : List Entry}
    (others : ∀ d, .remark (.diagnostic d) ∈ es → ¬ d.IsConflict) :
    (es.foldl Ledger.record l).Follows
      (declarations ++ es.flatMap fun e => e.primaryDeclaration?.toList) := by
  induction es generalizing l declarations with
  | nil => simpa using h
  | cons e es ih =>
    have next := h.record e fun d same => others d (same ▸ List.mem_cons_self)
    simpa [List.append_assoc] using ih next fun d hd => others d (List.mem_cons_of_mem e hd)

end Ledger

/-! ### What definitions declare -/

theorem aboutExposure_primaryDeclaration :
    AboutExposure fun e => e.primaryDeclaration?.toList := by
  constructor <;> intros <;> rfl

/-- The attribute for the primary global is the only one that declares it. -/
theorem primaryDeclaration_exposureEntries (exposed : IsExposed node) :
    (exposureEntries wellKnown node).flatMap (fun e => e.primaryDeclaration?.toList) =
      ((declaredPrimary? node).map fun primary => (primary, node.name)).toList := by
  have listed : (listedEntries node).flatMap (fun e => e.primaryDeclaration?.toList) = [] := by
    refine List.flatMap_eq_nil_iff.mpr fun e he => ?_
    obtain ⟨_, rfl | rfl⟩ := mem_listedEntries he <;> rfl
  have declared : (declaredEntries node).flatMap (fun e => e.primaryDeclaration?.toList) = [] := by
    refine List.flatMap_eq_nil_iff.mpr fun e he => ?_
    obtain ⟨_, rfl | rfl⟩ := mem_declaredEntries he <;> rfl
  have context (context : String) :
      (globalEntries node context).flatMap (fun e => e.primaryDeclaration?.toList) = [] := by
    refine List.flatMap_eq_nil_iff.mpr fun e he => ?_
    obtain rfl | rfl := mem_globalEntries he <;> rfl
  have primary : (primaryEntries node).flatMap (fun e => e.primaryDeclaration?.toList) =
      ((declaredPrimary? node).map fun primary => (primary, node.name)).toList := by
    rw [declaredPrimary?, if_pos exposed, primaryEntries]
    cases node.extAttribute? "PrimaryGlobal" with
    | none => rfl
    | some attr =>
      simp only [Option.bind_some, givenNames]
      cases attr.value.elim [node.name] (·.names) with
      | nil => rfl
      | cons name rest => exact congrArg ((name, node.name) :: ·) (context name)
  have constructors : (constructorEntries wellKnown node).flatMap
      (fun e => e.primaryDeclaration?.toList) = [] :=
    aboutExposure_primaryDeclaration.flatMap_constructorEntries rfl (fun _ _ => rfl)
      fun _ _ _ => rfl
  rw [flatMap_exposureEntries, listed, declared, primary, constructors, List.append_nil,
    List.nil_append, List.nil_append]

theorem primaryDeclaration_history (definitions : List Node) :
    (history wellKnown [] definitions).flatMap (fun e => e.primaryDeclaration?.toList) =
      primaryDeclarations definitions := by
  rw [aboutExposure_primaryDeclaration.flatMap_history, primaryDeclarations]
  refine List.flatMap_congr fun node _ => ?_
  split_ifs with exposed
  · exact primaryDeclaration_exposureEntries exposed
  · rw [declaredPrimary?, if_neg exposed]
    rfl

/-- No definition has a diagnostic about the primary global for a finding. -/
theorem not_isConflict_of_mem_history {definitions : List Node} {d : Diagnostic}
    (h : .remark (.diagnostic d) ∈ history wellKnown [] definitions) : ¬ d.IsConflict := by
  by_cases duplicate : ∃ name, d = duplicateName name
  · obtain ⟨name, rfl⟩ := duplicate
    exact not_isConflict_duplicateName name
  · obtain ⟨node, -, h⟩ := (mem_history_iff (by simp) fun name same => duplicate
      ⟨name, by simpa using same⟩).mp h
    rw [eq_unknownDefinition_of_mem h]
    exact not_isConflict_unknownDefinition node

theorem follows_history (definitions : List Node) :
    (Ledger.ofEntries (history wellKnown [] definitions)).Follows
      (primaryDeclarations definitions) := by
  rw [← @primaryDeclaration_history wellKnown]
  exact Ledger.follows_empty.foldl fun _ => not_isConflict_of_mem_history

/-! ### What is visible -/

/-- The names that definitions have in a context that they list, each as often as it is listed. -/
def listedNames (definitions : List Node) (bucket : Bucket) (context : String) : List String :=
  ((accepted [] definitions).filter IsExposed).flatMap fun node =>
    (visibleNames node bucket).flatMap fun name =>
      List.replicate ((listedContexts node).count context) name

/-- The names of the definitions that list no contexts. -/
def unlistedNames (definitions : List Node) (bucket : Bucket) : List String :=
  ((accepted [] definitions).filter fun node =>
    IsExposed node ∧ listedContexts? node = none).flatMap (visibleNames · bucket)

theorem count_some_contextsOf (context : String) :
    (contextsOf node).count (some context) = (listedContexts node).count context := by
  unfold contextsOf listedContexts
  cases listedContexts? node with
  | none => simp
  | some names => exact List.count_map_of_injective names some (fun _ _ => Option.some.inj) context

theorem count_none_contextsOf :
    (contextsOf node).count none = if listedContexts? node = none then 1 else 0 := by
  unfold contextsOf
  cases listedContexts? node with
  | none => rfl
  | some names => simp [List.count_eq_zero]

theorem exposing_some_history (definitions : List Node) (bucket : Bucket) (context : String) :
    (history wellKnown [] definitions).flatMap (Entry.exposing bucket (some context)) =
      listedNames definitions bucket context := by
  rw [(aboutExposure_exposing bucket _).flatMap_history, listedNames, ← flatMap_ite]
  simp only [exposing_exposureEntries, count_some_contextsOf]

theorem exposing_none_history (definitions : List Node) (bucket : Bucket) :
    (history wellKnown [] definitions).flatMap (Entry.exposing bucket none) =
      unlistedNames definitions bucket := by
  rw [(aboutExposure_exposing bucket _).flatMap_history, unlistedNames, ← flatMap_ite]
  refine List.flatMap_congr fun node _ => ?_
  rw [exposing_exposureEntries, count_none_contextsOf]
  by_cases exposed : IsExposed node <;> by_cases unlisted : listedContexts? node = none <;>
    simp [exposed, unlisted]

/-! ### Reports -/

/-- The primary global of a report is the first one that its definitions declare, or else the
default. There is one diagnostic for each later declaration of another name, in order, and none
otherwise. What is visible in a context are the names of the definitions that list it, and in the
primary global also those of the definitions that list none. -/
theorem primaryGlobal_of_analyzeDefinitions {settings : Settings} {definitions : List Node}
    {hasObsoleteIdl : Bool} {report : Report}
    (h : analyzeDefinitions settings definitions hasObsoleteIdl = .ok report) :
    report.primaryGlobal = primaryOf settings.defaultGlobal (primaryDeclarations definitions) ∧
      report.diagnostics.filter Diagnostic.IsConflict =
        conflicts (primaryDeclarations definitions) ∧
      ∀ bucket context, ((report.exposure.entries bucket).get? context).getD [] =
        listedNames definitions bucket context ++
          if context = report.primaryGlobal then unlistedNames definitions bucket else [] := by
  obtain ⟨-, rfl⟩ := analyzeDefinitions_eq_ok_iff.mp h
  have follows : (Ledger.ofEntries (history settings.wellKnown [] definitions)).Follows _ :=
    follows_history definitions
  refine ⟨?_, follows.conflicts, fun bucket context => ?_⟩
  · simp only [Ledger.report, Exposure.primary, follows.primaryGlobal]
    cases primaryDeclarations definitions <;> rfl
  · have held := Ledger.freeze_ofEntries (history settings.wellKnown [] definitions)
      settings.defaultGlobal bucket context
    rw [← @exposing_some_history settings.wellKnown,
      ← @exposing_none_history settings.wellKnown]
    exact (congrArg (·.getD []) held).trans (getD_nonempty? _)

/-- The first primary global that a text declares is that of its report, unless it is empty, and
the definitions without contexts are visible there. -/
theorem primaryGlobal_of_analyze {settings : Settings} {text : String} {report : Report}
    (h : analyze settings text = .ok report) :
    ∃ definitions, definitionsOfText settings text = .ok definitions ∧
      report.primaryGlobal = primaryOf settings.defaultGlobal (primaryDeclarations definitions) ∧
      report.diagnostics.filter Diagnostic.IsConflict =
        conflicts (primaryDeclarations definitions) ∧
      ∀ bucket context, ((report.exposure.entries bucket).get? context).getD [] =
        listedNames definitions bucket context ++
          if context = report.primaryGlobal then unlistedNames definitions bucket else [] := by
  obtain ⟨definitions, found, h⟩ := bind_eq_ok.mp h
  exact ⟨definitions, found, primaryGlobal_of_analyzeDefinitions h⟩

/-- A scope with an empty name for its global, and one with the name `Worker`. -/
def unnamedScope : List Node :=
  [{ kind := .known .interface, name := "A"
     attributes := [{ name := "PrimaryGlobal", value := some ⟨.string, .text ""⟩ }] },
   { kind := .known .interface, name := "B"
     attributes := [{ name := "PrimaryGlobal", value := some ⟨.identifier, .text "Worker"⟩ }] }]

/-- The empty name keeps the other one from being the primary global, and is not it either. -/
theorem primaryGlobal_unnamedScope :
    primaryDeclarations unnamedScope = [("", "A"), ("Worker", "B")] ∧
      ∃ report, analyzeDefinitions {} unnamedScope = .ok report ∧
        report.primaryGlobal = "Window" ∧
        report.diagnostics = [duplicatePrimaryGlobal "" "Worker" "B"] ∧
        report.exposure.functions.get? "Window" = some ["A", "B"] :=
  ⟨by decide, _, rfl, rfl, rfl, rfl⟩

end WebSpec.Analysis
