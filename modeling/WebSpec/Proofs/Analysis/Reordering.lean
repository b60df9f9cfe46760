import WebSpec.Proofs.Analysis.Collection
import WebSpec.Proofs.Analysis.Precedence

/-!
# The order of definitions

Findings are entered in the order of the definitions, and a report keeps that order in its tables
and lists. Apart from this the order does not matter, as long as no two definitions take the same
name and the primary global is declared under one name only: `analyzeDefinitions_perm`.

With distinct names all definitions count, so that what is entered for a list of definitions is what
is entered for each of them alone (`history_eq_flatMap`), and a permutation of the definitions
permutes the findings. `report_sameUpToOrder` compares the reports on permuted findings.
-/

namespace WebSpec

/-- Tables of lists that hold the same members under each key, each as often, in whatever order. -/
def Table.SameMembers {κ β : Type} [DecidableEq κ] (t t' : Table κ (List β)) : Prop :=
  ∀ k, Option.Rel List.Perm (t.get? k) (t'.get? k)

theorem nonempty?_perm {β : Type} {xs ys : List β} (h : xs.Perm ys) :
    Option.Rel List.Perm (nonempty? xs) (nonempty? ys) := by
  by_cases empty : xs = []
  · obtain rfl : ys = [] := (empty ▸ h).nil_eq.symm
    subst empty
    exact .none
  · have empty' : ys ≠ [] := fun none => empty (none ▸ h).eq_nil
    rw [nonempty?_eq_some empty, nonempty?_eq_some empty']
    exact .some h

theorem Table.Collects.sameMembers {κ β : Type} [DecidableEq κ] {t t' : Table κ (List β)}
    {f f' : κ → List β} (h : t.Collects f) (h' : t'.Collects f') (perm : ∀ k, (f k).Perm (f' k)) :
    t.SameMembers t' := fun k => by
  rw [h k, h' k]
  exact nonempty?_perm (perm k)

/-- What is found first does not depend on the order if there is only one thing to find. -/
theorem findSome?_perm {α β : Type} {f : α → Option β} {xs ys : List α} (perm : xs.Perm ys)
    (unique : ∀ x ∈ xs, ∀ y ∈ xs, ∀ b ∈ f x, ∀ c ∈ f y, b = c) :
    xs.findSome? f = ys.findSome? f := by
  cases found : xs.findSome? f with
  | none =>
    rw [List.findSome?_eq_none_iff] at found
    exact (List.findSome?_eq_none_iff.mpr fun y hy => found y (perm.mem_iff.mpr hy)).symm
  | some b =>
    obtain ⟨x, hx, hb⟩ := List.exists_of_findSome?_eq_some found
    obtain ⟨c, found'⟩ := Option.isSome_iff_exists.mp
      (List.findSome?_isSome_iff.mpr ⟨x, perm.mem_iff.mp hx, Option.isSome_of_eq_some hb⟩)
    obtain ⟨y, hy, hc⟩ := List.exists_of_findSome?_eq_some found'
    rw [found', unique x hx y (perm.mem_iff.mpr hy) b hb c hc]

namespace Analysis

open Idl (Node)

variable {wellKnown : List String}

/-! ### Reports -/

/-- Reports that tell the same about names, and differ in the order at most. -/
structure Report.SameUpToOrder (r r' : Report) : Prop where
  names : ∀ n, n ∈ r.names.keys ↔ n ∈ r'.names.keys
  dependencies_keys : ∀ n, n ∈ r.dependencies.keys ↔ n ∈ r'.dependencies.keys
  dependencies : ∀ n d,
    d ∈ (r.dependencies.get? n).getD ∅ ↔ d ∈ (r'.dependencies.get? n).getD ∅
  externalDependencies : ∀ n, n ∈ r.externalDependencies ↔ n ∈ r'.externalDependencies
  reallyDependsOnWindow : r.reallyDependsOnWindow = r'.reallyDependsOnWindow
  primaryGlobal : r.primaryGlobal = r'.primaryGlobal
  extendedNames : r.extendedNames.SameMembers r'.extendedNames
  globals : r.globals.SameMembers r'.globals
  exposed : r.exposed.SameMembers r'.exposed
  constructors : r.exposure.constructors.SameMembers r'.exposure.constructors
  functions : r.exposure.functions.SameMembers r'.exposure.functions
  objects : r.exposure.objects.SameMembers r'.exposure.objects

namespace Ledger

section

variable {es es' : List Entry}

theorem mem_names_perm (perm : es.Perm es') (n : String) :
    n ∈ (ofEntries es).names.keys ↔ n ∈ (ofEntries es').names.keys := by
  simp only [mem_names_ofEntries, perm.mem_iff]

theorem mem_externalDependencies_perm (perm : es.Perm es') (n : String) :
    n ∈ (ofEntries es).externalDependencies ↔ n ∈ (ofEntries es').externalDependencies := by
  simp only [mem_externalDependencies, mem_referenced_ofEntries, perm.mem_iff,
    mem_names_perm perm n]

theorem freezeEntries_perm (perm : es.Perm es') (primary : String) (bucket : Bucket) :
    (Exposure.freezeEntries primary ((ofEntries es).exposure.entries bucket)).SameMembers
      (Exposure.freezeEntries primary ((ofEntries es').exposure.entries bucket)) := fun c => by
  rw [Exposure.get?_freezeEntries (exposure_ofEntries bucket es),
    Exposure.get?_freezeEntries (exposure_ofEntries bucket es')]
  refine nonempty?_perm ((perm.flatMap_right _).append ?_)
  split
  · exact perm.flatMap_right _
  · exact .nil

/-- The reports on the same findings in another order. -/
theorem report_sameUpToOrder (perm : es.Perm es')
    (single : ∀ e ∈ es, ∀ e' ∈ es, ∀ p ∈ e.primary?, ∀ q ∈ e'.primary?, p = q)
    (defaultGlobal : String) (hasObsoleteIdl : Bool) :
    ((ofEntries es).report defaultGlobal hasObsoleteIdl).SameUpToOrder
      ((ofEntries es').report defaultGlobal hasObsoleteIdl) := by
  have primary : (ofEntries es).exposure.primary defaultGlobal =
      (ofEntries es').exposure.primary defaultGlobal := by
    rw [Exposure.primary, Exposure.primary, primaryGlobal_ofEntries, primaryGlobal_ofEntries,
      findSome?_perm perm single]
  have visible (bucket : Bucket) := freezeEntries_perm perm
    ((ofEntries es).exposure.primary defaultGlobal) bucket
  exact
    { names := mem_names_perm perm
      dependencies_keys := fun n => by
        simp only [report, mem_dependencies_keys_ofEntries, mem_names_perm perm n, perm.mem_iff]
      dependencies := fun n d => by
        simp only [report, mem_dependencies_ofEntries, perm.mem_iff]
      externalDependencies := mem_externalDependencies_perm perm
      reallyDependsOnWindow := by
        simp only [report, reallyDependsOnWindow_ofEntries, perm.any_eq]
      primaryGlobal := primary
      extendedNames := (extendedNames_ofEntries es).sameMembers (extendedNames_ofEntries es')
        fun _ => perm.flatMap_right _
      globals := (globals_ofEntries es).sameMembers (globals_ofEntries es')
        fun _ => perm.flatMap_right _
      exposed := (exposed_ofEntries es).sameMembers (exposed_ofEntries es')
        fun _ => perm.flatMap_right _
      constructors := by
        simpa only [report, Exposure.freeze, Exposure.entries, ← primary] using
          visible .constructors
      functions := by
        simpa only [report, Exposure.freeze, Exposure.entries, ← primary] using visible .functions
      objects := by
        simpa only [report, Exposure.freeze, Exposure.entries, ← primary] using visible .objects }

end

end Ledger

/-! ### Definitions of distinct names -/

/-- No two definitions take the same name. -/
def DistinctNames (definitions : List Node) : Prop :=
  definitions.Pairwise fun a b => TakesName a → TakesName b → a.name ≠ b.name

theorem effect_eq_of_not_isTaken {earlier : List Node} {node : Node}
    (fresh : TakesName node → ¬ IsTaken earlier node.name) :
    effect wellKnown earlier node = effect wellKnown [] node := by
  unfold effect
  by_cases takes : TakesName node
  · rw [if_neg (fresh takes), if_neg (not_isTaken_nil _)]
  · rw [if_neg takes, if_neg takes]

/-- Definitions of distinct names enter what each of them enters alone. -/
theorem history_eq_flatMap {earlier definitions : List Node} (distinct : DistinctNames definitions)
    (fresh : ∀ node ∈ definitions, TakesName node → ¬ IsTaken earlier node.name) :
    history wellKnown earlier definitions = definitions.flatMap (effect wellKnown []) := by
  induction definitions generalizing earlier with
  | nil => rfl
  | cons node rest ih =>
    obtain ⟨first, distinct⟩ := List.pairwise_cons.mp distinct
    rw [history, effect_eq_of_not_isTaken (fresh node List.mem_cons_self), List.flatMap_cons,
      ih distinct]
    intro other mem takes
    rw [isTaken_append_singleton, not_or]
    exact ⟨fresh other (List.mem_cons_of_mem _ mem) takes,
      fun again => first other mem again.1 takes again.2⟩

theorem DistinctNames.perm {definitions definitions' : List Node}
    (perm : definitions.Perm definitions') (distinct : DistinctNames definitions) :
    DistinctNames definitions' :=
  (perm.pairwise_iff fun h ta tb same => h tb ta same.symm).mp distinct

/-! ### One primary global -/

/-- The primary global that a definition declares. -/
def declaredPrimary? (node : Node) : Option String :=
  if IsExposed node then
    (node.extAttribute? "PrimaryGlobal").bind fun attr => (givenNames node attr).head?
  else none

/-- The definitions that declare a primary global declare the same one. -/
def OnePrimary (definitions : List Node) : Prop :=
  ∀ a ∈ definitions, ∀ b ∈ definitions,
    ∀ p ∈ declaredPrimary? a, ∀ q ∈ declaredPrimary? b, p = q

section

variable {node : Node} {primary interface : String}

theorem declarePrimary_mem_primaryEntries
    (h : .declarePrimary primary interface ∈ primaryEntries node) :
    ((node.extAttribute? "PrimaryGlobal").bind fun attr => (givenNames node attr).head?) =
      some primary := by
  unfold primaryEntries at h
  cases ha : node.extAttribute? "PrimaryGlobal" with
  | none => simp [ha] at h
  | some attr =>
    simp only [ha] at h
    rw [Option.bind_some, givenNames]
    cases hn : attr.value.elim [node.name] (·.names) with
    | nil => simp [hn] at h
    | cons first rest =>
      simp only [hn, List.mem_cons, Entry.declarePrimary.injEq] at h
      rcases h with ⟨rfl, -⟩ | h
      · rfl
      · rcases mem_globalEntries h with h | h <;> cases h

theorem declarePrimary_mem_exposureEntries
    (h : .declarePrimary primary interface ∈ exposureEntries wellKnown node) :
    .declarePrimary primary interface ∈ primaryEntries node := by
  simp only [exposureEntries, List.mem_append] at h
  rcases h with ((h | h) | h) | h
  · obtain ⟨context, -, h⟩ := List.mem_flatMap.mp h
    split_ifs at h <;> simp at h
  · obtain ⟨context, h | h⟩ := mem_declaredEntries h <;> cases h
  · exact h
  · rcases mem_constructorEntries h with h | ⟨_, _, h⟩ | ⟨_, _, h⟩ | ⟨_, _, _, h⟩ | ⟨a, -, h⟩
    any_goals cases h
    cases isUse_of_mem_typeEntries h

/-- A finding about the primary global is what the definition declares. -/
theorem declarePrimary_mem_entries
    (h : .declarePrimary primary interface ∈ (definitionPlan wellKnown node).entries) :
    declaredPrimary? node = some primary := by
  have other : ¬ IsPlain node (.declarePrimary primary interface) := fun plain => by
    cases plain with
    | use h => cases h
    | relation kind h => simp [relationPlan] at h
  obtain ⟨exposed, h⟩ := (mem_entries_iff other).mp h
  rw [declaredPrimary?, if_pos exposed]
  exact declarePrimary_mem_primaryEntries (declarePrimary_mem_exposureEntries h)

theorem primary?_mem_effect {e : Entry} (h : e ∈ effect wellKnown [] node)
    (declares : primary ∈ e.primary?) : declaredPrimary? node = some primary := by
  cases e with
  | declarePrimary declared interface =>
    obtain rfl : declared = primary := Option.some.inj declares
    rw [effect, if_neg (not_isTaken_nil _)] at h
    split_ifs at h
    · rcases List.mem_cons.mp h with h | h
      · cases h
      · exact declarePrimary_mem_entries h
    · exact declarePrimary_mem_entries h
  | _ => cases declares

end

/-- Definitions of distinct names, with one primary global at most, have the same report in every
order, apart from the order of what is in it. -/
theorem analyzeDefinitions_perm {settings : Settings} {definitions definitions' : List Node}
    {hasObsoleteIdl : Bool} {report : Report} (perm : definitions.Perm definitions')
    (distinct : DistinctNames definitions) (primary : OnePrimary definitions)
    (h : analyzeDefinitions settings definitions hasObsoleteIdl = .ok report) :
    ∃ report', analyzeDefinitions settings definitions' hasObsoleteIdl = .ok report' ∧
      report.SameUpToOrder report' := by
  have entered {ds : List Node} (distinct : DistinctNames ds) :
      history settings.wellKnown [] ds = ds.flatMap (effect settings.wellKnown []) :=
    history_eq_flatMap distinct fun node _ _ => not_isTaken_nil node.name
  have permuted : (history settings.wellKnown [] definitions).Perm
      (history settings.wellKnown [] definitions') := by
    rw [entered distinct, entered (distinct.perm perm)]
    exact perm.flatMap_right _
  obtain ⟨complete, rfl⟩ := analyzeDefinitions_eq_ok_iff.mp h
  refine ⟨_, analyzeDefinitions_eq_ok_iff.mpr
    ⟨fun abandoned => complete (permuted.mem_iff.mpr abandoned), rfl⟩, ?_⟩
  refine Ledger.report_sameUpToOrder permuted ?_ _ _
  rw [entered distinct]
  intro e he e' he' p hp q hq
  obtain ⟨a, ha, hea⟩ := List.mem_flatMap.mp he
  obtain ⟨b, hb, heb⟩ := List.mem_flatMap.mp he'
  exact primary a ha b hb p (primary?_mem_effect hea hp) q (primary?_mem_effect heb hq)

/-- A player that is visible in the primary global and extended from elsewhere, and the window,
which declares the primary global. -/
def playerDefinitions : List Node :=
  [{ kind := .known .interface, name := "Player" },
   { kind := .known .includes, target := "Player", includes := "Controls" },
   { kind := .known .interface, name := "Player", isPartial := true },
   { kind := .known .interface, name := "Window",
     attributes := [{ name := "PrimaryGlobal" }] }]

theorem analyzeDefinitions_perm_player :
    playerDefinitions.Perm playerDefinitions.reverse ∧ DistinctNames playerDefinitions ∧
      OnePrimary playerDefinitions ∧
      ∃ report, analyzeDefinitions {} playerDefinitions = .ok report ∧
        ∃ report', analyzeDefinitions {} playerDefinitions.reverse = .ok report' ∧
          report.SameUpToOrder report' := by
  have perm : playerDefinitions.Perm playerDefinitions.reverse := (List.reverse_perm _).symm
  have distinct : DistinctNames playerDefinitions := by
    unfold DistinctNames playerDefinitions
    decide
  have primary : OnePrimary playerDefinitions := by
    unfold OnePrimary playerDefinitions
    decide
  exact ⟨perm, distinct, primary, _, rfl, analyzeDefinitions_perm perm distinct primary rfl⟩

end Analysis

end WebSpec
