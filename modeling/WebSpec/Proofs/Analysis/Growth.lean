import Mathlib.Data.List.Infix
import WebSpec.Proofs.Analysis.History

/-!
# Reports on more definitions

What becomes of a report when definitions are appended. A ledger only grows while findings are
entered: `Ledger.GrowsTo` relates it to a later one, by a step for a single finding
(`growsTo_record`) and by induction for many. Lists get longer at their ends, sets get more members,
and no key is lost or moved.

What is external is the exception. A name that is taken only later is no longer external, and
`Report.GrowsTo` says of the others that they keep their places.
-/

namespace WebSpec

instance : HasSubset NameSet := ⟨fun s t => ∀ n ∈ s, n ∈ t⟩

instance : IsPreorder NameSet (· ⊆ ·) where
  refl _ _ hn := hn
  trans _ _ _ h h' n hn := h' n (h n hn)

theorem NameSet.names_insert_prefix (s : NameSet) (n : String) :
    s.names <+: (s.insert n).names := by
  unfold NameSet.insert
  split
  · exact List.prefix_rfl
  · exact List.prefix_append _ _

namespace Table

variable {κ β : Type} [DecidableEq κ]

/-- Each key of a table has a value in the later table too, to which its own is related. -/
def GrowsTo (R : β → β → Prop) (t later : Table κ β) : Prop :=
  ∀ k v, t.get? k = some v → ∃ v', later.get? k = some v' ∧ R v v'

variable {R : β → β → Prop} [IsPreorder β R]

theorem GrowsTo.refl (t : Table κ β) : t.GrowsTo R t :=
  fun _ v h => ⟨v, h, Std.Refl.refl v⟩

theorem GrowsTo.trans {t₁ t₂ t₃ : Table κ β} (h : t₁.GrowsTo R t₂) (h' : t₂.GrowsTo R t₃) :
    t₁.GrowsTo R t₃ := by
  intro k u hu
  obtain ⟨v, hv, first⟩ := h k u hu
  obtain ⟨w, hw, second⟩ := h' k v hv
  exact ⟨w, hw, IsTrans.trans u v w first second⟩

/-- A table grows if the value of a key does. -/
theorem growsTo_alter {f : Option β → β} (grows : ∀ v, R v (f (some v))) (t : Table κ β) (k : κ) :
    t.GrowsTo R (t.alter k f) := by
  intro k' v hv
  rw [get?_alter]
  by_cases here : k' = k
  · subst here
    exact ⟨f (some v), by rw [if_pos rfl, hv], grows v⟩
  · exact ⟨v, by rw [if_neg here, hv], Std.Refl.refl v⟩

end Table

namespace Analysis

open Idl (Node)

namespace Ledger

/-! ### Ledgers -/

/-- What becomes of a ledger while findings are entered. -/
structure GrowsTo (l later : Ledger) : Prop where
  names : l.names.keys <+: later.names.keys
  dependencies : l.dependencies.GrowsTo (· ⊆ ·) later.dependencies
  extendedNames : l.extendedNames.GrowsTo (· <+: ·) later.extendedNames
  globals : l.globals.GrowsTo (· <+: ·) later.globals
  exposed : l.exposed.GrowsTo (· <+: ·) later.exposed
  referenced : l.referenced.names <+: later.referenced.names
  remarks : l.remarks <+: later.remarks
  reallyDependsOnWindow : l.reallyDependsOnWindow = true → later.reallyDependsOnWindow = true

theorem GrowsTo.refl (l : Ledger) : l.GrowsTo l where
  names := List.prefix_rfl
  dependencies := .refl _
  extendedNames := .refl _
  globals := .refl _
  exposed := .refl _
  referenced := List.prefix_rfl
  remarks := List.prefix_rfl
  reallyDependsOnWindow := id

theorem GrowsTo.trans {l₁ l₂ l₃ : Ledger} (h : l₁.GrowsTo l₂) (h' : l₂.GrowsTo l₃) :
    l₁.GrowsTo l₃ where
  names := h.names.trans h'.names
  dependencies := h.dependencies.trans h'.dependencies
  extendedNames := h.extendedNames.trans h'.extendedNames
  globals := h.globals.trans h'.globals
  exposed := h.exposed.trans h'.exposed
  referenced := h.referenced.trans h'.referenced
  remarks := h.remarks.trans h'.remarks
  reallyDependsOnWindow := h'.reallyDependsOnWindow ∘ h.reallyDependsOnWindow

theorem growsTo_diagnose (l : Ledger) (d : Diagnostic) : l.GrowsTo (l.diagnose d) :=
  { GrowsTo.refl l with remarks := List.prefix_append _ _ }

theorem growsTo_push {κ β : Type} [DecidableEq κ] (t : Table κ (List β)) (k : κ) (x : β) :
    t.GrowsTo (· <+: ·) (t.alter k fun xs => xs.getD [] ++ [x]) :=
  Table.growsTo_alter (fun xs => List.prefix_append xs [x]) t k

/-- A registration adds a key, or none. -/
theorem growsTo_register (l : Ledger) (name : String) (target : NameTarget) (isAlias : Bool) :
    l.GrowsTo (l.record (.register name target isAlias)) := by
  by_cases free : l.isFree name isAlias
  · rw [show l.record (.register name target isAlias) = _ from congrArg Prod.fst (if_pos free)]
    refine { GrowsTo.refl l with names := ?_, dependencies := ?_ }
    · rw [Table.keys_insert]
      split_ifs
      · exact List.prefix_rfl
      · exact List.prefix_append _ _
    · exact Table.growsTo_alter (fun _ _ hn => hn) _ _
  · simp only [record, register, if_neg free]
    cases isAlias with
    | true => exact .refl l
    | false => exact growsTo_diagnose l _

theorem growsTo_record (l : Ledger) (e : Entry) : l.GrowsTo (l.record e) := by
  cases e with
  | register name target isAlias => exact growsTo_register l name target isAlias
  | extend name node => exact { GrowsTo.refl l with extendedNames := growsTo_push _ _ _ }
  | reference name =>
    exact { GrowsTo.refl l with referenced := l.referenced.names_insert_prefix name }
  | depend owner name =>
    refine { GrowsTo.refl l with dependencies := ?_, referenced := ?_ }
    · exact Table.growsTo_alter (fun _ _ hn => NameSet.mem_insert.mpr (.inr hn)) _ _
    · exact l.referenced.names_insert_prefix name
  | use name =>
    simp only [record]
    split_ifs
    · exact { GrowsTo.refl l with reallyDependsOnWindow := fun _ => rfl }
    · exact .refl l
  | declareGlobal context interface =>
    exact { GrowsTo.refl l with globals := growsTo_push _ _ _ }
  | listExposed context interface =>
    exact { GrowsTo.refl l with exposed := growsTo_push _ _ _ }
  | expose bucket contexts name => exact { GrowsTo.refl l with }
  | declarePrimary primary interface =>
    simp only [record, declarePrimary]
    split
    · exact { GrowsTo.refl l with }
    · split_ifs
      · exact .refl l
      · exact growsTo_diagnose l _
  | remark r => exact { GrowsTo.refl l with remarks := List.prefix_append _ _ }
  | abandon => exact .refl l

theorem growsTo_foldl (l : Ledger) (es : List Entry) : l.GrowsTo (es.foldl record l) := by
  induction es generalizing l with
  | nil => exact .refl l
  | cons e es ih => exact (growsTo_record l e).trans (ih (l.record e))

end Ledger

/-! ### Reports -/

/-- What becomes of a report when definitions are appended. -/
structure Report.GrowsTo (report later : Report) : Prop where
  /-- The names keep their places. -/
  names : report.names.keys <+: later.names.keys
  dependencies : report.dependencies.GrowsTo (· ⊆ ·) later.dependencies
  extendedNames : report.extendedNames.GrowsTo (· <+: ·) later.extendedNames
  globals : report.globals.GrowsTo (· <+: ·) later.globals
  exposed : report.exposed.GrowsTo (· <+: ·) later.exposed
  diagnostics : report.diagnostics <+: later.diagnostics
  reallyDependsOnWindow :
    report.reallyDependsOnWindow = true → later.reallyDependsOnWindow = true
  /-- What is external and not taken later keeps its place. -/
  externalDependencies :
    (report.externalDependencies.filter fun n => !later.names.contains n) <+:
      later.externalDependencies

theorem Ledger.GrowsTo.report {l later : Ledger} (h : l.GrowsTo later) (defaultGlobal : String)
    (hasObsoleteIdl hasObsoleteIdl' : Bool) :
    (l.report defaultGlobal hasObsoleteIdl).GrowsTo
      (later.report defaultGlobal hasObsoleteIdl') where
  names := h.names
  dependencies := h.dependencies
  extendedNames := h.extendedNames
  globals := h.globals
  exposed := h.exposed
  diagnostics := h.remarks.filterMap _
  reallyDependsOnWindow := h.reallyDependsOnWindow
  externalDependencies := by
    have untaken : (l.externalDependencies.filter fun n => !later.names.contains n) =
        l.referenced.names.filter fun n => !later.names.contains n := by
      rw [externalDependencies, List.filter_filter]
      refine List.filter_congr fun n _ => ?_
      by_cases taken : n ∈ l.names.keys
      · simp [Table.contains_iff.mpr (h.names.subset taken)]
      · have free : l.names.contains n = false := by
          rwa [← Bool.not_eq_true, Table.contains_iff]
        rw [free, Bool.not_false, Bool.and_true]
    have grown : (l.referenced.names.filter fun n => !later.names.contains n) <+:
        later.externalDependencies := h.referenced.filter _
    exact untaken ▸ grown

/-! ### Definitions behind others -/

variable {wellKnown : List String}

/-- Behind others no more findings are abandoned than without them. -/
theorem abandon_mem_history {earlier definitions : List Node}
    (h : .abandon ∈ history wellKnown earlier definitions) :
    .abandon ∈ history wellKnown [] definitions := by
  obtain ⟨before, node, after, rfl, found⟩ := mem_history.mp h
  refine mem_history.mpr ⟨before, node, after, rfl, ?_⟩
  have still (taken : IsTaken before node.name) : IsTaken (earlier ++ before) node.name := by
    obtain ⟨other, mem, takes⟩ := taken
    exact ⟨other, List.mem_append_right earlier mem, takes⟩
  rw [List.nil_append]
  unfold effect at found ⊢
  by_cases takes : TakesName node
  · by_cases taken : IsTaken (earlier ++ before) node.name
    · simp [takes, taken] at found
    · simpa [takes, taken, mt still taken] using found
  · simpa [takes] using found

/-- Appending definitions lets a report grow. It can be made if the definitions before and those
that are appended have reports. -/
theorem analyzeDefinitions_append {settings : Settings} {definitions more : List Node}
    {hasObsoleteIdl hasObsoleteIdl' : Bool} {report : Report}
    (h : analyzeDefinitions settings definitions hasObsoleteIdl = .ok report) :
    ((∃ other, analyzeDefinitions settings more hasObsoleteIdl' = .ok other) →
      ∃ later, analyzeDefinitions settings (definitions ++ more) hasObsoleteIdl' = .ok later) ∧
    ∀ later, analyzeDefinitions settings (definitions ++ more) hasObsoleteIdl' = .ok later →
      report.GrowsTo later := by
  obtain ⟨complete, rfl⟩ := analyzeDefinitions_eq_ok_iff.mp h
  simp only [analyzeDefinitions_eq_ok_iff, history_append, List.nil_append, List.mem_append, not_or]
  constructor
  · rintro ⟨other, complete', -⟩
    exact ⟨_, ⟨complete, fun abandoned => complete' (abandon_mem_history abandoned)⟩, rfl⟩
  · rintro later ⟨-, rfl⟩
    rw [Ledger.ofEntries, Ledger.ofEntries, List.foldl_append]
    exact (Ledger.growsTo_foldl _ _).report _ _ _

/-- A stage whose scope is named before anything else of this name, and the player on it. -/
def stageDefinitions : List Node :=
  [{ kind := .known .interface, name := "StageScope", inheritance := some "Stage"
     attributes := [{ name := "Global", value := some ⟨.identifier, .text "Stage"⟩ }] },
   { kind := .known .interface, name := "Player", inheritance := some "Actor" },
   { kind := .known .includes, target := "Player", includes := "Voice" }]

/-- What is behind the stage: the stage itself, a role and more of the player. -/
def castDefinitions : List Node :=
  [{ kind := .known .interface, name := "Stage" },
   { kind := .known .dictionary, name := "Actor", inheritance := some "Voice" },
   { kind := .known .interface, name := "Player", isPartial := true,
     inheritance := some "Window" }]

/-- The actor is external at first and not any more, the voice stays where it was, and the window
comes behind it. -/
theorem analyzeDefinitions_append_stage :
    ∃ report later, analyzeDefinitions {} stageDefinitions = .ok report ∧
      analyzeDefinitions {} (stageDefinitions ++ castDefinitions) = .ok later ∧
      report.externalDependencies = ["Actor", "Voice"] ∧
      later.externalDependencies = ["Voice", "Window"] ∧ report.GrowsTo later := by
  have run : analyzeDefinitions {} stageDefinitions = .ok _ := rfl
  have run' : analyzeDefinitions {} (stageDefinitions ++ castDefinitions) = .ok _ := rfl
  exact ⟨_, _, run, run', by decide, by decide, (analyzeDefinitions_append run).2 _ run'⟩

end Analysis

end WebSpec
