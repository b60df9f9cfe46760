import WebSpec.Proofs.Analysis.Addition
import WebSpec.Proofs.Analysis.Ignored

/-!
# More well-known types

An analysis may be told that more types are well-known. Then names do not depend on these types
where they use them, and nothing else changes: `analyzeDefinitions_wellKnown` compares the reports of
two analyses of the same definitions, of which the second one knows more types.

The findings of a definition are the same, except that those that say that its name depends on a
newly known type are left out (`leavesOut_entries`). `Ledger.Omits` relates the ledgers of both
analyses. It is kept by a finding that is entered in both (`Omits.record`), and by one that is left
out, as long as its owner has an entry among the dependencies already (`Omits.leave`); this is so
because a definition takes its name, or adds to it, before its types are looked at.
-/

namespace WebSpec

/-! ### Sets of names -/

/-- The second set is the first one without some of the names that satisfy `p`. The other names are
in the same order. -/
structure NameSet.Omits (p : String → Prop) [DecidablePred p] (s s' : NameSet) : Prop where
  others : s'.names.filter (¬ p ·) = s.names.filter (¬ p ·)
  subset : s' ⊆ s

namespace NameSet

variable {p : String → Prop} [DecidablePred p] {s s' : NameSet}

theorem Omits.refl (s : NameSet) : s.Omits p s :=
  ⟨rfl, fun _ h => h⟩

/-- What is omitted satisfies `p`. -/
theorem Omits.of_not_mem (h : s.Omits p s') {n : String} (hn : n ∈ s) (omitted : n ∉ s') : p n := by
  by_contra other
  have kept : n ∈ s.names.filter (¬ p ·) := List.mem_filter.mpr ⟨hn, by simpa using other⟩
  rw [← h.others] at kept
  exact omitted (List.mem_filter.mp kept).1

theorem filter_names_insert (s : NameSet) (n : String) :
    (s.insert n).names.filter (¬ p ·) =
      if p n ∨ n ∈ s.names.filter (¬ p ·) then s.names.filter (¬ p ·)
      else s.names.filter (¬ p ·) ++ [n] := by
  unfold insert
  by_cases omitted : p n
  · split <;> simp [omitted]
  · split <;> rename_i present <;> simp [omitted, present]

theorem Omits.insert (h : s.Omits p s') (n : String) : (s.insert n).Omits p (s'.insert n) := by
  refine ⟨by rw [filter_names_insert, filter_names_insert, h.others], fun m hm => ?_⟩
  rw [mem_insert] at hm ⊢
  exact hm.imp_right (h.subset m)

/-- A name that satisfies `p` goes into the first set only. -/
theorem Omits.leave (h : s.Omits p s') {n : String} (hn : p n) : (s.insert n).Omits p s' := by
  refine ⟨?_, fun m hm => mem_insert.mpr (.inr (h.subset m hm))⟩
  rw [filter_names_insert, if_pos (.inl hn)]
  exact h.others

end NameSet

namespace Analysis

open Idl (Argument ExtAttribute Node TypeExpr)

/-! ### Findings -/

/-- A type is well-known to the second analysis only. -/
def NewlyKnown (wellKnown more : List String) (name : String) : Prop :=
  name ∈ more ∧ name ∉ wellKnown

instance (wellKnown more : List String) : DecidablePred (NewlyKnown wellKnown more) := fun _ =>
  inferInstanceAs (Decidable (_ ∧ _))

/-- A finding that the owner depends on a name that satisfies `p`. -/
def DependsOnly (p : String → Prop) (owner : String) (e : Entry) : Prop :=
  ∃ name, p name ∧ e = .depend owner name

section

variable {wellKnown more : List String} (grows : wellKnown ⊆ more) (owner : String)
include grows

theorem leavesOut_leafEntries (name : String) :
    LeavesOut (DependsOnly (NewlyKnown wellKnown more) owner)
      (leafEntries wellKnown owner name) (leafEntries more owner name) := by
  unfold leafEntries
  by_cases known : name ∈ wellKnown
  · rw [if_pos (by simpa using known), if_pos (by simpa using grows known)]
    exact .refl _
  · rw [if_neg (by simpa using known)]
    by_cases newly : name ∈ more
    · rw [if_pos (by simpa using newly)]
      exact .keep _ (.leave ⟨name, ⟨newly, known⟩, rfl⟩ .nil)
    · rw [if_neg (by simpa using newly)]
      exact .refl _

theorem leavesOut_typeEntries (type : TypeExpr) :
    LeavesOut (DependsOnly (NewlyKnown wellKnown more) owner)
      (typeEntries wellKnown owner type) (typeEntries more owner type) :=
  .flatMap (leavesOut_leafEntries grows owner) _

theorem leavesOut_argumentEntries (arguments : List Argument) :
    LeavesOut (DependsOnly (NewlyKnown wellKnown more) owner)
      (argumentEntries wellKnown owner arguments) (argumentEntries more owner arguments) :=
  .flatMap (fun a : Argument => leavesOut_typeEntries grows owner a.type) _

theorem leavesOut_memberEntriesOf (m : Node) :
    LeavesOut (DependsOnly (NewlyKnown wellKnown more) owner)
      (memberEntriesOf wellKnown owner m) (memberEntriesOf more owner m) := by
  have typed := LeavesOut.flatMap (leavesOut_typeEntries grows owner) m.type.toList
  have elements := LeavesOut.flatMap (leavesOut_typeEntries grows owner) m.typeArguments
  have arguments := leavesOut_argumentEntries grows owner m.arguments
  unfold memberEntriesOf
  simp only
  split
  case h_1 | h_2 | h_3 => exact typed
  case h_4 =>
    split
    · exact .nil
    · exact typed.append arguments
  case h_5 => exact arguments
  case h_6 | h_7 | h_8 | h_9 => exact elements.append arguments
  case h_10 => exact .nil

theorem leavesOut_memberEntries (node : Node) :
    LeavesOut (DependsOnly (NewlyKnown wellKnown more) owner)
      (memberEntries wellKnown owner node) (memberEntries more owner node) :=
  .flatMap (leavesOut_memberEntriesOf grows owner) _

end

section

variable {wellKnown more : List String} (grows : wellKnown ⊆ more) (node : Node)
include grows

theorem leavesOut_namedConstructorEntries (attr : ExtAttribute) :
    LeavesOut (DependsOnly (NewlyKnown wellKnown more) node.name)
      (namedConstructorEntries wellKnown node attr) (namedConstructorEntries more node attr) := by
  unfold namedConstructorEntries
  split
  · exact .refl _
  · split
    · exact .refl _
    · exact (LeavesOut.refl _).append (leavesOut_argumentEntries grows _ _)

theorem leavesOut_constructorEntries :
    LeavesOut (DependsOnly (NewlyKnown wellKnown more) node.name)
      (constructorEntries wellKnown node) (constructorEntries more node) := by
  unfold constructorEntries
  simp only
  split_ifs
  · exact .keep _ (.flatMap (fun _ => leavesOut_argumentEntries grows _ _) _)
  · exact .flatMap (leavesOut_namedConstructorEntries grows node) _
  · exact .refl _
  · exact .refl _
  · exact .refl _

theorem leavesOut_exposureEntries :
    LeavesOut (DependsOnly (NewlyKnown wellKnown more) node.name)
      (exposureEntries wellKnown node) (exposureEntries more node) :=
  (LeavesOut.refl _).append (leavesOut_constructorEntries grows node)

/-- The findings of a definition are the same, except for dependencies on newly known types. -/
theorem leavesOut_entries :
    LeavesOut (DependsOnly (NewlyKnown wellKnown more) node.name)
      (definitionPlan wellKnown node).entries (definitionPlan more node).entries := by
  have members := leavesOut_memberEntries grows node.name node
  have typed := LeavesOut.flatMap (leavesOut_typeEntries grows node.name) node.type.toList
  have container (kind : Idl.NodeKind) :
      LeavesOut (DependsOnly (NewlyKnown wellKnown more) node.name)
        (containerPlan wellKnown kind node).entries (containerPlan more kind node).entries := by
    unfold containerPlan
    simp only
    split
    · exact (LeavesOut.refl _).append members
    · refine ((LeavesOut.refl _).append ?_).append members
      split
      · exact leavesOut_exposureEntries grows node
      · exact .nil
  unfold definitionPlan
  simp only
  split
  case h_1 | h_2 | h_3 | h_4 | h_5 => exact container _
  case h_6 => exact members
  case h_7 => exact typed
  case h_8 => exact typed.append (leavesOut_argumentEntries grows _ _)
  case h_9 | h_10 | h_11 => exact .refl _

end

/-- What neither takes a name nor is a partial definition uses no types. -/
theorem entries_congr (wellKnown more : List String) {node : Node} (takes : ¬ TakesName node)
    (container : ¬ IsContainer node) :
    (definitionPlan wellKnown node).entries = (definitionPlan more node).entries := by
  have other (hk : node.kind.meaning? ∈ [some .enumeration, some .typedef, some .callback]) :
      False :=
    takes (.inr hk)
  unfold definitionPlan
  simp only
  split
  case h_1 hk | h_2 hk | h_3 hk | h_4 hk | h_5 hk =>
    exact absurd (by simp [IsContainer, containerKinds, hk]) container
  case h_6 hk | h_7 hk | h_8 hk => exact (other (by simp [hk])).elim
  case h_9 | h_10 | h_11 => rfl

/-! ### Ledgers -/

namespace Ledger

/-- Two ledgers differ at most in that the second one lacks dependencies on names that satisfy
`p`. -/
structure Omits (p : String → Prop) [DecidablePred p] (l l' : Ledger) : Prop where
  rest : l'.withoutLinks = l.withoutLinks
  extendedNames : l'.extendedNames = l.extendedNames
  reallyDependsOnWindow : l'.reallyDependsOnWindow = l.reallyDependsOnWindow
  keys : l'.dependencies.keys = l.dependencies.keys
  dependencies : ∀ n,
    ((l.dependencies.get? n).getD ∅).Omits p ((l'.dependencies.get? n).getD ∅)
  referenced : l.referenced.Omits p l'.referenced

section

variable {p : String → Prop} [DecidablePred p] {l l' : Ledger}

theorem Omits.refl (l : Ledger) : l.Omits p l :=
  ⟨rfl, rfl, rfl, rfl, fun _ => .refl _, .refl _⟩

theorem Omits.isFree (h : l.Omits p l') (n : String) (isAlias : Bool) :
    l'.isFree n isAlias = l.isFree n isAlias :=
  congrArg (fun l => l.isFree n isAlias) h.rest

/-- The same finding is entered in both. -/
theorem Omits.record (h : l.Omits p l') (e : Entry) : (l.record e).Omits p (l'.record e) := by
  have keys {f f' : Option NameSet → NameSet} (k : String) :
      (l'.dependencies.alter k f').keys = (l.dependencies.alter k f).keys := by
    simp only [Table.alter, Table.keys_insert, h.keys]
  refine ⟨?_, ?_, ?_, ?_, ?_, ?_⟩
  · rw [withoutLinks_record, h.rest, ← withoutLinks_record]
  · rw [(recorded l e).extendedNames, (recorded l' e).extendedNames, h.extendedNames]
    cases e <;> rfl
  · rw [(collected l e).reallyDependsOnWindow, (collected l' e).reallyDependsOnWindow,
      h.reallyDependsOnWindow]
  · rw [(recorded l e).dependencies, (recorded l' e).dependencies]
    cases e with
    | register name target isAlias =>
      simp only [h.isFree]
      split_ifs
      · exact keys name
      · exact h.keys
    | depend owner name => exact keys owner
    | _ => exact h.keys
  · intro n
    rw [(recorded l e).dependencies, (recorded l' e).dependencies]
    cases e with
    | register name target isAlias =>
      simp only [h.isFree]
      split_ifs
      · by_cases own : n = name
        · subst own
          simpa [Table.get?_alter] using h.dependencies n
        · simpa [Table.get?_alter, own] using h.dependencies n
      · exact h.dependencies n
    | depend owner name =>
      by_cases own : n = owner
      · subst own
        simpa [Table.get?_alter] using (h.dependencies n).insert name
      · simpa [Table.get?_alter, own] using h.dependencies n
    | _ => exact h.dependencies n
  · rw [(recorded l e).referenced, (recorded l' e).referenced]
    cases e with
    | reference name | depend owner name => exact h.referenced.insert name
    | _ => exact h.referenced

/-- A dependency is left out, whose owner has an entry. -/
theorem Omits.leave (h : l.Omits p l') {owner name : String} (hn : p name)
    (key : owner ∈ l.dependencies.keys) : (l.record (.depend owner name)).Omits p l' := by
  refine ⟨h.rest, h.extendedNames, h.reallyDependsOnWindow, ?_, fun n => ?_,
    h.referenced.leave hn⟩
  · rw [(recorded l _).dependencies]
    simp only [Table.alter, Table.keys_insert, key, if_true]
    exact h.keys
  · rw [(recorded l _).dependencies]
    by_cases own : n = owner
    · subst own
      simpa [Table.get?_alter] using (h.dependencies n).leave hn
    · simpa [Table.get?_alter, own] using h.dependencies n

theorem mem_dependencies_keys_of_mem {n : String} (h : n ∈ l.dependencies.keys) (e : Entry) :
    n ∈ (l.record e).dependencies.keys := by
  rw [(recorded l e).dependencies]
  cases e with
  | register name target isAlias =>
    simp only
    split_ifs
    · exact (Table.mem_keys_alter _ _ _ _).mpr (.inr h)
    · exact h
  | depend owner name => exact (Table.mem_keys_alter _ _ _ _).mpr (.inr h)
  | _ => exact h

/-- The same findings are entered in both, apart from dependencies of an owner that has an entry. -/
theorem Omits.foldl {owner : String} {es es' : List Entry}
    (left : LeavesOut (DependsOnly p owner) es es') (h : l.Omits p l')
    (key : owner ∈ l.dependencies.keys) :
    (es.foldl Ledger.record l).Omits p (es'.foldl Ledger.record l') := by
  induction left generalizing l l' with
  | nil => exact h
  | keep e _ ih => exact ih (h.record e) (mem_dependencies_keys_of_mem key e)
  | leave omitted _ ih =>
    obtain ⟨name, hn, rfl⟩ := omitted
    exact ih (h.leave hn key) (mem_dependencies_keys_of_mem key _)

end

section

variable {wellKnown more : List String} {l l' : Ledger} (grows : wellKnown ⊆ more)
include grows

/-- A definition is entered in both. -/
theorem Omits.foldl_effect (h : l.Omits (NewlyKnown wellKnown more) l') (sound : l.Sound)
    (earlier : List Node) (node : Node) :
    ((effect wellKnown earlier node).foldl Ledger.record l).Omits (NewlyKnown wellKnown more)
      ((effect more earlier node).foldl Ledger.record l') := by
  have unchanged (es : List Entry) : (es.foldl Ledger.record l).Omits (NewlyKnown wellKnown more)
      (es.foldl Ledger.record l') := by
    induction es generalizing l l' with
    | nil => exact h
    | cons e es ih => exact ih (h.record e) (sound.record e)
  unfold effect
  split_ifs with takes taken
  · exact unchanged _
  · -- The name has an entry once it is registered.
    rw [List.foldl_cons, List.foldl_cons]
    refine Omits.foldl (leavesOut_entries grows node) (h.record _) ?_
    apply (sound.record _).names_have_dependencies
    exact (mem_names_record _ _ _).mpr (.inr ⟨_, _, rfl⟩)
  · by_cases container : IsContainer node
    · -- A partial definition first links its name to itself.
      have isPartial : node.isPartial := by
        by_contra whole
        exact takes (.inl ⟨container, whole⟩)
      rw [entries_of_isPartial wellKnown container isPartial,
        entries_of_isPartial more container isPartial, List.foldl_cons, List.foldl_cons,
        List.foldl_cons, List.foldl_cons]
      refine Omits.foldl ((LeavesOut.refl _).append (leavesOut_memberEntries grows _ node))
        ((h.record _).record _) ?_
      exact (Table.mem_keys_alter _ _ _ _).mpr (.inl rfl)
    · rw [entries_congr wellKnown more takes container]
      exact unchanged _

theorem Omits.foldl_history (h : l.Omits (NewlyKnown wellKnown more) l') (sound : l.Sound)
    (earlier definitions : List Node) :
    ((history wellKnown earlier definitions).foldl Ledger.record l).Omits
      (NewlyKnown wellKnown more) ((history more earlier definitions).foldl Ledger.record l') := by
  induction definitions generalizing l l' earlier with
  | nil => exact h
  | cons node rest ih =>
    rw [history, history, List.foldl_append, List.foldl_append]
    exact ih (h.foldl_effect grows sound earlier node) (sound.foldl _) _

end

end Ledger

/-- Whether findings are abandoned does not depend on what is well-known. -/
theorem abandon_mem_history_iff {wellKnown more : List String} (grows : wellKnown ⊆ more)
    (earlier definitions : List Node) :
    .abandon ∈ history more earlier definitions ↔
      .abandon ∈ history wellKnown earlier definitions := by
  have same (node : Node) : .abandon ∈ (definitionPlan more node).entries ↔
      .abandon ∈ (definitionPlan wellKnown node).entries :=
    (leavesOut_entries grows node).mem_iff fun ⟨_, _, h⟩ => by cases h
  simp only [mem_history]
  refine exists_congr fun before => exists_congr fun node => exists_congr fun after =>
    and_congr_right fun _ => ?_
  unfold effect
  split_ifs
  · exact Iff.rfl
  · rw [List.mem_cons, List.mem_cons, same]
  · exact same node

/-! ### Reports -/

/-- What a report lacks when more is well-known: dependencies on names that satisfy `p`. -/
structure Report.Omits (p : String → Prop) [DecidablePred p] (report report' : Report) : Prop where
  names : report'.names = report.names
  extendedNames : report'.extendedNames = report.extendedNames
  exposure : report'.exposure = report.exposure
  reallyDependsOnWindow : report'.reallyDependsOnWindow = report.reallyDependsOnWindow
  globals : report'.globals = report.globals
  exposed : report'.exposed = report.exposed
  primaryGlobal : report'.primaryGlobal = report.primaryGlobal
  hasObsoleteIdl : report'.hasObsoleteIdl = report.hasObsoleteIdl
  diagnostics : report'.diagnostics = report.diagnostics
  dependencies_keys : report'.dependencies.keys = report.dependencies.keys
  /-- A name depends on nothing new, and what it does not depend on any more satisfies `p`. -/
  dependencies : ∀ n,
    (report'.dependencies.get? n).getD ∅ ⊆ (report.dependencies.get? n).getD ∅ ∧
      ∀ d ∈ (report.dependencies.get? n).getD ∅,
        d ∉ (report'.dependencies.get? n).getD ∅ → p d
  externalDependencies : ∀ n ∈ report'.externalDependencies, n ∈ report.externalDependencies
  /-- What does not satisfy `p` is external in the same order. -/
  other_externalDependencies :
    report'.externalDependencies.filter (¬ p ·) = report.externalDependencies.filter (¬ p ·)

/-- Where `p` allows more, less is asked for. -/
theorem Report.Omits.mono {p q : String → Prop} [DecidablePred p] [DecidablePred q]
    {report report' : Report} (h : report.Omits p report') (weaker : ∀ n, p n → q n) :
    report.Omits q report' where
  __ := h
  dependencies n :=
    ⟨(h.dependencies n).1, fun d hd omitted => weaker d ((h.dependencies n).2 d hd omitted)⟩
  other_externalDependencies := by
    have both : (fun n : String => decide (¬ q n)) = fun n => decide (¬ q n) && decide (¬ p n) := by
      funext n
      have := weaker n
      by_cases hp : p n <;> simp_all
    rw [both, ← List.filter_filter, ← List.filter_filter, h.other_externalDependencies]

/-- The report on a ledger that lacks dependencies lacks them too. -/
theorem Ledger.Omits.report {p : String → Prop} [DecidablePred p] {l l' : Ledger}
    (h : l.Omits p l') (defaultGlobal : String) (hasObsoleteIdl : Bool) :
    (l.report defaultGlobal hasObsoleteIdl).Omits p (l'.report defaultGlobal hasObsoleteIdl) := by
  have names : l'.names = l.names := (congrArg Ledger.names h.rest :)
  exact {
    names
    extendedNames := h.extendedNames
    exposure := congrArg (fun l => l.exposure.freeze defaultGlobal) h.rest
    reallyDependsOnWindow := h.reallyDependsOnWindow
    globals := (congrArg Ledger.globals h.rest :)
    exposed := (congrArg Ledger.exposed h.rest :)
    primaryGlobal := congrArg (fun l => l.exposure.primary defaultGlobal) h.rest
    hasObsoleteIdl := rfl
    diagnostics := (congrArg Ledger.diagnostics h.rest :)
    dependencies_keys := h.keys
    dependencies n :=
      ⟨(h.dependencies n).subset, fun _ hd omitted => (h.dependencies n).of_not_mem hd omitted⟩
    externalDependencies n hn := by
      obtain ⟨referenced, free⟩ := mem_externalDependencies.mp hn
      exact mem_externalDependencies.mpr ⟨h.referenced.subset n referenced, names ▸ free⟩
    other_externalDependencies := by
      have swap (r : NameSet) (f g : String → Bool) :
          (r.names.filter f).filter g = (r.names.filter g).filter f := by
        simp only [List.filter_filter, Bool.and_comm]
      show l'.externalDependencies.filter _ = l.externalDependencies.filter _
      rw [externalDependencies, externalDependencies, names, swap, h.referenced.others, swap] }

/-- More well-known types only filter. Two analyses of the same definitions, of which the second one
is told of more of them, both complete or both do not. Their reports differ at most in that a name
does not depend on a newly known type where it has it as a type, and in what is external because of
this; what is neither keeps its place. -/
theorem analyzeDefinitions_wellKnown {settings : Settings} {more : List String}
    (grows : settings.extraWellKnownTypes ⊆ more) (definitions : List Node)
    (hasObsoleteIdl : Bool) :
    ((∃ report, analyzeDefinitions settings definitions hasObsoleteIdl = .ok report) ↔
      ∃ report', analyzeDefinitions { settings with extraWellKnownTypes := more } definitions
        hasObsoleteIdl = .ok report') ∧
    ∀ report report', analyzeDefinitions settings definitions hasObsoleteIdl = .ok report →
      analyzeDefinitions { settings with extraWellKnownTypes := more } definitions hasObsoleteIdl =
        .ok report' →
      report.Omits (NewlyKnown settings.extraWellKnownTypes more) report' := by
  let told : Settings := { settings with extraWellKnownTypes := more }
  have known : settings.wellKnown ⊆ told.wellKnown := by
    intro n hn
    rw [Settings.wellKnown, List.mem_append] at hn ⊢
    exact hn.imp_right (@grows n)
  have abandoned := abandon_mem_history_iff known [] definitions
  refine ⟨?_, fun report report' h h' => ?_⟩
  · simp only [analyzeDefinitions_eq_ok_iff, exists_and_left, exists_eq', and_true]
    exact not_congr abandoned.symm
  · obtain ⟨-, rfl⟩ := (analyzeDefinitions_eq_ok_iff ..).mp h
    obtain ⟨-, rfl⟩ := (analyzeDefinitions_eq_ok_iff ..).mp h'
    have ledgers := (Ledger.Omits.refl {}).foldl_history known Ledger.sound_empty [] definitions
    refine (ledgers.report _ _).mono fun n ⟨newly, unknown⟩ => ?_
    -- What every analysis knows is not newly known.
    rw [Settings.wellKnown, List.mem_append] at newly unknown
    rw [not_or] at unknown
    exact ⟨newly.resolve_left unknown.1, unknown.2⟩

/-- A player that is a track itself and plays tracks, with codecs it is given, after a queue of
tracks. -/
def queueDefinitions : List Node :=
  [{ kind := .known .typedef, name := "Queue",
     type := some (.generic "sequence" [.named "Track" false []] false []) },
   { kind := .known .interface, name := "Player", inheritance := some "Track",
     members := [{ kind := .known .operation, name := "play",
                   arguments := [{ name := "codec", type := .named "Codec" true [] },
                     { name := "at", type := .named "Cue" false [] }] }] }]

/-- Tracks are known to the second analysis, but the player still inherits from them. -/
theorem analyzeDefinitions_wellKnown_player :
    ∃ report report',
      analyzeDefinitions { extraWellKnownTypes := ["Cue"] } queueDefinitions = .ok report ∧
      analyzeDefinitions { extraWellKnownTypes := ["Codec", "Track", "Cue"] } queueDefinitions =
        .ok report' ∧
      report.externalDependencies = ["Track", "Codec"] ∧
      report'.externalDependencies = ["Track"] ∧
      report.Omits (NewlyKnown ["Cue"] ["Codec", "Track", "Cue"]) report' := by
  have run : analyzeDefinitions { extraWellKnownTypes := ["Cue"] } queueDefinitions = .ok _ := rfl
  have run' : analyzeDefinitions { extraWellKnownTypes := ["Codec", "Track", "Cue"] }
      queueDefinitions = .ok _ := rfl
  have grows : ["Cue"] ⊆ ["Codec", "Track", "Cue"] := by simp
  exact ⟨_, _, run, run', rfl, rfl,
    (@analyzeDefinitions_wellKnown { extraWellKnownTypes := ["Cue"] } _ grows queueDefinitions
      false).2 _ _ run run'⟩

end Analysis

end WebSpec
