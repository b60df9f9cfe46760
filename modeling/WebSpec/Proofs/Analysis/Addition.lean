import WebSpec.Proofs.Analysis.Collection
import WebSpec.Proofs.Analysis.Growth

/-!
# What adds to a name

A partial definition adds to the name that it extends, and an includes or implements statement to
its target. Whatever else such a node has (extended attributes, inheritance, members), its findings
are that it adds to the name and links from the name to others: `exists_links`. So it makes no
difference to what names stand for, to exposure and to the diagnostics, wherever it stands.

`Ledger.SameBut` relates the ledgers of two runs, one of which has such findings in addition. It
holds when they are entered (`SameBut.addition`) and is kept by any finding (`SameBut.record`).
`analyzeDefinitions_insert` compares the reports with and without a node that adds to a name.
-/

namespace WebSpec.Analysis

open Idl (Node)

variable {wellKnown : List String} {name n : String} {node : Node}

/-! ### Findings of additions -/

/-- A partial definition adds to its name, and a statement to its target. -/
def AddsTo (name : String) (node : Node) : Prop :=
  IsContainer node ∧ node.isPartial ∧ node.name = name ∨ IsStatement node ∧ node.target = name

instance : DecidablePred (AddsTo name) := fun node =>
  inferInstanceAs (Decidable (node.kind.meaning? ∈ _ ∧ _ ∧ _ ∨ (_ = _ ∨ _ = _) ∧ _))

/-- A finding that links a name to others. -/
inductive IsLink (name : String) : Entry → Prop where
  | use (used : String) : IsLink name (.use used)
  | depend (used : String) : IsLink name (.depend name used)
  | reference (used : String) : IsLink name (.reference used)

/-- A finding that a name is added to, or a link of the name. -/
def IsAddition (name : String) (e : Entry) : Prop :=
  IsLink name e ∨ ∃ node, e = .extend name node

theorem IsUse.isLink {e : Entry} (h : IsUse name e) : IsLink name e := by
  cases h with
  | use used => exact .use used
  | depend used => exact .depend used

theorem AddsTo.not_takesName (h : AddsTo name node) : ¬ TakesName node := by
  rcases h with ⟨kind, isPartial, -⟩ | ⟨kind, -⟩
  · rintro (⟨-, whole⟩ | other)
    · exact whole isPartial
    · simp only [IsContainer, containerKinds, List.mem_cons, List.not_mem_nil, or_false]
        at kind other
      grind
  · exact not_takesName_of_isStatement kind

theorem entries_of_isPartial (wellKnown : List String) (kind : IsContainer node)
    (isPartial : node.isPartial) :
    (definitionPlan wellKnown node).entries = .extend node.name node ::
      .depend node.name node.name :: (((node.inheritance.filter (· ≠ "")).toList.flatMap
        fun parent => [.depend node.name parent, .use parent]) ++
          memberEntries wellKnown node.name node) := by
  simp only [IsContainer, containerKinds, List.mem_cons, List.not_mem_nil, or_false] at kind
  rcases kind with hk | hk | hk | hk | hk <;> simp [definitionPlan, hk, containerPlan, isPartial]

/-- A node that adds to a name is found to do so, and then to link the name to others. -/
theorem exists_links (wellKnown : List String) (h : AddsTo name node) :
    ∃ links, (definitionPlan wellKnown node).entries = .extend name node :: links ∧
      ∀ e ∈ links, IsLink name e := by
  rcases h with ⟨kind, isPartial, rfl⟩ | ⟨kind, rfl⟩
  · refine ⟨_, entries_of_isPartial wellKnown kind isPartial, fun e he => ?_⟩
    rcases List.mem_cons.mp he with rfl | he
    · exact .depend _
    rcases List.mem_append.mp he with inherited | member
    · obtain ⟨parent, -, he⟩ := List.mem_flatMap.mp inherited
      simp only [List.mem_cons, List.not_mem_nil, or_false] at he
      rcases he with rfl | rfl
      · exact .depend parent
      · exact .use parent
    · exact (isUse_of_mem_memberEntries member).isLink
  · refine ⟨_, mem_relationPlan kind, fun e he => ?_⟩
    simp only [List.mem_cons, List.not_mem_nil, or_false] at he
    rcases he with rfl | rfl | rfl
    · exact .reference _
    · exact .depend _
    · exact .use _

theorem isAddition_of_mem_entries (adds : AddsTo name node) {e : Entry}
    (h : e ∈ (definitionPlan wellKnown node).entries) : IsAddition name e := by
  obtain ⟨links, entries, links_only⟩ := exists_links wellKnown adds
  rw [entries] at h
  rcases List.mem_cons.mp h with rfl | h
  · exact .inr ⟨node, rfl⟩
  · exact .inl (links_only e h)

/-! ### What is added to a name -/

theorem extending_entries :
    (definitionPlan wellKnown node).entries.flatMap (Entry.extending n) =
      if AddsTo n node then [node] else [] := by
  split_ifs with adds
  · obtain ⟨links, entries, links_only⟩ := exists_links wellKnown adds
    have none : links.flatMap (Entry.extending n) = [] :=
      List.flatMap_eq_nil_iff.mpr fun e he => by cases links_only e he <;> rfl
    rw [entries, List.flatMap_cons, none, List.append_nil, Entry.extending, if_pos rfl]
  · refine List.flatMap_eq_nil_iff.mpr fun e he => ?_
    cases e with
    | extend name part =>
      rw [Entry.extending, if_neg]
      rintro rfl
      obtain ⟨-, ⟨kind, isPartial, rfl⟩ | ⟨kind, rfl⟩⟩ := extend_mem_entries.mp he
      · exact adds (.inl ⟨kind, isPartial, rfl⟩)
      · exact adds (.inr ⟨kind, rfl⟩)
    | _ => rfl

/-- What is added to a name in a history are the nodes that add to it, in order. -/
theorem extending_history (earlier definitions : List Node) :
    (history wellKnown earlier definitions).flatMap (Entry.extending n) =
      definitions.filter (AddsTo n) := by
  induction definitions generalizing earlier with
  | nil => rfl
  | cons node rest ih =>
    have entered : (effect wellKnown earlier node).flatMap (Entry.extending n) =
        if AddsTo n node then [node] else [] := by
      unfold effect
      by_cases takes : TakesName node
      · have adds : ¬ AddsTo n node := fun adds => adds.not_takesName takes
        by_cases taken : IsTaken earlier node.name
        · simp [takes, taken, adds, Entry.extending]
        · simp [takes, taken, adds, Entry.extending, extending_entries]
      · rw [if_neg takes, extending_entries]
    rw [history, List.flatMap_append, ih, entered, List.filter_cons]
    by_cases adds : AddsTo n node <;> simp [adds]

/-- What a report has on additions to a name. -/
theorem get?_extendedNames_history (definitions : List Node) (n : String) :
    (Ledger.ofEntries (history wellKnown [] definitions)).extendedNames.get? n =
      nonempty? (definitions.filter (AddsTo n)) :=
  (Ledger.extendedNames_ofEntries _ n).trans (congrArg nonempty? (extending_history [] _))

/-! ### Ledgers with more additions -/

namespace Ledger

/-- The same ledger without what adds to names and links them. -/
def withoutLinks (l : Ledger) : Ledger :=
  { l with
    extendedNames := ∅
    dependencies := ∅
    referenced := ∅
    reallyDependsOnWindow := false }

/-- What adds to names and links them makes no difference to the rest of what is entered. -/
theorem withoutLinks_record (l : Ledger) (e : Entry) :
    (l.record e).withoutLinks = (l.withoutLinks.record e).withoutLinks := by
  cases e with
  | register name target isAlias =>
    have free : l.withoutLinks.isFree name isAlias = l.isFree name isAlias := rfl
    simp only [record, register, free]
    split_ifs <;> rfl
  | declarePrimary primary interface =>
    have first : l.withoutLinks.exposure = l.exposure := rfl
    simp only [record, declarePrimary, first]
    split
    · rfl
    · split_ifs <;> rfl
  | use name =>
    simp only [record]
    split_ifs <;> rfl
  | _ => rfl

/-- Two ledgers differ at most in what is said of a name that is added to. -/
structure SameBut (name : String) (l l' : Ledger) : Prop where
  rest : l'.withoutLinks = l.withoutLinks
  dependencies : ∀ n, n ≠ name → l'.dependencies.get? n = l.dependencies.get? n

variable {l l' : Ledger}

theorem SameBut.refl (name : String) (l : Ledger) : SameBut name l l :=
  ⟨rfl, fun _ _ => rfl⟩

theorem SameBut.isFree (h : SameBut name l l') (n : String) (isAlias : Bool) :
    l'.isFree n isAlias = l.isFree n isAlias :=
  congrArg (fun l => l.isFree n isAlias) h.rest

/-- The same finding is entered in both. -/
theorem SameBut.record (h : SameBut name l l') (e : Entry) :
    SameBut name (l.record e) (l'.record e) := by
  refine ⟨by rw [withoutLinks_record, h.rest, ← withoutLinks_record], fun n other => ?_⟩
  have same := h.dependencies n other
  rw [(recorded l e).dependencies, (recorded l' e).dependencies]
  cases e with
  | register key target isAlias =>
    simp only [h.isFree]
    split_ifs
    · by_cases own : n = key
      · subst own
        simp [Table.get?_alter, same]
      · simp [Table.get?_alter, own, same]
    · exact same
  | depend owner used =>
    by_cases own : n = owner
    · subst own
      simp [Table.get?_alter, same]
    · simp [Table.get?_alter, own, same]
  | _ => exact same

theorem SameBut.foldl (h : SameBut name l l') (es : List Entry) :
    SameBut name (es.foldl Ledger.record l) (es.foldl Ledger.record l') := by
  induction es generalizing l l' with
  | nil => exact h
  | cons e es ih => exact ih (h.record e)

/-- An addition to the name is entered in the second ledger only. -/
theorem SameBut.addition (h : SameBut name l l') {e : Entry}
    (adds : IsAddition name e) : SameBut name l (l'.record e) := by
  rcases adds with link | ⟨node, rfl⟩
  · cases link with
    | use used =>
      simp only [Ledger.record]
      split_ifs
      · exact ⟨h.rest, h.dependencies⟩
      · exact h
    | depend used =>
      refine ⟨h.rest, fun n other => ?_⟩
      rw [(recorded l' _).dependencies]
      simp [Table.get?_alter, other, h.dependencies n other]
    | reference used => exact ⟨h.rest, h.dependencies⟩
  · exact ⟨h.rest, h.dependencies⟩

theorem SameBut.additions (h : SameBut name l l') {es : List Entry}
    (adds : ∀ e ∈ es, IsAddition name e) : SameBut name l (es.foldl Ledger.record l') := by
  induction es generalizing l' with
  | nil => exact h
  | cons e es ih =>
    exact ih (h.addition (adds e List.mem_cons_self))
      fun e he => adds e (List.mem_cons_of_mem _ he)

/-! ### Ledgers of more findings -/

section

variable {es es' : List Entry}

/-- With more findings, names that depend on something depend on no less. -/
theorem dependencies_growsTo (more : es ⊆ es') :
    (ofEntries es).dependencies.GrowsTo (· ⊆ ·) (ofEntries es').dependencies := by
  intro n s hs
  have key : n ∈ (ofEntries es').dependencies.keys := by
    have key := mem_dependencies_keys_ofEntries.mp (Table.mem_keys_of_get? hs)
    rw [mem_names_ofEntries] at key
    rw [mem_dependencies_keys_ofEntries, mem_names_ofEntries]
    rcases key with ⟨target, isAlias, h⟩ | ⟨d, h⟩
    · exact .inl ⟨target, isAlias, more h⟩
    · exact .inr ⟨d, more h⟩
  obtain ⟨s', hs'⟩ := Option.ne_none_iff_exists'.mp (Table.get?_eq_none_iff.not_left.mpr key)
  refine ⟨s', hs', fun d hd => ?_⟩
  have depends : d ∈ ((ofEntries es).dependencies.get? n).getD ∅ := by rwa [hs]
  have depends' := mem_dependencies_ofEntries.mpr (more (mem_dependencies_ofEntries.mp depends))
  rwa [hs'] at depends'

/-- With more findings that register nothing, no name ceases to be external. -/
theorem mem_externalDependencies_of_subset (more : es ⊆ es')
    (names : (ofEntries es').names = (ofEntries es).names)
    (h : n ∈ (ofEntries es).externalDependencies) : n ∈ (ofEntries es').externalDependencies := by
  obtain ⟨referenced, free⟩ := mem_externalDependencies.mp h
  refine mem_externalDependencies.mpr ⟨?_, names ▸ free⟩
  rw [mem_referenced_ofEntries] at referenced ⊢
  rcases referenced with h | ⟨owner, h⟩
  · exact .inl (more h)
  · exact .inr ⟨owner, more h⟩

theorem reallyDependsOnWindow_of_subset (more : es ⊆ es')
    (h : (ofEntries es).reallyDependsOnWindow = true) :
    (ofEntries es').reallyDependsOnWindow = true := by
  rw [reallyDependsOnWindow_ofEntries, List.any_eq_true] at h ⊢
  obtain ⟨e, he, uses⟩ := h
  exact ⟨e, more he, uses⟩

end

end Ledger

/-! ### Reports -/

/-- What a report gains by a node that adds to a name, where the first list has what stands before
the node and the second one what stands behind it. -/
structure Report.Gains (name : String) (part : Node) (before after : List Node)
    (report report' : Report) : Prop where
  names : report'.names = report.names
  exposure : report'.exposure = report.exposure
  globals : report'.globals = report.globals
  exposed : report'.exposed = report.exposed
  primaryGlobal : report'.primaryGlobal = report.primaryGlobal
  hasObsoleteIdl : report'.hasObsoleteIdl = report.hasObsoleteIdl
  diagnostics : report'.diagnostics = report.diagnostics
  /-- The node comes in between the others that add to the name. -/
  extendedNames :
    report.extendedNames.get? name =
        nonempty? (before.filter (AddsTo name) ++ after.filter (AddsTo name)) ∧
      report'.extendedNames.get? name =
        some (before.filter (AddsTo name) ++ part :: after.filter (AddsTo name))
  other_extendedNames :
    ∀ n, n ≠ name → report'.extendedNames.get? n = report.extendedNames.get? n
  dependencies : report.dependencies.GrowsTo (· ⊆ ·) report'.dependencies
  other_dependencies :
    ∀ n, n ≠ name → report'.dependencies.get? n = report.dependencies.get? n
  externalDependencies : ∀ n ∈ report.externalDependencies, n ∈ report'.externalDependencies
  reallyDependsOnWindow :
    report.reallyDependsOnWindow = true → report'.reallyDependsOnWindow = true

theorem AddsTo.unique (h : AddsTo name node) (h' : AddsTo n node) : n = name := by
  rcases h with ⟨kind, -, rfl⟩ | ⟨kind, rfl⟩ <;> rcases h' with ⟨kind', -, rfl⟩ | ⟨kind', rfl⟩
  · rfl
  · exact absurd kind' kind.not_isStatement
  · exact absurd kind kind'.not_isStatement
  · rfl

section

variable (wellKnown : List String) (adds : AddsTo name node) (before after : List Node)
include adds

theorem filter_insert (n : String) :
    (before ++ node :: after).filter (AddsTo n) =
      before.filter (AddsTo n) ++ if n = name then node :: after.filter (AddsTo n)
        else after.filter (AddsTo n) := by
  rw [List.filter_append, List.filter_cons]
  by_cases own : n = name
  · subst own
    simp [adds]
  · have other : ¬ AddsTo n node := fun h => own (adds.unique h)
    simp [own, other]

/-- A node that adds to a name enters its findings between those of the others. -/
theorem history_insert :
    history wellKnown [] (before ++ node :: after) =
      history wellKnown [] before ++
        ((definitionPlan wellKnown node).entries ++ history wellKnown before after) := by
  have entered : effect wellKnown before node = (definitionPlan wellKnown node).entries :=
    if_neg adds.not_takesName
  have taken (n : String) : IsTaken (before ++ [node]) n ↔ IsTaken before n := by
    rw [isTaken_append_singleton, or_iff_left fun takes => adds.not_takesName takes.1]
  rw [history_append, List.nil_append, history, entered, history_congr taken]

theorem history_subset_insert :
    history wellKnown [] (before ++ after) ⊆ history wellKnown [] (before ++ node :: after) := by
  rw [history_insert wellKnown adds, history_append]
  exact List.append_subset.mpr ⟨List.subset_append_left _ _,
    List.Subset.trans (List.subset_append_right _ _) (List.subset_append_right _ _)⟩

theorem abandon_not_mem_history_insert
    (complete : .abandon ∉ history wellKnown [] (before ++ after)) :
    .abandon ∉ history wellKnown [] (before ++ node :: after) := by
  rw [history_append, List.mem_append, not_or] at complete
  rw [history_insert wellKnown adds, List.mem_append, List.mem_append]
  rintro (h | h | h)
  · exact complete.1 h
  · rcases isAddition_of_mem_entries adds h with link | ⟨_, added⟩
    · cases link
    · cases added
  · exact complete.2 h

/-- The node's findings come behind the same ledger, and the same findings come behind them. -/
theorem sameBut_insert :
    Ledger.SameBut name (.ofEntries (history wellKnown [] (before ++ after)))
      (.ofEntries (history wellKnown [] (before ++ node :: after))) := by
  rw [history_insert wellKnown adds, history_append, List.nil_append]
  simp only [Ledger.ofEntries, List.foldl_append]
  refine Ledger.SameBut.foldl ?_ _
  exact (Ledger.SameBut.refl name _).additions fun _ => isAddition_of_mem_entries adds

end

/-- Partial definitions and statements only add. With one of them put in anywhere, a report has it
among what adds to its name, and is otherwise the same except for what is linked to the name: the
name may depend on more, more may be external, and the window may be used. -/
theorem analyzeDefinitions_insert {settings : Settings} {before after : List Node} {part : Node}
    {hasObsoleteIdl : Bool} {report : Report} (adds : AddsTo name part)
    (h : analyzeDefinitions settings (before ++ after) hasObsoleteIdl = .ok report) :
    ∃ report', analyzeDefinitions settings (before ++ part :: after) hasObsoleteIdl =
        .ok report' ∧ report.Gains name part before after report' := by
  obtain ⟨complete, rfl⟩ := analyzeDefinitions_eq_ok_iff.mp h
  have complete' := abandon_not_mem_history_insert settings.wellKnown adds before after complete
  have more := history_subset_insert settings.wellKnown adds before after
  have same := sameBut_insert settings.wellKnown adds before after
  refine ⟨_, analyzeDefinitions_eq_ok_iff.mpr ⟨complete', rfl⟩, ?_⟩
  exact {
    names := (congrArg Ledger.names same.rest :)
    exposure := congrArg (fun l => l.exposure.freeze settings.defaultGlobal) same.rest
    globals := (congrArg Ledger.globals same.rest :)
    exposed := (congrArg Ledger.exposed same.rest :)
    primaryGlobal := congrArg (fun l => l.exposure.primary settings.defaultGlobal) same.rest
    hasObsoleteIdl := rfl
    diagnostics := (congrArg Ledger.diagnostics same.rest :)
    extendedNames := by
      constructor
      · refine (get?_extendedNames_history _ name).trans ?_
        rw [List.filter_append]
      · refine (get?_extendedNames_history _ name).trans ?_
        rw [filter_insert adds, if_pos rfl, nonempty?_eq_some (by simp)]
    other_extendedNames := fun n other => by
      refine (get?_extendedNames_history _ n).trans ?_
      refine .trans ?_ (get?_extendedNames_history _ n).symm
      rw [filter_insert adds, if_neg other, List.filter_append]
    dependencies := Ledger.dependencies_growsTo more
    other_dependencies := same.dependencies
    externalDependencies := fun n =>
      Ledger.mem_externalDependencies_of_subset more (congrArg Ledger.names same.rest :)
    reallyDependsOnWindow := Ledger.reallyDependsOnWindow_of_subset more }

/-- A player that comes to be the window of a worker, by an attribute that does not count. -/
def workerPart : Node :=
  { kind := .known .interface, name := "Player", isPartial := true, inheritance := some "Window"
    attributes :=
      [{ name := "Exposed", value := some ⟨.identifier, .text "Worker"⟩ },
       { name := "PrimaryGlobal", value := some ⟨.identifier, .text "Worker"⟩ }] }

/-- Behind a stage and before its cast, the part makes the player depend on the window. -/
theorem analyzeDefinitions_insert_worker :
    AddsTo "Player" workerPart ∧
      ∃ report report',
        analyzeDefinitions {} (stageDefinitions ++ castDefinitions.take 2) = .ok report ∧
        analyzeDefinitions {} (stageDefinitions ++ workerPart :: castDefinitions.take 2) =
          .ok report' ∧
        report.reallyDependsOnWindow = false ∧ report'.reallyDependsOnWindow = true ∧
        report.Gains "Player" workerPart stageDefinitions (castDefinitions.take 2) report' := by
  have adds : AddsTo "Player" workerPart := by decide
  have run : analyzeDefinitions {} (stageDefinitions ++ castDefinitions.take 2) = .ok _ := rfl
  have run' : analyzeDefinitions {} (stageDefinitions ++ workerPart :: castDefinitions.take 2) =
    .ok _ := rfl
  obtain ⟨report', inserted, gains⟩ := analyzeDefinitions_insert adds run
  obtain rfl := Except.ok.inj (inserted.symm.trans run')
  exact ⟨adds, _, _, run, run', by decide, by decide, gains⟩

end WebSpec.Analysis
