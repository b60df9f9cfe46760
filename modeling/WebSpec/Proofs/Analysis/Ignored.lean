import WebSpec.Proofs.Analysis.History

/-!
# Definitions that are ignored

A definition whose name is taken and a definition of an unknown kind are ignored: each leaves a
diagnostic and nothing else. So it makes no difference to anything but the diagnostics whether they
are there. `Ledger.diagnosed` goes through definitions and keeps the diagnostics that each of them
adds; `analyzeDefinitions_of_leavesOut` compares the reports with and without any of those that are
diagnosed as ignored.

What has been remarked never decides what is found. A ledger with other remarks takes the same
findings in the same way and adds the same remarks: `Ledger.record_withRemarks` for a single
finding, `Ledger.exists_remarks_recordDefinition` for a definition.
-/

namespace WebSpec

/-- The second list is the first one without some of the members that satisfy `p`. -/
inductive LeavesOut {α : Type} (p : α → Prop) : List α → List α → Prop where
  | nil : LeavesOut p [] []
  | keep (x : α) {xs ys : List α} (h : LeavesOut p xs ys) : LeavesOut p (x :: xs) (x :: ys)
  | leave {x : α} (hx : p x) {xs ys : List α} (h : LeavesOut p xs ys) : LeavesOut p (x :: xs) ys

section

variable {α β : Type} {p : α → Prop} {xs ys xs' ys' : List α}

theorem LeavesOut.refl (xs : List α) : LeavesOut p xs xs := by
  induction xs with
  | nil => exact .nil
  | cons x xs ih => exact .keep x ih

theorem LeavesOut.append (h : LeavesOut p xs ys) (h' : LeavesOut p xs' ys') :
    LeavesOut p (xs ++ xs') (ys ++ ys') := by
  induction h with
  | nil => exact h'
  | keep x _ ih => exact .keep x ih
  | leave hx _ ih => exact .leave hx ih

theorem LeavesOut.flatMap {f g : β → List α} (h : ∀ b, LeavesOut p (f b) (g b)) (bs : List β) :
    LeavesOut p (bs.flatMap f) (bs.flatMap g) := by
  induction bs with
  | nil => exact .nil
  | cons b bs ih => exact (h b).append ih

/-- What is left out satisfies `p`, so that the rest stays. -/
theorem LeavesOut.mem_iff (h : LeavesOut p xs ys) {x : α} (hx : ¬ p x) : x ∈ ys ↔ x ∈ xs := by
  induction h with
  | nil => exact Iff.rfl
  | keep y _ ih => rw [List.mem_cons, List.mem_cons, ih]
  | leave hy _ ih =>
    rw [ih, List.mem_cons]
    constructor
    · exact Or.inr
    · rintro (rfl | h)
      · exact absurd hy hx
      · exact h

end

namespace Analysis

open Idl (Node)

variable {wellKnown : List String}

namespace Ledger

/-! ### Remarks -/

/-- The same ledger with other remarks. -/
def withRemarks (l : Ledger) (remarks : List Remark) : Ledger :=
  { l with remarks := remarks }

/-- What is remarked when a finding is entered. -/
def remarksOn (l : Ledger) : Entry → List Remark
  | .register name _ isAlias =>
    if l.isFree name isAlias || isAlias then [] else [.diagnostic (duplicateName name)]
  | .declarePrimary primary interface =>
    match l.exposure.primaryGlobal with
    | none => []
    | some first =>
      if first = primary then [] else [.diagnostic (duplicatePrimaryGlobal first primary interface)]
  | .remark r => [r]
  | _ => []

/-- A finding is entered in the same way whatever has been remarked before. -/
theorem record_withRemarks (l : Ledger) (rs : List Remark) (e : Entry) :
    (l.withRemarks rs).record e = (l.record e).withRemarks (rs ++ l.remarksOn e) := by
  cases e with
  | register name target isAlias =>
    have free : (l.withRemarks rs).isFree name isAlias = l.isFree name isAlias := rfl
    simp only [record, register, remarksOn, free]
    by_cases hf : l.isFree name isAlias
    · simp [hf, withRemarks]
    · cases isAlias <;> simp [hf, withRemarks, diagnose, remark]
  | declarePrimary primary interface =>
    simp only [record, declarePrimary, remarksOn, withRemarks]
    cases l.exposure.primaryGlobal with
    | none => simp
    | some first => by_cases same : first = primary <;> simp [same, diagnose, remark]
  | use name =>
    simp only [record, remarksOn, List.append_nil]
    split_ifs <;> rfl
  | remark r => rfl
  | _ => simp only [remarksOn, List.append_nil]; rfl

/-- Entering something adds the given remarks to a ledger, and does the same whatever has been
remarked before. -/
def Remarks (enter : Ledger → Ledger × Bool) (l : Ledger) (added : List Remark) : Prop :=
  ∀ rs, enter (l.withRemarks rs) = ((enter l).1.withRemarks (rs ++ added), (enter l).2)

/-- Several findings add the remarks on each of them. -/
theorem exists_remarks_recordAll (l : Ledger) (es : List Entry) :
    ∃ added, Remarks (recordAll · es) l added ∧
      ∀ r ∈ added, ∃ (l' : Ledger) (e : Entry), e ∈ es ∧ r ∈ l'.remarksOn e := by
  induction es generalizing l with
  | nil => exact ⟨[], fun rs => by simp [recordAll], by simp⟩
  | cons e es ih =>
    by_cases h : e = .abandon
    · subst h
      exact ⟨[], fun rs => by simp [recordAll], by simp⟩
    · obtain ⟨added, adds, source⟩ := ih (l.record e)
      refine ⟨l.remarksOn e ++ added, fun rs => ?_, fun r hr => ?_⟩
      · have rest := adds (rs ++ l.remarksOn e)
        simp only [recordAll_cons h, record_withRemarks, rest, List.append_assoc]
      · rcases List.mem_append.mp hr with hr | hr
        · exact ⟨l, e, List.mem_cons_self, hr⟩
        · obtain ⟨l', e', he, hr⟩ := source r hr
          exact ⟨l', e', List.mem_cons_of_mem e he, hr⟩

end Ledger

/-! ### Diagnostics of a definition -/

/-- The rules by which definitions are ignored. -/
def ignoringRules : List String :=
  ["duplicate-name", "unknown-definition"]

theorem not_diagnostic_mem_exposureEntries {node : Node} {d : Diagnostic} :
    .remark (.diagnostic d) ∉ exposureEntries wellKnown node := by
  intro h
  simp only [exposureEntries, List.mem_append] at h
  rcases h with ((h | h) | h) | h
  · obtain ⟨context, -, h⟩ := List.mem_flatMap.mp h
    split_ifs at h <;> simp at h
  · obtain ⟨context, h | h⟩ := mem_declaredEntries h <;> cases h
  · rcases mem_primaryEntries h with h | ⟨context, h | h | h⟩ <;> cases h
  · rcases mem_constructorEntries h with h | ⟨_, _, h⟩ | ⟨_, _, h⟩ | ⟨_, _, _, h⟩ | ⟨a, -, h⟩
    any_goals cases h
    cases isUse_of_mem_typeEntries h

/-- Only definitions of unknown kinds have diagnostics among their findings, and then they have no
other findings. -/
theorem definitionPlan_of_diagnostic_mem {node : Node} {d : Diagnostic}
    (h : .remark (.diagnostic d) ∈ (definitionPlan wellKnown node).entries) :
    definitionPlan wellKnown node = ⟨none, [.remark (.diagnostic (unknownDefinition node))]⟩ := by
  have container {kind : Idl.NodeKind} :
      .remark (.diagnostic d) ∉ (containerPlan wellKnown kind node).entries := fun h => by
    have members : .remark (.diagnostic d) ∉ memberEntries wellKnown node.name node := fun h => by
      cases isUse_of_mem_memberEntries h
    unfold containerPlan at h
    split_ifs at h <;> simp [members, not_diagnostic_mem_exposureEntries] at h
  have typed : .remark (.diagnostic d) ∉
      node.type.toList.flatMap (typeEntries wellKnown node.name) := fun h => by
    obtain ⟨type, -, h⟩ := List.mem_flatMap.mp h
    cases isUse_of_mem_typeEntries h
  unfold definitionPlan at h ⊢
  simp only at h ⊢
  split at h
  case h_1 | h_2 | h_3 | h_4 | h_5 => exact absurd h container
  case h_6 => cases isUse_of_mem_memberEntries h
  case h_7 => exact absurd h typed
  case h_8 =>
    rcases List.mem_append.mp h with h | h
    · exact absurd h typed
    · cases isUse_of_mem_argumentEntries h
  case h_9 | h_10 => simp [relationPlan] at h
  case h_11 => rfl

namespace Ledger

/-- The remarks on the findings of a definition are by no rule that ignores it, unless the
definition has no other findings. -/
theorem definitionPlan_of_mem_remarksOn {l : Ledger} {node : Node} {e : Entry} {d : Diagnostic}
    (he : e ∈ (definitionPlan wellKnown node).entries) (hd : .diagnostic d ∈ l.remarksOn e)
    (ignoring : d.rule ∈ ignoringRules) :
    definitionPlan wellKnown node = ⟨none, [.remark (.diagnostic (unknownDefinition node))]⟩ := by
  cases e with
  | register name target isAlias =>
    obtain rfl := isAlias_of_register_mem he
    simp [remarksOn] at hd
  | declarePrimary primary interface =>
    simp only [remarksOn] at hd
    split at hd
    · cases hd
    · split_ifs at hd
      · cases hd
      · obtain rfl := Remark.diagnostic.inj (List.mem_singleton.mp hd)
        simp [ignoringRules, duplicatePrimaryGlobal] at ignoring
  | remark r =>
    obtain rfl := List.mem_singleton.mp hd
    exact definitionPlan_of_diagnostic_mem he
  | _ => cases hd

section

variable {l : Ledger} {node : Node} {name : String}

theorem recordDefinition_of_none (h : (definitionPlan wellKnown node).name? = none) :
    l.recordDefinition wellKnown node = l.recordAll (definitionPlan wellKnown node).entries := by
  simp only [recordDefinition, h]

theorem recordDefinition_of_free (h : (definitionPlan wellKnown node).name? = some name)
    (free : l.isFree name false) :
    l.recordDefinition wellKnown node =
      (l.record (.register name (.node node) false)).recordAll
        (definitionPlan wellKnown node).entries := by
  simp [recordDefinition, h, register, free, record]

theorem recordDefinition_of_taken (h : (definitionPlan wellKnown node).name? = some name)
    (taken : ¬ l.isFree name false) :
    l.recordDefinition wellKnown node = (l.diagnose (duplicateName name), true) := by
  simp [recordDefinition, h, register, taken]

end

/-- A definition adds remarks to a ledger, whatever has been remarked before. If one of them is by a
rule that ignores the definition, it adds nothing else. -/
theorem exists_remarks_recordDefinition (l : Ledger) (node : Node) :
    ∃ added, Remarks (recordDefinition wellKnown · node) l added ∧
      ∀ d, .diagnostic d ∈ added → d.rule ∈ ignoringRules →
        l.recordDefinition wellKnown node = (l.withRemarks (l.remarks ++ added), true) := by
  cases hp : (definitionPlan wellKnown node).name? with
  | none =>
    obtain ⟨added, adds, source⟩ :=
      exists_remarks_recordAll l (definitionPlan wellKnown node).entries
    refine ⟨added, fun rs => ?_, fun d hd ignoring => ?_⟩
    · simp only [recordDefinition_of_none hp, adds rs]
    · obtain ⟨l', e, he, hd⟩ := source _ hd
      have unknown := definitionPlan_of_mem_remarksOn he hd ignoring
      have same : l.recordAll _ = _ := adds l.remarks
      rw [recordDefinition_of_none hp, same, unknown]
      rfl
  | some name =>
    by_cases free : l.isFree name false
    · -- The name is registered without a remark, and the findings are entered.
      obtain ⟨added, adds, source⟩ := exists_remarks_recordAll
        (l.record (.register name (.node node) false)) (definitionPlan wellKnown node).entries
      refine ⟨added, fun rs => ?_, fun d hd ignoring => ?_⟩
      · have stillFree : (l.withRemarks rs).isFree name false := free
        have silent : l.remarksOn (.register name (.node node) false) = [] := by
          simp [remarksOn, free]
        simp only [recordDefinition_of_free hp stillFree, recordDefinition_of_free hp free,
          record_withRemarks, silent, List.append_nil, adds rs]
      · obtain ⟨l', e, he, hd⟩ := source _ hd
        rw [definitionPlan_of_mem_remarksOn he hd ignoring] at hp
        cases hp
    · -- Nothing is entered but the diagnostic.
      have same := recordDefinition_of_taken hp free
      refine ⟨[.diagnostic (duplicateName name)], fun rs => ?_, fun _ _ _ => same⟩
      have stillTaken : ¬ (l.withRemarks rs).isFree name false := free
      simp only [recordDefinition_of_taken hp stillTaken, same]
      rfl

/-! ### Diagnosed definitions -/

/-- Definitions, each with the diagnostics that it adds. -/
def diagnosed (wellKnown : List String) (l : Ledger) : List Node → List (Node × List Diagnostic)
  | [] => []
  | node :: rest =>
    let l' := (l.recordDefinition wellKnown node).1
    (node, l'.diagnostics.drop l.diagnostics.length) :: l'.diagnosed wellKnown rest

theorem map_fst_diagnosed (l : Ledger) (definitions : List Node) :
    (l.diagnosed wellKnown definitions).map Prod.fst = definitions := by
  induction definitions generalizing l with
  | nil => rfl
  | cons node rest ih => rw [diagnosed, List.map_cons, ih]

/-- The diagnostics among remarks. -/
theorem diagnostics_withRemarks_append (l : Ledger) (rs added : List Remark) :
    (l.withRemarks (rs ++ added)).diagnostics =
      (l.withRemarks rs).diagnostics ++ (l.withRemarks added).diagnostics :=
  List.filterMap_append

/-- What a definition is diagnosed with is what it adds to the remarks. -/
theorem drop_diagnostics_recordDefinition {l : Ledger} {node : Node} {added : List Remark}
    (adds : Remarks (recordDefinition wellKnown · node) l added) :
    (l.recordDefinition wellKnown node).1.diagnostics.drop l.diagnostics.length =
      (l.withRemarks added).diagnostics := by
  have same : l.recordDefinition wellKnown node = _ := adds l.remarks
  have longer : (l.recordDefinition wellKnown node).1.diagnostics =
      l.diagnostics ++ (l.withRemarks added).diagnostics := by
    rw [same]
    exact diagnostics_withRemarks_append l l.remarks added
  rw [longer, List.drop_left]

end Ledger

/-- A definition with its diagnostics that is said to be a duplicate or of an unknown kind. -/
def IsIgnored (diagnosed : Node × List Diagnostic) : Prop :=
  ∃ d ∈ diagnosed.2, d.rule ∈ ignoringRules

namespace Ledger

/-- Without some of the definitions that are ignored, everything is entered as it is with them,
except for their diagnostics. -/
theorem recordDefinitions_of_leavesOut {l l' : Ledger} {definitions : List Node}
    {kept : List (Node × List Diagnostic)}
    (h : l.recordDefinitions wellKnown definitions = .ok l')
    (left : LeavesOut IsIgnored (l.diagnosed wellKnown definitions) kept) (rs : List Remark) :
    ∃ rs', (l.withRemarks rs).recordDefinitions wellKnown (kept.map Prod.fst) =
        .ok (l'.withRemarks rs') ∧
      (l'.withRemarks rs').diagnostics =
        (l.withRemarks rs).diagnostics ++ kept.flatMap Prod.snd := by
  induction definitions generalizing l kept rs with
  | nil =>
    obtain rfl := Except.ok.inj h
    cases left
    exact ⟨rs, rfl, (List.append_nil _).symm⟩
  | cons node rest ih =>
    obtain ⟨added, adds, only⟩ := @exists_remarks_recordDefinition wellKnown l node
    have told := drop_diagnostics_recordDefinition adds
    rw [recordDefinitions] at h
    rcases hr : l.recordDefinition wellKnown node with ⟨l₁, _ | _⟩
    · simp [hr] at h
    · simp only [hr] at h
      simp only [diagnosed, hr] at left told
      rw [told] at left
      cases left with
      | keep _ left =>
        obtain ⟨rs', run, diagnostics⟩ := ih h left (rs ++ added)
        refine ⟨rs', ?_, ?_⟩
        · have step : (l.withRemarks rs).recordDefinition wellKnown node =
              ((l.recordDefinition wellKnown node).1.withRemarks (rs ++ added),
                (l.recordDefinition wellKnown node).2) := adds rs
          rw [List.map_cons, recordDefinitions, step, hr]
          exact run
        · rw [diagnostics, diagnostics_withRemarks_append, List.flatMap_cons, List.append_assoc]
          rfl
      | leave ignored left =>
        obtain ⟨d, hd, ignoring⟩ := ignored
        have nothing := only d (mem_diagnostics.mp hd) ignoring
        obtain rfl : l₁ = l.withRemarks (l.remarks ++ added) :=
          congrArg Prod.fst (hr.symm.trans nothing)
        exact ih h left rs

end Ledger

/-- Definitions that are ignored are inert. Without some of them, the report is the same except for
its diagnostics, and these are the ones that the other definitions had before. -/
theorem analyzeDefinitions_of_leavesOut {settings : Settings} {definitions : List Node}
    {hasObsoleteIdl : Bool} {report : Report} {kept : List (Node × List Diagnostic)}
    (h : analyzeDefinitions settings definitions hasObsoleteIdl = .ok report)
    (left : LeavesOut IsIgnored
      (({} : Ledger).diagnosed settings.wellKnown definitions) kept) :
    analyzeDefinitions settings (kept.map Prod.fst) hasObsoleteIdl =
        .ok { report with diagnostics := kept.flatMap Prod.snd } ∧
      (({} : Ledger).diagnosed settings.wellKnown definitions).map Prod.fst = definitions ∧
      report.diagnostics =
        (({} : Ledger).diagnosed settings.wellKnown definitions).flatMap Prod.snd := by
  rw [analyzeDefinitions, bind_eq_ok] at h
  obtain ⟨l, run, same⟩ := h
  obtain rfl : l.report settings.defaultGlobal hasObsoleteIdl = report := Except.ok.inj same
  refine ⟨?_, Ledger.map_fst_diagnosed {} definitions, ?_⟩
  · obtain ⟨rs, run', diagnostics⟩ := Ledger.recordDefinitions_of_leavesOut run left []
    have start : ({} : Ledger).recordDefinitions settings.wellKnown (kept.map Prod.fst) =
      .ok (l.withRemarks rs) := run'
    rw [analyzeDefinitions, ledgerOf, start, show kept.flatMap Prod.snd = _ from diagnostics.symm]
    rfl
  · -- Leaving out nothing, the diagnostics are the ones that each definition adds.
    obtain ⟨rs, run', diagnostics⟩ :=
      Ledger.recordDefinitions_of_leavesOut run (LeavesOut.refl _) []
    rw [Ledger.map_fst_diagnosed] at run'
    have same : l = l.withRemarks rs := Except.ok.inj (run.symm.trans run')
    rw [same]
    exact diagnostics

/-- A stream that inherits from something. -/
def streamNode (parent : String) : Node :=
  { kind := .known .interface, name := "Stream", inheritance := some parent }

/-- What is neither a definition nor a statement. -/
def strayNode : Node :=
  { kind := .known .operation, name := "stray", type := some (.named "Stray" false []) }

/-- A reader of streams. -/
def readerNode : Node :=
  { kind := .known .interface, name := "Reader", inheritance := some "Stream" }

/-- The second stream and the stray operation make no difference to the reader, and none to what is
reported of the third stream. -/
theorem analyzeDefinitions_of_leavesOut_stream :
    ∃ report,
      analyzeDefinitions {} [streamNode "Source", streamNode "Sink", strayNode, readerNode,
        streamNode "Pipe"] = .ok report ∧
      analyzeDefinitions {} [streamNode "Source", readerNode, streamNode "Pipe"] =
        .ok { report with diagnostics := [duplicateName "Stream"] } ∧
      report.diagnostics =
        [duplicateName "Stream", unknownDefinition strayNode, duplicateName "Stream"] := by
  have left : LeavesOut IsIgnored
      (({} : Ledger).diagnosed ({} : Settings).wellKnown [streamNode "Source", streamNode "Sink",
        strayNode, readerNode, streamNode "Pipe"])
      [(streamNode "Source", []), (readerNode, []),
        (streamNode "Pipe", [duplicateName "Stream"])] :=
    .keep _ (.leave ⟨duplicateName "Stream", List.mem_singleton.mpr rfl, by decide⟩
      (.leave ⟨unknownDefinition strayNode, List.mem_singleton.mpr rfl, by decide⟩
        (.keep _ (.keep _ .nil))))
  have run : analyzeDefinitions {} [streamNode "Source", streamNode "Sink", strayNode, readerNode,
      streamNode "Pipe"] = .ok _ := rfl
  obtain ⟨without, -, all⟩ := analyzeDefinitions_of_leavesOut run left
  exact ⟨_, run, without, all⟩

end Analysis
end WebSpec
