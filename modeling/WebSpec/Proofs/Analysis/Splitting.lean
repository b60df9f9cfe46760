import WebSpec.Proofs.Analysis.Addition

/-!
# Splitting a definition

Some of the members of a definition can be moved to a partial definition of its name, wherever that
stands. `analyzeDefinitions_split` says that the report is the same then, except that the name also
depends on itself: a partial definition refers to what it adds to.

First the definition loses members. What it is visible as does not depend on them, unless they
declare constructors; so its findings have the same outline (`IsSplit.sameOutline_entries`), where
an outline leaves out links of names and what a name stands for. Findings of the same outline are
entered in ledgers of the same outline (`Ledger.SameOutline.foldl`). The partial definition then
only adds links to its name, and they are those of the members that were lost
(`IsSplit.mem_entries_iff`).
-/

namespace WebSpec.Analysis

open Idl (ExtAttribute Node)

variable {wellKnown : List String} {name n : String}

/-! ### Findings of the same outline -/

/-- Two lists of findings are the same, except for what is added to names and links them, and for
what names stand for. -/
inductive SameOutline : List Entry → List Entry → Prop where
  | nil : SameOutline [] []
  | keep {es es'} (e : Entry) (h : SameOutline es es') : SameOutline (e :: es) (e :: es')
  | register {es es'} (name : String) (target target' : NameTarget) (isAlias : Bool)
      (h : SameOutline es es') :
      SameOutline (.register name target isAlias :: es) (.register name target' isAlias :: es')
  | left {name e es es'} (adds : IsAddition name e) (h : SameOutline es es') :
      SameOutline (e :: es) es'
  | right {name e es es'} (adds : IsAddition name e) (h : SameOutline es es') :
      SameOutline es (e :: es')

namespace SameOutline

variable {es es' fs fs' : List Entry}

theorem refl (es : List Entry) : SameOutline es es := by
  induction es with
  | nil => exact .nil
  | cons e es ih => exact .keep e ih

theorem append (h : SameOutline es es') (h' : SameOutline fs fs') :
    SameOutline (es ++ fs) (es' ++ fs') := by
  induction h with
  | nil => exact h'
  | keep e _ ih => exact .keep e ih
  | register name target target' isAlias _ ih => exact .register name target target' isAlias ih
  | left adds _ ih => exact .left adds ih
  | right adds _ ih => exact .right adds ih

theorem flatMap {α : Type} {f g : α → List Entry} (h : ∀ a, SameOutline (f a) (g a))
    (as : List α) : SameOutline (as.flatMap f) (as.flatMap g) := by
  induction as with
  | nil => exact .nil
  | cons a as ih => exact (h a).append ih

/-- Findings that only add to names have no outline. -/
theorem of_additions (left : ∀ e ∈ es, IsAddition name e) (right : ∀ e ∈ es', IsAddition n e) :
    SameOutline es es' := by
  induction es with
  | nil =>
    induction es' with
    | nil => exact .nil
    | cons e es' ih =>
      exact .right (right e List.mem_cons_self) (ih fun e he => right e (List.mem_cons_of_mem _ he))
  | cons e es ih =>
    exact .left (left e List.mem_cons_self) (ih fun e he => left e (List.mem_cons_of_mem _ he))

theorem abandon_mem_iff (h : SameOutline es es') : .abandon ∈ es ↔ .abandon ∈ es' := by
  have other {name : String} {e : Entry} (adds : IsAddition name e) : .abandon ≠ e := by
    rintro rfl
    rcases adds with link | ⟨_, added⟩
    · cases link
    · cases added
  induction h with
  | nil => exact Iff.rfl
  | keep e _ ih => simpa only [List.mem_cons] using or_congr_right ih
  | register name target target' isAlias _ ih => simpa using ih
  | left adds _ ih => simpa [other adds] using ih
  | right adds _ ih => simpa [other adds] using ih

end SameOutline

/-! ### Ledgers of the same outline -/

namespace Ledger

/-- The same ledger without names and without what adds to them and links them. -/
def outline (l : Ledger) : Ledger :=
  { l.withoutLinks with names := ∅ }

/-- What names stand for makes no difference to findings that register none. -/
theorem outline_record (l : Ledger) {e : Entry}
    (other : ∀ name target isAlias, e ≠ .register name target isAlias) :
    (l.record e).outline = (l.outline.record e).outline := by
  cases e with
  | register name target isAlias => exact absurd rfl (other name target isAlias)
  | declarePrimary primary interface =>
    have first : l.outline.exposure = l.exposure := rfl
    simp only [record, declarePrimary, first]
    split
    · rfl
    · split_ifs <;> rfl
  | use name =>
    simp only [record]
    split_ifs <;> rfl
  | _ => rfl

/-- Two ledgers have the same names, and differ at most in what these stand for and are linked
to. -/
structure SameOutline (l l' : Ledger) : Prop where
  names : l'.names.keys = l.names.keys
  outline : l'.outline = l.outline

variable {l l' l'' : Ledger}

theorem SameOutline.refl (l : Ledger) : l.SameOutline l :=
  ⟨rfl, rfl⟩

theorem SameOutline.symm (h : l.SameOutline l') : l'.SameOutline l :=
  ⟨h.names.symm, h.outline.symm⟩

theorem SameOutline.trans (h : l.SameOutline l') (h' : l'.SameOutline l'') : l.SameOutline l'' :=
  ⟨h'.names.trans h.names, h'.outline.trans h.outline⟩

/-- Adding to a name is no difference. -/
theorem SameBut.sameOutline (h : SameBut name l l') : l.SameOutline l' :=
  ⟨congrArg (fun l => l.names.keys) h.rest, congrArg (fun l => { l with names := ∅ }) h.rest⟩

theorem SameOutline.isFree (h : l.SameOutline l') (n : String) (isAlias : Bool) :
    l'.isFree n isAlias = l.isFree n isAlias := by
  have names : l'.names.contains n = l.names.contains n := by
    rw [Bool.eq_iff_iff, Table.contains_iff, Table.contains_iff, h.names]
  have aliases : l'.aliases = l.aliases := (congrArg Ledger.aliases h.outline :)
  rw [Ledger.isFree, Ledger.isFree, names, aliases]

/-- The same name is registered in both, whatever it stands for. -/
theorem SameOutline.register (h : l.SameOutline l') (name : String) (target target' : NameTarget)
    (isAlias : Bool) :
    (l.record (.register name target isAlias)).SameOutline
      (l'.record (.register name target' isAlias)) := by
  constructor
  · rw [(recorded l _).names, (recorded l' _).names]
    simp only [h.isFree]
    split_ifs
    · rw [Table.keys_insert, Table.keys_insert, h.names]
    · exact h.names
  · have told := h.outline
    simp only [Ledger.record, Ledger.register, h.isFree]
    split_ifs
    · exact congrArg (fun l => { l with aliases := l.aliases.insert name }) told
    · exact congrArg (fun l => { l with aliases := l.aliases.erase name }) told
    · exact told
    · exact congrArg (fun l => l.diagnose (duplicateName name)) told

/-- The same finding is entered in both. -/
theorem SameOutline.record (h : l.SameOutline l') (e : Entry) :
    (l.record e).SameOutline (l'.record e) := by
  by_cases registers : ∃ name target isAlias, e = .register name target isAlias
  · obtain ⟨name, target, isAlias, rfl⟩ := registers
    exact h.register name target target isAlias
  · have other (name target isAlias) : e ≠ .register name target isAlias :=
      fun same => registers ⟨name, target, isAlias, same⟩
    refine ⟨?_, by rw [outline_record l' other, h.outline, ← outline_record l other]⟩
    rw [(recorded l e).names, (recorded l' e).names]
    cases e with
    | register name target isAlias => exact absurd rfl (other name target isAlias)
    | _ => exact h.names

/-- Findings of the same outline are entered. -/
theorem SameOutline.foldl {es es' : List Entry} (same : Analysis.SameOutline es es')
    (h : l.SameOutline l') :
    (es.foldl Ledger.record l).SameOutline (es'.foldl Ledger.record l') := by
  induction same generalizing l l' with
  | nil => exact h
  | keep e _ ih => exact ih (h.record e)
  | register name target target' isAlias _ ih => exact ih (h.register name target target' isAlias)
  | left adds _ ih => exact ih (((SameBut.refl _ l).addition adds).sameOutline.symm.trans h)
  | right adds _ ih => exact ih (h.trans ((SameBut.refl _ l').addition adds).sameOutline)

end Ledger

/-! ### Definitions with other members -/

/-- The exposure of a definition links names by the contexts that it lists and by constructors. -/
theorem mem_exposureEntries_of_isLink {node : Node} {e : Entry} (link : IsLink n e) :
    e ∈ exposureEntries wellKnown node ↔
      e ∈ listedEntries node ∨ e ∈ constructorEntries wellKnown node := by
  have declared : e ∉ declaredEntries node := fun found => by
    obtain ⟨_, rfl | rfl⟩ := mem_declaredEntries found <;> cases link
  have primary : e ∉ primaryEntries node := fun found => by
    obtain rfl | ⟨_, rfl | rfl | rfl⟩ := mem_primaryEntries found <;> cases link
  simp only [exposureEntries, List.mem_append, declared, primary, or_false]

/-- Two definitions agree in all that definitions with members have, except for their members and
their text. -/
structure SameHead (node node' : Node) : Prop where
  kind : node'.kind = node.kind
  name : node'.name = node.name
  isPartial : node'.isPartial = node.isPartial
  inheritance : node'.inheritance = node.inheritance
  attributes : node'.attributes = node.attributes

namespace SameHead

variable {node node' : Node} (h : SameHead node node')
include h

theorem extAttribute?_eq (name : String) : node'.extAttribute? name = node.extAttribute? name := by
  rw [Node.extAttribute?, Node.extAttribute?, h.attributes]

theorem contextsOf_eq : contextsOf node' = contextsOf node := by
  rw [contextsOf, contextsOf, listedContexts?, listedContexts?, h.extAttribute?_eq]

theorem listedEntries_eq : listedEntries node' = listedEntries node := by
  rw [listedEntries, listedEntries, listedContexts?, listedContexts?,
    h.extAttribute?_eq, h.name]

/-- Constructors are visible as before if the members of both declare some or of neither do. -/
theorem constructorEntries_eq
    (same : (node'.members.any fun m => m.kind.meaning? = some .constructorMember) =
      node.members.any fun m => m.kind.meaning? = some .constructorMember) :
    constructorEntries wellKnown node' = constructorEntries wellKnown node := by
  have named :
      namedConstructorEntries wellKnown node' = namedConstructorEntries wellKnown node := by
    funext attr
    simp only [namedConstructorEntries, h.contextsOf_eq, h.name]
  simp only [constructorEntries, Node.hasExtAttribute, h.attributes, h.contextsOf_eq, h.name,
    h.kind, named, same]
  rfl

theorem sameOutline_globalEntries (context : String) :
    SameOutline (globalEntries node context) (globalEntries node' context) := by
  unfold globalEntries
  rw [h.name]
  refine .keep _ ?_
  split_ifs
  · exact .nil
  · exact .register _ _ _ _ .nil

theorem sameOutline_declaredEntries :
    SameOutline (declaredEntries node) (declaredEntries node') := by
  unfold declaredEntries
  rw [h.extAttribute?_eq, h.name]
  split
  · exact .nil
  · exact .flatMap h.sameOutline_globalEntries _

theorem sameOutline_primaryEntries : SameOutline (primaryEntries node) (primaryEntries node') := by
  unfold primaryEntries
  rw [h.extAttribute?_eq, h.name]
  split
  · exact .nil
  · split
    · exact .refl _
    · exact .keep _ (h.sameOutline_globalEntries _)

/-- What a definition is visible as does not depend on members that declare no constructors. -/
theorem sameOutline_exposureEntries
    (same : constructorEntries wellKnown node' = constructorEntries wellKnown node) :
    SameOutline (exposureEntries wellKnown node) (exposureEntries wellKnown node') := by
  rw [exposureEntries, exposureEntries, h.listedEntries_eq, same]
  exact (((SameOutline.refl _).append h.sameOutline_declaredEntries).append
    h.sameOutline_primaryEntries).append (.refl _)

theorem isContainer : IsContainer node' ↔ IsContainer node := by
  rw [IsContainer, IsContainer, h.kind]

theorem isExposed : IsExposed node' ↔ IsExposed node := by
  rw [IsExposed, IsExposed, h.kind, h.isPartial]

theorem takesName : TakesName node' ↔ TakesName node := by
  rw [TakesName, TakesName, h.isContainer, h.kind, h.isPartial]

end SameHead

/-! ### Splits -/

/-- The members of a definition are split into those that it keeps, among them all that declare
constructors, and those that a partial definition of the same kind adds to it. -/
structure IsSplit (node whole part : Node) : Prop where
  head : SameHead node whole
  members : node.members.Perm (whole.members ++ part.members)
  constructors : ∀ m ∈ part.members, m.kind.meaning? ≠ some .constructorMember
  kind : part.kind = node.kind
  name : part.name = node.name
  isPartial : part.isPartial
  inheritance : part.inheritance = none

namespace IsSplit

variable {node whole part : Node} (split : IsSplit node whole part)
include split

theorem constructorEntries_eq :
    constructorEntries wellKnown whole = constructorEntries wellKnown node := by
  refine split.head.constructorEntries_eq ?_
  have moved : (part.members.any fun m => m.kind.meaning? = some .constructorMember) = false := by
    simpa using split.constructors
  rw [split.members.any_eq, List.any_append, moved, Bool.or_false]

theorem isContainer_part (container : IsContainer node) : IsContainer part := by
  rwa [IsContainer, split.kind]

theorem addsTo (container : IsContainer node) : AddsTo node.name part :=
  .inl ⟨split.isContainer_part container, split.isPartial, split.name⟩

/-- The findings of the definition without the members that are moved. -/
theorem sameOutline_entries (container : IsContainer node) (isWhole : ¬ node.isPartial) :
    SameOutline (definitionPlan wellKnown node).entries
      (definitionPlan wellKnown whole).entries := by
  have container' := split.head.isContainer.mpr container
  have isWhole' : ¬ whole.isPartial := by rwa [split.head.isPartial]
  rw [entries_of_isWhole wellKnown container isWhole,
    entries_of_isWhole wellKnown container' isWhole', split.head.name, split.head.inheritance,
    if_congr split.head.isExposed rfl rfl]
  refine ((SameOutline.refl _).append ?_).append ?_
  · split_ifs
    · exact split.head.sameOutline_exposureEntries split.constructorEntries_eq
    · exact .nil
  · have links (node : Node) (name : String) :
        ∀ e ∈ memberEntries wellKnown name node, IsAddition name e :=
      fun _ h => .inl (isUse_of_mem_memberEntries h).isLink
    exact .of_additions (links node _) (links whole _)

variable {e : Entry}

theorem mem_memberEntries_iff (owner : String) :
    e ∈ memberEntries wellKnown owner whole ∨ e ∈ memberEntries wellKnown owner part ↔
      e ∈ memberEntries wellKnown owner node := by
  simp only [memberEntries, List.mem_flatMap, split.members.mem_iff, List.mem_append, or_and_right,
    exists_or]

/-- Together both definitions link what the one did, and the name to itself. -/
theorem mem_entries_iff (container : IsContainer node) (isWhole : ¬ node.isPartial)
    (link : IsLink n e) :
    e ∈ (definitionPlan wellKnown whole).entries ∨ e ∈ (definitionPlan wellKnown part).entries ↔
      e ∈ (definitionPlan wellKnown node).entries ∨ e = .depend node.name node.name := by
  have container' := split.head.isContainer.mpr container
  have isWhole' : ¬ whole.isPartial := by rwa [split.head.isPartial]
  have added : e ≠ .extend node.name part := by
    rintro rfl
    cases link
  have members : e ∈ memberEntries wellKnown node.name whole ∨ _ ↔ _ :=
    split.mem_memberEntries_iff node.name
  have exposure : e ∈ exposureEntries wellKnown whole ↔ e ∈ exposureEntries wellKnown node := by
    rw [mem_exposureEntries_of_isLink link, mem_exposureEntries_of_isLink link,
      split.head.listedEntries_eq, split.constructorEntries_eq]
  have visible : e ∈ (if IsExposed whole then exposureEntries wellKnown whole else []) ↔
      e ∈ (if IsExposed node then exposureEntries wellKnown node else []) := by
    rw [if_congr split.head.isExposed rfl rfl]
    split_ifs
    · exact exposure
    · exact Iff.rfl
  rw [entries_of_isWhole wellKnown container isWhole,
    entries_of_isWhole wellKnown container' isWhole',
    entries_of_isPartial wellKnown (split.isContainer_part container) split.isPartial, split.name,
    split.inheritance, split.head.name, split.head.inheritance]
  simp only [List.mem_append, List.mem_cons, visible, added, ← members, Option.filter_none,
    Option.toList_none, List.flatMap_nil, List.not_mem_nil, false_or]
  exact or_assoc.symm.trans (or_right_comm.trans (or_congr_left or_assoc))

end IsSplit

/-! ### Reports -/

/-- A definition whose name is free enters its name and its findings. -/
theorem history_of_free {node : Node} (takes : TakesName node) {before : List Node}
    (free : ¬ IsTaken before node.name) (after : List Node) :
    history wellKnown [] (before ++ node :: after) =
      history wellKnown [] before ++ (.register node.name (.node node) false ::
        ((definitionPlan wellKnown node).entries ++
          history wellKnown (before ++ [node]) after)) := by
  rw [history_append, List.nil_append, history, effect, if_pos takes, if_neg free, List.cons_append]

namespace IsSplit

variable {node whole part : Node} (split : IsSplit node whole part) (container : IsContainer node)
  (isWhole : ¬ node.isPartial) {before : List Node} (free : ¬ IsTaken before node.name)
  (after : List Node)
include split container isWhole free

/-- The definition with fewer members comes in the place of the one with all of them. -/
theorem history_whole :
    history wellKnown [] (before ++ whole :: after) =
      history wellKnown [] before ++ (.register node.name (.node whole) false ::
        ((definitionPlan wellKnown whole).entries ++
          history wellKnown (before ++ [node]) after)) := by
  have takes : TakesName whole := split.head.takesName.mpr (.inl ⟨container, isWhole⟩)
  have taken (name : String) :
      IsTaken (before ++ [whole]) name ↔ IsTaken (before ++ [node]) name := by
    rw [isTaken_append_singleton, isTaken_append_singleton, split.head.takesName, split.head.name]
  rw [history_of_free takes (by rwa [split.head.name]), history_congr taken, split.head.name]

theorem sameOutline_history :
    SameOutline (history wellKnown [] (before ++ node :: after))
      (history wellKnown [] (before ++ whole :: after)) := by
  rw [history_of_free (.inl ⟨container, isWhole⟩) free,
    split.history_whole container isWhole free]
  refine (SameOutline.refl _).append (.register _ _ _ _ ?_)
  exact (split.sameOutline_entries container isWhole).append (.refl _)

variable {x y : List Node} (placed : x ++ y = before ++ whole :: after)
include placed

theorem mem_history_iff {e : Entry} (link : IsLink n e) :
    e ∈ history wellKnown [] (x ++ part :: y) ↔
      e ∈ history wellKnown [] (before ++ node :: after) ∨ e = .depend node.name node.name := by
  have apart : e ∈ history wellKnown [] (x ++ part :: y) ↔
      e ∈ history wellKnown [] (x ++ y) ∨ e ∈ (definitionPlan wellKnown part).entries := by
    rw [history_insert wellKnown (split.addsTo container), history_append, List.nil_append]
    simp only [List.mem_append]
    exact (or_congr_right or_comm).trans or_assoc.symm
  have own (target : NameTarget) : e ≠ .register node.name target false := by
    rintro rfl
    cases link
  have entries : e ∈ (definitionPlan wellKnown whole).entries ∨ _ ↔ _ :=
    split.mem_entries_iff container isWhole link
  rw [apart, placed, split.history_whole container isWhole free,
    history_of_free (.inl ⟨container, isWhole⟩) free]
  simp only [List.mem_append, List.mem_cons, own, false_or]
  have others (before own after part : Prop) :
      (before ∨ own ∨ after) ∨ part ↔ (before ∨ after) ∨ own ∨ part :=
    (or_congr_left ((or_congr_right or_comm).trans or_assoc.symm)).trans or_assoc
  rw [others, others, entries]

end IsSplit

namespace Ledger

section

variable {es es' : List Entry}
  (links : ∀ n e, IsLink n e → (e ∈ es' ↔ e ∈ es ∨ e = .depend name name))
include links

/-- The same names are used where a name is only linked to itself in addition. -/
theorem reallyDependsOnWindow_of_links :
    (ofEntries es').reallyDependsOnWindow = (ofEntries es).reallyDependsOnWindow := by
  rw [reallyDependsOnWindow_ofEntries, reallyDependsOnWindow_ofEntries, Bool.eq_iff_iff,
    List.any_eq_true, List.any_eq_true]
  refine exists_congr fun e => and_congr_left fun uses => ?_
  cases e with
  | use used => simpa using links name _ (.use used)
  | _ => cases uses

theorem mem_dependencies_of_links (n d : String) :
    d ∈ ((ofEntries es').dependencies.get? n).getD ∅ ↔
      d ∈ ((ofEntries es).dependencies.get? n).getD ∅ ∨ n = name ∧ d = name := by
  rw [mem_dependencies_ofEntries, mem_dependencies_ofEntries, links n _ (.depend d),
    Entry.depend.injEq]

variable (names : (ofEntries es').names.keys = (ofEntries es).names.keys)
  (known : name ∈ (ofEntries es).names.keys)
include names known

theorem mem_dependencies_keys_of_links (n : String) :
    n ∈ (ofEntries es').dependencies.keys ↔ n ∈ (ofEntries es).dependencies.keys := by
  have depends : (∃ d, .depend n d ∈ es') ↔ (∃ d, .depend n d ∈ es) ∨ n = name := by
    simp [links n _ (.depend _), exists_or]
  rw [mem_dependencies_keys_ofEntries, mem_dependencies_keys_ofEntries, names, depends]
  constructor
  · rintro (h | h | rfl)
    · exact .inl h
    · exact .inr h
    · exact .inl known
  · exact Or.imp_right .inl

/-- A name that is known is not external, so it makes no difference that it is linked to itself. -/
theorem mem_externalDependencies_of_links (n : String) :
    n ∈ (ofEntries es').externalDependencies ↔ n ∈ (ofEntries es).externalDependencies := by
  rw [mem_externalDependencies, mem_externalDependencies, names]
  refine and_congr_left fun unknown => ?_
  have other : n ≠ name := fun same => unknown (same ▸ known)
  rw [mem_referenced_ofEntries, mem_referenced_ofEntries, links n _ (.reference n)]
  simp [links _ _ (.depend _), other]

end

end Ledger

/-- The second report is the first one, except that a name also depends on itself. -/
structure Report.LinksToItself (name : String) (report report' : Report) : Prop where
  names_keys : report'.names.keys = report.names.keys
  exposure : report'.exposure = report.exposure
  globals : report'.globals = report.globals
  exposed : report'.exposed = report.exposed
  primaryGlobal : report'.primaryGlobal = report.primaryGlobal
  hasObsoleteIdl : report'.hasObsoleteIdl = report.hasObsoleteIdl
  diagnostics : report'.diagnostics = report.diagnostics
  reallyDependsOnWindow : report'.reallyDependsOnWindow = report.reallyDependsOnWindow
  externalDependencies : ∀ n, n ∈ report'.externalDependencies ↔ n ∈ report.externalDependencies
  dependencies_keys : ∀ n, n ∈ report'.dependencies.keys ↔ n ∈ report.dependencies.keys
  dependencies : ∀ n d, d ∈ (report'.dependencies.get? n).getD ∅ ↔
    d ∈ (report.dependencies.get? n).getD ∅ ∨ n = name ∧ d = name

/-- Splitting a definition keeps its meaning. In place of a definition with members, the first of
its name, stands one that lacks some of them, and wherever it is put, a partial definition has
these. Then the report differs only in that the name depends on itself, too. -/
theorem analyzeDefinitions_split {settings : Settings} {before after : List Node}
    {node whole part : Node} {hasObsoleteIdl : Bool} {report : Report}
    (h : analyzeDefinitions settings (before ++ node :: after) hasObsoleteIdl = .ok report)
    (container : IsContainer node) (isWhole : ¬ node.isPartial)
    (free : ¬ IsTaken before node.name) (split : IsSplit node whole part) {x y : List Node}
    (placed : x ++ y = before ++ whole :: after) :
    ∃ report', analyzeDefinitions settings (x ++ part :: y) hasObsoleteIdl = .ok report' ∧
      report.LinksToItself node.name report' := by
  obtain ⟨complete, rfl⟩ := analyzeDefinitions_eq_ok_iff.mp h
  have adds := split.addsTo container
  have replaced : SameOutline _ (history settings.wellKnown [] (before ++ whole :: after)) :=
    split.sameOutline_history container isWhole free after
  have complete' : .abandon ∉ history settings.wellKnown [] (x ++ part :: y) :=
    abandon_not_mem_history_insert settings.wellKnown adds x y
      (placed ▸ mt replaced.abandon_mem_iff.mpr complete)
  have same : Ledger.SameOutline
      (.ofEntries (history settings.wellKnown [] (before ++ node :: after)))
      (.ofEntries (history settings.wellKnown [] (x ++ part :: y))) :=
    ((Ledger.SameOutline.refl {}).foldl replaced).trans
      (placed ▸ (sameBut_insert settings.wellKnown adds x y).sameOutline)
  have links (n : String) (e : Entry) (link : IsLink n e) :
      e ∈ history settings.wellKnown [] (x ++ part :: y) ↔ _ :=
    split.mem_history_iff container isWhole free after placed link
  have known : node.name ∈
      (Ledger.ofEntries (history settings.wellKnown [] (before ++ node :: after))).names.keys := by
    rw [Ledger.mem_names_ofEntries, history_of_free (.inl ⟨container, isWhole⟩) free]
    exact ⟨_, _, List.mem_append_right _ List.mem_cons_self⟩
  refine ⟨_, analyzeDefinitions_eq_ok_iff.mpr ⟨complete', rfl⟩, ?_⟩
  exact {
    names_keys := same.names
    exposure := congrArg (fun l => l.exposure.freeze settings.defaultGlobal) same.outline
    globals := (congrArg Ledger.globals same.outline :)
    exposed := (congrArg Ledger.exposed same.outline :)
    primaryGlobal := congrArg (fun l => l.exposure.primary settings.defaultGlobal) same.outline
    hasObsoleteIdl := rfl
    diagnostics := (congrArg Ledger.diagnostics same.outline :)
    reallyDependsOnWindow := Ledger.reallyDependsOnWindow_of_links links
    externalDependencies := Ledger.mem_externalDependencies_of_links links same.names known
    dependencies_keys := Ledger.mem_dependencies_keys_of_links links same.names known
    dependencies := Ledger.mem_dependencies_of_links links }

/-- A recorder of what happens in windows, with some members. -/
def recorderNode (members : List Node) : Node :=
  { kind := .known .interface, name := "Recorder", inheritance := some "Device", members,
    attributes := [{ name := "Exposed", value := some ⟨.identifier, .text "Window"⟩ },
      { name := "Global", value := some ⟨.identifier, .text "Studio"⟩ }] }

/-- A recorder is made from a track. -/
def recorderConstructor : Node :=
  { kind := .known .constructorMember,
    arguments := [{ name := "track", type := .named "Track" false [] }] }

/-- A recorder has a codec. -/
def recorderCodec : Node :=
  { kind := .known .attributeMember, name := "codec", type := some (.named "Codec" false []) }

/-- A recorder starts again. -/
def recorderRestart : Node :=
  { kind := .known .operation, name := "restart", type := some (.named "Recorder" true []) }

/-- A part of the recorder, which has its codec. -/
def recorderPart : Node :=
  { kind := .known .interface, name := "Recorder", isPartial := true, members := [recorderCodec] }

/-- What makes recordings refers to recorders. -/
def recordingNode : Node :=
  { kind := .known .typedef, name := "Recording", type := some (.named "Recorder" false []) }

/-- The codec is moved to the front, where nothing is known of recorders yet. -/
theorem analyzeDefinitions_split_recorder :
    IsSplit (recorderNode [recorderConstructor, recorderCodec, recorderRestart])
        (recorderNode [recorderConstructor, recorderRestart]) recorderPart ∧
      ∃ report report',
        analyzeDefinitions {} [recordingNode,
          recorderNode [recorderConstructor, recorderCodec, recorderRestart]] = .ok report ∧
        analyzeDefinitions {} [recorderPart, recordingNode,
          recorderNode [recorderConstructor, recorderRestart]] = .ok report' ∧
        report.LinksToItself "Recorder" report' := by
  have split : IsSplit (recorderNode [recorderConstructor, recorderCodec, recorderRestart])
      (recorderNode [recorderConstructor, recorderRestart]) recorderPart :=
    { head := ⟨rfl, rfl, rfl, rfl, rfl⟩
      members := (List.Perm.swap ..).cons _
      constructors := by decide
      kind := rfl
      name := rfl
      isPartial := rfl
      inheritance := rfl }
  have run : analyzeDefinitions {} ([recordingNode] ++
      recorderNode [recorderConstructor, recorderCodec, recorderRestart] :: []) = .ok _ := rfl
  have container : IsContainer
      (recorderNode [recorderConstructor, recorderCodec, recorderRestart]) :=
    IsExposed.isContainer (by decide)
  obtain ⟨report', run', links⟩ :=
    analyzeDefinitions_split run container (by decide) (by decide) split (x := []) rfl
  exact ⟨split, _, report', run, run', links⟩

end WebSpec.Analysis
