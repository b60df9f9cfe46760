import Mathlib.Data.List.Nodup
import Mathlib.Data.List.Perm.Basic
import WebSpec.Proofs.Analysis.Integrity
import WebSpec.Proofs.Analysis.Reordering

/-!
# How often names are listed

A report lists the definitions that list or declare a context, and the names that are visible in it.
A definition that counts is the only one of its name that does, so where a definition gives one name
for a context, no name is listed twice: `nodup_exposed` and `nodup_functions`, as long as no
attribute repeats a context that it lists.

A definition gives several names where it declares contexts and constructors. `nodup_globals_iff`
and `nodup_constructors_iff` say when no name is listed twice there. Both an attribute for global
contexts and one for the primary global list a definition, and each attribute for a factory function
lists the function: `globals_scope` and `constructors_factories` are definitions listed twice.
-/

namespace WebSpec.Analysis

open Idl (ExtAttribute Node)

variable {wellKnown : List String} {node : Node}

/-! ### Lists that members give one by one -/

section

variable {α β : Type}

theorem flatMap_ite (p : α → Prop) [DecidablePred p] (f : α → List β) (xs : List α) :
    (xs.flatMap fun x => if p x then f x else []) = (xs.filter p).flatMap f := by
  induction xs with
  | nil => rfl
  | cons x xs ih =>
    rw [List.flatMap_cons, ih, List.filter_cons]
    by_cases holds : p x <;> simp [holds]

theorem flatMap_eq_replicate [DecidableEq α] [BEq α] [LawfulBEq α] (a : α) (b : β)
    (xs : List α) :
    (xs.flatMap fun x => if a = x then [b] else []) = List.replicate (xs.count a) b := by
  induction xs with
  | nil => rfl
  | cons x xs ih =>
    rw [List.flatMap_cons, ih, List.count_cons]
    by_cases same : a = x
    · subst same
      simp [List.replicate_succ]
    · simp [same, Ne.symm same]

end

/-! ### Definitions that count -/

theorem not_isTaken_of_mem_accepted {earlier definitions : List Node}
    (h : node ∈ accepted earlier definitions) (takes : TakesName node) :
    ¬ IsTaken earlier node.name := by
  induction definitions generalizing earlier with
  | nil => cases h
  | cons first rest ih =>
    have later (h : node ∈ accepted (earlier ++ [first]) rest) : ¬ IsTaken earlier node.name :=
      fun taken => ih h (isTaken_append_singleton.mpr (.inl taken))
    rw [accepted] at h
    split_ifs at h with ignored
    · exact later h
    · rcases List.mem_cons.mp h with rfl | h
      · exact fun taken => ignored ⟨takes, taken⟩
      · exact later h

/-- Of the definitions of a name only one counts. -/
theorem distinctNames_accepted (earlier definitions : List Node) :
    DistinctNames (accepted earlier definitions) := by
  induction definitions generalizing earlier with
  | nil => exact List.Pairwise.nil
  | cons first rest ih =>
    rw [accepted]
    split_ifs
    · exact ih _
    · refine List.pairwise_cons.mpr ⟨fun node h takes takes' same => ?_, ih _⟩
      exact not_isTaken_of_mem_accepted h takes'
        (isTaken_append_singleton.mpr (.inr ⟨takes, same⟩))

/-- The definitions that count and are visible have different names. -/
theorem nodup_names_accepted (p : Node → Prop) [DecidablePred p]
    (exposed : ∀ node, p node → IsExposed node) (earlier definitions : List Node) :
    (((accepted earlier definitions).filter p).map Node.name).Nodup := by
  refine List.pairwise_map.mpr (List.pairwise_filter.mpr ?_)
  refine (distinctNames_accepted earlier definitions).imp fun distinct pa pb => ?_
  exact distinct (exposed _ (by simpa using pa)).takesName (exposed _ (by simpa using pb)).takesName

theorem accepted_sublist (earlier definitions : List Node) :
    (accepted earlier definitions).Sublist definitions := by
  induction definitions generalizing earlier with
  | nil => exact .slnil
  | cons first rest ih =>
    rw [accepted]
    split_ifs
    · exact (ih _).cons first
    · exact (ih _).cons_cons first

/-! ### What a definition lists -/

/-- The contexts that a definition lists, and none if it does not list any. -/
def listedContexts (node : Node) : List String :=
  (listedContexts? node).getD []

/-- A definition that only its interface object makes visible. -/
def IsFunction (node : Node) : Prop :=
  (∀ attr ∈ node.attributes, attr.name ≠ "Constructor" ∧
    attr.name ∉ namedConstructorAttributes ∧ attr.name ∉ noInterfaceObjectAttributes) ∧
  (∀ m ∈ node.members, m.kind.meaning? ≠ some .constructorMember) ∧
  node.kind.meaning? = some .interface

instance : DecidablePred IsFunction := fun node =>
  inferInstanceAs (Decidable ((∀ attr ∈ node.attributes, _ ∧ _ ∧ _) ∧
    (∀ m ∈ node.members, _) ∧ _))

/-- The interface object is what is left when no constructor makes a definition visible. -/
theorem isFunction_iff :
    IsFunction node ↔ (¬ ∃ attr ∈ node.attributes, attr.name = "Constructor") ∧
      (¬ ∃ attr ∈ node.attributes, attr.name ∈ namedConstructorAttributes) ∧
      (¬ ∃ m ∈ node.members, m.kind.meaning? = some .constructorMember) ∧
      (node.kind.meaning? = some .interface &&
        !node.hasExtAttribute noInterfaceObjectAttributes) = true := by
  have hidden : node.hasExtAttribute noInterfaceObjectAttributes = false ↔
      ∀ attr ∈ node.attributes, attr.name ∉ noInterfaceObjectAttributes := by
    simp [Node.hasExtAttribute]
  rw [Bool.and_eq_true, Bool.not_eq_true', hidden, decide_eq_true_eq]
  simp only [IsFunction, not_exists, not_and, forall_and]
  tauto

/-- The names of the constructors of a definition, each as often as it is declared. -/
def constructorNames (node : Node) : List String :=
  if ∃ attr ∈ node.attributes, attr.name = "Constructor" then [node.name]
  else if ∃ attr ∈ node.attributes, attr.name ∈ namedConstructorAttributes then
    (namedConstructors node).map Prod.fst
  else if ∃ m ∈ node.members, m.kind.meaning? = some .constructorMember then [node.name]
  else []

/-- The names that a definition is visible under. -/
def visibleNames (node : Node) : Bucket → List String
  | .constructors => constructorNames node
  | .functions => if IsFunction node then [node.name] else []
  | .objects => []

instance (primaryGlobal : String) (node : Node) : DecidablePred (IsVisibleIn primaryGlobal node) :=
  fun _ => inferInstanceAs (Decidable (_ ∨ _ ∧ _))

theorem aboutExposure_listing (context : String) : AboutExposure (Entry.listing context) := by
  constructor <;> intros <;> rfl

theorem aboutExposure_declaring (context : String) : AboutExposure (Entry.declaring context) := by
  constructor <;> intros <;> rfl

theorem aboutExposure_exposing (bucket : Bucket) (context : Context) :
    AboutExposure (Entry.exposing bucket context) := by
  constructor <;> intros <;> rfl

/-- What is told of exposure is told by the attributes of a definition one after the other. -/
theorem flatMap_exposureEntries {β : Type} (f : Entry → List β) :
    (exposureEntries wellKnown node).flatMap f =
      (listedEntries node).flatMap f ++ (declaredEntries node).flatMap f ++
        (primaryEntries node).flatMap f ++ (constructorEntries wellKnown node).flatMap f := by
  rw [exposureEntries, List.flatMap_append, List.flatMap_append, List.flatMap_append]

/-- Constructors only tell what is exposed and what stands for attributes. -/
theorem AboutExposure.flatMap_constructorEntries {β : Type} {f : Entry → List β}
    (about : AboutExposure f) (abandon : f .abandon = [])
    (named : ∀ name target, f (.register name target true) = [])
    (expose : ∀ bucket contexts name, f (.expose bucket contexts name) = []) :
    (constructorEntries wellKnown node).flatMap f = [] := by
  refine List.flatMap_eq_nil_iff.mpr fun e he => ?_
  obtain rfl | ⟨_, _, rfl⟩ | ⟨_, _, rfl⟩ | ⟨_, _, _, rfl⟩ | ⟨a, -, h⟩ := mem_constructorEntries he
  · exact abandon
  · exact about.remark _
  · exact named _ _
  · exact expose _ _ _
  · exact about.of_isUse (isUse_of_mem_typeEntries h)

/-- A definition lists a context as often as its attribute does. -/
theorem listing_exposureEntries (context : String) :
    (exposureEntries wellKnown node).flatMap (Entry.listing context) =
      List.replicate ((listedContexts node).count context) node.name := by
  have listed : (listedEntries node).flatMap (Entry.listing context) =
      List.replicate ((listedContexts node).count context) node.name := by
    rw [listedEntries, List.flatMap_assoc, ← flatMap_eq_replicate]
    refine List.flatMap_congr fun c _ => ?_
    have depends : (if c = "*" then [] else [Entry.depend node.name c]).flatMap
        (Entry.listing context) = [] := by
      split_ifs <;> rfl
    rw [List.flatMap_cons, depends, List.append_nil, Entry.listing]
  have declared : (declaredEntries node).flatMap (Entry.listing context) = [] := by
    refine List.flatMap_eq_nil_iff.mpr fun e he => ?_
    obtain ⟨_, rfl | rfl⟩ := mem_declaredEntries he <;> rfl
  have primary : (primaryEntries node).flatMap (Entry.listing context) = [] := by
    refine List.flatMap_eq_nil_iff.mpr fun e he => ?_
    obtain rfl | ⟨_, rfl | rfl | rfl⟩ := mem_primaryEntries he <;> rfl
  have constructors : (constructorEntries wellKnown node).flatMap (Entry.listing context) = [] :=
    (aboutExposure_listing context).flatMap_constructorEntries rfl (fun _ _ => rfl) fun _ _ _ => rfl
  rw [flatMap_exposureEntries, listed, declared, primary, constructors, List.append_nil,
    List.append_nil, List.append_nil]

theorem declaring_contexts (context : String) (contexts : List String) :
    (contexts.flatMap (globalEntries node)).flatMap (Entry.declaring context) =
      List.replicate (contexts.count context) node.name := by
  rw [List.flatMap_assoc, ← flatMap_eq_replicate]
  refine List.flatMap_congr fun c _ => ?_
  have named : (if c = node.name then [] else [Entry.register c (.node node) true]).flatMap
      (Entry.declaring context) = [] := by
    split_ifs <;> rfl
  rw [globalEntries, List.flatMap_cons, named, List.append_nil, Entry.declaring]

/-- A definition declares a context as often as its attributes do. -/
theorem declaring_exposureEntries (context : String) :
    (exposureEntries wellKnown node).flatMap (Entry.declaring context) =
      List.replicate ((declaredContexts node).count context) node.name := by
  have listed : (listedEntries node).flatMap (Entry.declaring context) = [] := by
    refine List.flatMap_eq_nil_iff.mpr fun e he => ?_
    obtain ⟨_, rfl | rfl⟩ := mem_listedEntries he <;> rfl
  have declared : (declaredEntries node).flatMap (Entry.declaring context) =
      List.replicate (((node.extAttribute? "Global").elim [] (givenNames node)).count context)
        node.name := by
    unfold declaredEntries
    cases node.extAttribute? "Global" with
    | none => rfl
    | some attr => exact declaring_contexts context (givenNames node attr)
  have primary : (primaryEntries node).flatMap (Entry.declaring context) =
      List.replicate (((node.extAttribute? "PrimaryGlobal").elim [] fun attr =>
        (givenNames node attr).take 1).count context) node.name := by
    unfold primaryEntries
    cases node.extAttribute? "PrimaryGlobal" with
    | none => rfl
    | some attr =>
      simp only [Option.elim_some, givenNames]
      cases attr.value.elim [node.name] (·.names) with
      | nil => rfl
      | cons first rest =>
        rw [List.take_succ_cons, List.take_zero, ← declaring_contexts, List.flatMap_singleton]
        rfl
  have constructors : (constructorEntries wellKnown node).flatMap (Entry.declaring context) = [] :=
    (aboutExposure_declaring context).flatMap_constructorEntries rfl (fun _ _ => rfl)
      fun _ _ _ => rfl
  rw [flatMap_exposureEntries, listed, declared, primary, constructors, List.append_nil,
    List.nil_append, declaredContexts, List.count_append, List.replicate_add]

theorem exposing_expose (bucket b : Bucket) (context : Context) (contexts : List Context)
    (name : String) :
    Entry.exposing bucket context (.expose b contexts name) =
      if b = bucket then List.replicate (contexts.count context) name else [] := by
  rw [Entry.exposing, flatMap_eq_replicate]

theorem exposing_argumentEntries (bucket : Bucket) (context : Context)
    (arguments : List Idl.Argument) :
    (argumentEntries wellKnown node.name arguments).flatMap (Entry.exposing bucket context) = [] :=
  List.flatMap_eq_nil_iff.mpr fun _ he =>
    (aboutExposure_exposing bucket context).of_isUse (isUse_of_mem_argumentEntries he)

/-- An attribute that names a constructor makes it visible. -/
theorem exposing_namedConstructorEntries (context : Context) (attr : ExtAttribute) :
    (namedConstructorEntries wellKnown node attr).flatMap (Entry.exposing .constructors context) =
      ((namedConstructor? attr).map Prod.fst).toList.flatMap fun name =>
        List.replicate ((contextsOf node).count context) name := by
  unfold namedConstructorEntries namedConstructor?
  cases attr.value with
  | none => rfl
  | some value =>
    simp only [Option.bind_eq_bind, Option.bind_some]
    cases value.names with
    | nil => rfl
    | cons name rest =>
      rw [List.flatMap_append, exposing_argumentEntries, List.append_nil, List.flatMap_cons,
        List.flatMap_singleton, exposing_expose, if_pos rfl]
      exact (List.append_nil _).symm

theorem exposing_namedConstructorEntries_of_ne {bucket : Bucket} (other : bucket ≠ .constructors)
    (context : Context) (attr : ExtAttribute) :
    (namedConstructorEntries wellKnown node attr).flatMap (Entry.exposing bucket context) = [] := by
  unfold namedConstructorEntries
  split
  · rfl
  · split
    · rfl
    · rw [List.flatMap_append, exposing_argumentEntries, List.append_nil, List.flatMap_cons,
        List.flatMap_singleton, exposing_expose, if_neg other.symm]
      rfl

/-- A definition is visible in a context under its names, as often as it lists the context. -/
theorem exposing_constructorEntries (bucket : Bucket) (context : Context) :
    (constructorEntries wellKnown node).flatMap (Entry.exposing bucket context) =
      (visibleNames node bucket).flatMap fun name =>
        List.replicate ((contextsOf node).count context) name := by
  have plain : (!(node.attributes.filter (·.name = "Constructor")).isEmpty) = true ↔
      ∃ attr ∈ node.attributes, attr.name = "Constructor" := by
    simp
  have named : (!(node.attributes.filter fun a =>
        namedConstructorAttributes.contains a.name).isEmpty) = true ↔
      ∃ attr ∈ node.attributes, attr.name ∈ namedConstructorAttributes := by
    simp
  have member : (node.members.any fun m => m.kind.meaning? = some .constructorMember) = true ↔
      ∃ m ∈ node.members, m.kind.meaning? = some .constructorMember := by
    simp
  unfold constructorEntries
  simp only [plain, named, member]
  split_ifs with hc hn hm hf
  · have arguments : ((node.attributes.filter (·.name = "Constructor")).flatMap fun attr =>
        argumentEntries wellKnown node.name (attr.arguments.getD [])).flatMap
          (Entry.exposing bucket context) = [] := by
      rw [List.flatMap_assoc]
      exact List.flatMap_eq_nil_iff.mpr fun _ _ => exposing_argumentEntries bucket context _
    rw [List.flatMap_cons, arguments, exposing_expose]
    cases bucket <;> simp [visibleNames, constructorNames, isFunction_iff, hc]
  · rw [List.flatMap_assoc]
    by_cases constructors : bucket = .constructors
    · subst constructors
      rw [visibleNames, constructorNames, if_neg hc, if_pos hn, namedConstructors, if_neg hc,
        List.map_filterMap, List.filterMap_eq_flatMap_toList, List.flatMap_assoc]
      exact List.flatMap_congr fun attr _ => exposing_namedConstructorEntries context attr
    · have none : visibleNames node bucket = [] := by
        cases bucket with
        | constructors => exact absurd rfl constructors
        | functions => exact if_neg fun h => (isFunction_iff.mp h).2.1 hn
        | objects => rfl
      rw [none]
      exact List.flatMap_eq_nil_iff.mpr fun attr _ =>
        exposing_namedConstructorEntries_of_ne constructors context attr
  · rw [List.flatMap_singleton, exposing_expose]
    cases bucket <;> simp [visibleNames, constructorNames, isFunction_iff, hc, hn, hm]
  · rw [List.flatMap_singleton, exposing_expose]
    have function : IsFunction node := isFunction_iff.mpr ⟨hc, hn, hm, hf⟩
    cases bucket <;> simp [visibleNames, constructorNames, hc, hn, hm, function]
  · have function : ¬ IsFunction node := fun h => hf (isFunction_iff.mp h).2.2.2
    cases bucket <;> simp [visibleNames, constructorNames, hc, hn, hm, function]

theorem exposing_exposureEntries (bucket : Bucket) (context : Context) :
    (exposureEntries wellKnown node).flatMap (Entry.exposing bucket context) =
      (visibleNames node bucket).flatMap fun name =>
        List.replicate ((contextsOf node).count context) name := by
  have listed : (listedEntries node).flatMap (Entry.exposing bucket context) = [] := by
    refine List.flatMap_eq_nil_iff.mpr fun e he => ?_
    obtain ⟨_, rfl | rfl⟩ := mem_listedEntries he <;> rfl
  have declared : (declaredEntries node).flatMap (Entry.exposing bucket context) = [] := by
    refine List.flatMap_eq_nil_iff.mpr fun e he => ?_
    obtain ⟨_, rfl | rfl⟩ := mem_declaredEntries he <;> rfl
  have primary : (primaryEntries node).flatMap (Entry.exposing bucket context) = [] := by
    refine List.flatMap_eq_nil_iff.mpr fun e he => ?_
    obtain rfl | ⟨_, rfl | rfl | rfl⟩ := mem_primaryEntries he <;> rfl
  rw [flatMap_exposureEntries, listed, declared, primary, exposing_constructorEntries,
    List.nil_append, List.nil_append, List.nil_append]

/-- An attribute that repeats no context lists the definition once, or the definition belongs to
the primary global once. -/
theorem count_contextsOf (listed : (listedContexts node).Nodup) (context : Context) :
    (contextsOf node).count context = if context ∈ contextsOf node then 1 else 0 := by
  refine List.Nodup.count ?_
  unfold listedContexts at listed
  unfold contextsOf
  split
  · rename_i names given
    rw [given] at listed
    exact listed.map fun _ _ => Option.some.inj
  · exact List.nodup_singleton none

/-- A definition that lists contexts does not belong to the primary global for this. -/
theorem not_none_mem_contextsOf {context : String} (h : some context ∈ contextsOf node) :
    none ∉ contextsOf node := by
  unfold contextsOf at h ⊢
  split at h
  · simp
  · simp at h

/-! ### Reports -/

section

variable {settings : Settings} {definitions : List Node} {hasObsoleteIdl : Bool} {report : Report}
  (h : analyzeDefinitions settings definitions hasObsoleteIdl = .ok report)
include h

/-- What declares a context is listed as often as its attributes declare the context. -/
theorem globals_eq (context : String) :
    (report.globals.get? context).getD [] =
      ((accepted [] definitions).filter IsExposed).flatMap fun node =>
        List.replicate ((declaredContexts node).count context) node.name := by
  obtain ⟨-, same⟩ := analyzeDefinitions_eq_ok_iff.mp h
  have held : report.globals.get? context =
      nonempty? ((history settings.wellKnown [] definitions).flatMap
        (Entry.declaring context)) := by
    rw [← same]
    exact Ledger.globals_ofEntries _ context
  rw [held, getD_nonempty?,
    (aboutExposure_declaring context).flatMap_history, ← flatMap_ite]
  simp only [declaring_exposureEntries]

variable (listed : ∀ node ∈ definitions, (listedContexts node).Nodup)
include listed

/-- What lists a context is listed once. -/
theorem exposed_eq (context : String) :
    (report.exposed.get? context).getD [] =
      ((accepted [] definitions).filter fun node =>
        IsExposed node ∧ context ∈ listedContexts node).map Node.name := by
  obtain ⟨-, same⟩ := analyzeDefinitions_eq_ok_iff.mp h
  have held : report.exposed.get? context =
      nonempty? ((history settings.wellKnown [] definitions).flatMap (Entry.listing context)) := by
    rw [← same]
    exact Ledger.exposed_ofEntries _ context
  rw [held, getD_nonempty?,
    (aboutExposure_listing context).flatMap_history, List.map_eq_flatMap, ← flatMap_ite]
  refine List.flatMap_congr fun node counts => ?_
  have once := listed node ((accepted_sublist [] definitions).subset counts)
  rw [listing_exposureEntries, once.count]
  by_cases exposed : IsExposed node <;> by_cases lists : context ∈ listedContexts node <;>
    simp [exposed, lists]

/-- What is visible in a context are the names of the definitions that are visible there. -/
theorem exposure_perm (bucket : Bucket) (context : String) :
    (((report.exposure.entries bucket).get? context).getD []).Perm
      (((accepted [] definitions).filter fun node =>
        IsExposed node ∧ IsVisibleIn report.primaryGlobal node context).flatMap
          fun node => visibleNames node bucket) := by
  obtain ⟨-, same⟩ := analyzeDefinitions_eq_ok_iff.mp h
  have held : (report.exposure.entries bucket).get? context =
      nonempty? (Ledger.exposedIn (history settings.wellKnown [] definitions) report.primaryGlobal
        bucket context) := by
    rw [← same]
    exact Ledger.freeze_ofEntries _ settings.defaultGlobal bucket context
  -- Each definition gives its names to the context that it lists, or to the primary global.
  have told (c : Context) : (history settings.wellKnown [] definitions).flatMap
      (Entry.exposing bucket c) = (accepted [] definitions).flatMap fun node =>
        if IsExposed node ∧ c ∈ contextsOf node then visibleNames node bucket else [] := by
    rw [(aboutExposure_exposing bucket c).flatMap_history]
    refine List.flatMap_congr fun node counts => ?_
    have once := listed node ((accepted_sublist [] definitions).subset counts)
    rw [exposing_exposureEntries, count_contextsOf once]
    by_cases exposed : IsExposed node <;> by_cases lists : c ∈ contextsOf node <;>
      simp [exposed, lists]
  rw [held, getD_nonempty?, Ledger.exposedIn, told, told, ← flatMap_ite]
  by_cases primary : context = report.primaryGlobal
  · rw [if_pos primary]
    refine (List.flatMap_append_perm _ _ _).trans (.of_eq (List.flatMap_congr fun node _ => ?_))
    have visible : IsVisibleIn report.primaryGlobal node context ↔
        some context ∈ contextsOf node ∨ none ∈ contextsOf node :=
      or_congr_right (and_iff_left primary)
    by_cases lists : some context ∈ contextsOf node
    · simp only [visible, lists, not_none_mem_contextsOf lists, and_false, if_false,
        List.append_nil, or_false]
    · simp only [visible, lists, and_false, if_false, List.nil_append, false_or]
  · rw [if_neg primary, List.append_nil]
    refine .of_eq (List.flatMap_congr fun node _ => ?_)
    simp only [IsVisibleIn, primary, and_false, or_false]

/-- No definition is listed twice among those that list a context. -/
theorem nodup_exposed (context : String) : ((report.exposed.get? context).getD []).Nodup := by
  rw [exposed_eq h listed]
  exact nodup_names_accepted _ (fun _ visible => visible.1) [] definitions

/-- No interface object is listed twice. -/
theorem nodup_functions (context : String) :
    ((report.exposure.functions.get? context).getD []).Nodup := by
  refine (exposure_perm h listed .functions context).nodup_iff.mpr ?_
  simp only [visibleNames]
  rw [flatMap_ite, List.filter_filter, ← List.map_eq_flatMap]
  simp only [← Bool.decide_and]
  exact nodup_names_accepted _ (fun _ visible => visible.2.1) [] definitions

/-- No name is listed twice among constructors, if the definitions that are visible in the context
do not give it twice, and only then. -/
theorem nodup_constructors_iff (context : String) :
    ((report.exposure.constructors.get? context).getD []).Nodup ↔
      (((accepted [] definitions).filter fun node =>
        IsExposed node ∧ IsVisibleIn report.primaryGlobal node context).flatMap
          constructorNames).Nodup :=
  (exposure_perm h listed .constructors context).nodup_iff

omit listed in
/-- No definition is listed twice among those that declare a context, if its attributes do not
declare a context twice, and only then. -/
theorem nodup_globals_iff :
    (∀ context, ((report.globals.get? context).getD []).Nodup) ↔
      ∀ node ∈ accepted [] definitions, IsExposed node → (declaredContexts node).Nodup := by
  have each (node : Node) : (declaredContexts node).Nodup ↔ ∀ context,
      (List.replicate ((declaredContexts node).count context) node.name).Nodup :=
    List.nodup_iff_count_le_one.trans (forall_congr' fun _ => List.nodup_replicate.symm)
  have apart (context : String) : ((accepted [] definitions).filter IsExposed).Pairwise
      (Function.onFun List.Disjoint fun node =>
        List.replicate ((declaredContexts node).count context) node.name) := by
    refine (List.pairwise_map.mp (nodup_names_accepted IsExposed (fun _ => id) [] definitions)).imp
      fun distinct name first second => distinct ?_
    exact (List.eq_of_mem_replicate first).symm.trans (List.eq_of_mem_replicate second)
  simp only [globals_eq h, List.nodup_flatMap, apart, and_true, List.mem_filter,
    decide_eq_true_eq, each]
  constructor
  · intro once node counts exposed context
    exact once context node ⟨counts, exposed⟩
  · rintro once context node ⟨counts, exposed⟩
    exact once node counts exposed context

end

/-- An image with a factory function that takes arguments or none. -/
def factoriesNode : Node :=
  { kind := .known .interface, name := "HTMLImageElement"
    attributes :=
      [{ name := "Exposed", value := some ⟨.identifier, .text "Window"⟩ },
       { name := "LegacyFactoryFunction", value := some ⟨.identifier, .text "Image"⟩
         arguments := some [] },
       { name := "LegacyFactoryFunction", value := some ⟨.identifier, .text "Image"⟩
         arguments := some [{ name := "w", type := .named "unsigned long" false [] }] }] }

/-- Each of the attributes lists the factory function. -/
theorem constructors_factories :
    (listedContexts factoriesNode).Nodup ∧ factoriesNode.extAttribute? "Global" = none ∧
      ∃ report, analyzeDefinitions {} [factoriesNode] = .ok report ∧
        report.exposure.constructors.get? "Window" = some ["Image", "Image"] :=
  ⟨by decide, rfl, _, rfl, rfl⟩

/-- A scope that is a global and the primary global. -/
def scopeNode : Node :=
  { kind := .known .interface, name := "Scope"
    attributes := [{ name := "Global" }, { name := "PrimaryGlobal" }] }

/-- Each of the attributes lists the scope. -/
theorem globals_scope :
    (listedContexts scopeNode).Nodup ∧
      ∃ report, analyzeDefinitions {} [scopeNode] = .ok report ∧
        report.globals.get? "Scope" = some ["Scope", "Scope"] :=
  ⟨by decide, _, rfl, rfl⟩

end WebSpec.Analysis
