import WebSpec.Proofs.Analysis.History

/-!
# What names stand for

Of several definitions of a name the first one counts, and it counts more than any alias of the
name. `names_of_analyzeDefinitions` says this of a report: a name stands for the first definition
that takes it, or else for what the first attribute that introduces it says, and for each further
definition of the name there is one diagnostic.

`registrations` reads what a list of findings registers, of definitions or of aliases, and
`get?_names_ofEntries` finds the table of names in it.
-/

namespace WebSpec.Analysis

open Idl (ExtAttribute Node)

variable {wellKnown : List String} {n : String}

/-! ### Names that attributes introduce -/

/-- The names that an attribute of a definition stands for: without a value, the definition's. -/
def givenNames (node : Node) (attr : ExtAttribute) : List String :=
  attr.value.elim [node.name] (·.names)

/-- The global contexts that a definition declares: all of its first `Global` attribute, and then
the first one of its first `PrimaryGlobal` attribute. -/
def declaredContexts (node : Node) : List String :=
  ((node.extAttribute? "Global").elim [] (givenNames node)) ++
    (node.extAttribute? "PrimaryGlobal").elim [] fun attr => (givenNames node attr).take 1

/-- The constructor that an attribute gives a name of its own. -/
def namedConstructor? (attr : ExtAttribute) : Option (String × NameTarget) := do
  pure ((← (← attr.value).names.head?), .extAttribute attr)

/-- The constructors of a definition that have names of their own. Next to a `Constructor`
attribute there are none. -/
def namedConstructors (node : Node) : List (String × NameTarget) :=
  if ∃ attr ∈ node.attributes, attr.name = "Constructor" then []
  else
    (node.attributes.filter fun a => namedConstructorAttributes.contains a.name).filterMap
      namedConstructor?

/-- The names that the attributes of a definition introduce, in order, with what they stand for:
the definition itself, or the attribute that names a constructor. -/
def introduced (node : Node) : List (String × NameTarget) :=
  if IsExposed node then
    (((declaredContexts node).filter (· ≠ node.name)).map fun name => (name, .node node)) ++
      namedConstructors node
  else []

/-- The definitions that count among those that come after others: all but those that take a name
that is taken. -/
def accepted (earlier : List Node) : List Node → List Node
  | [] => []
  | node :: rest =>
    if TakesName node ∧ IsTaken earlier node.name then accepted (earlier ++ [node]) rest
    else node :: accepted (earlier ++ [node]) rest

/-- A definition takes a name. -/
def Takes (n : String) (node : Node) : Prop :=
  TakesName node ∧ node.name = n

instance : DecidablePred (Takes n) := fun node =>
  inferInstanceAs (Decidable (TakesName node ∧ node.name = n))

/-- What a name stands for among definitions: the first one that takes it, or else what the first
attribute of a definition that counts says. -/
def standsFor (definitions : List Node) (n : String) : Option NameTarget :=
  ((definitions.find? (Takes n)).map .node).or
    (((accepted [] definitions).flatMap introduced).lookup n)

/-! ### Registrations -/

/-- What an entry registers, as a definition or as an alias. -/
def Entry.registration? (isAlias : Bool) : Entry → Option (String × NameTarget)
  | .register name target a => if a = isAlias then some (name, target) else none
  | _ => none

/-- What entries register, as definitions or as aliases. -/
def registrations (isAlias : Bool) (es : List Entry) : List (String × NameTarget) :=
  es.filterMap (Entry.registration? isAlias)

theorem registrations_append (isAlias : Bool) (es es' : List Entry) :
    registrations isAlias (es ++ es') = registrations isAlias es ++ registrations isAlias es' :=
  List.filterMap_append

theorem registrations_flatMap {α : Type} (isAlias : Bool) (f : α → List Entry) (xs : List α) :
    registrations isAlias (xs.flatMap f) = xs.flatMap fun x => registrations isAlias (f x) := by
  induction xs with
  | nil => rfl
  | cons x xs ih => rw [List.flatMap_cons, registrations_append, ih, List.flatMap_cons]

/-- Entries that are no registrations register nothing. -/
theorem registrations_eq_nil {isAlias : Bool} {es : List Entry}
    (h : ∀ name target a, .register name target a ∉ es) : registrations isAlias es = [] := by
  refine List.filterMap_eq_nil_iff.mpr fun e he => ?_
  cases e with
  | register name target a => exact absurd he (h name target a)
  | _ => rfl

namespace Ledger

/-- The names of a ledger in which some pairs have been registered as definitions and others as
aliases. -/
structure Knows (l : Ledger) (definitions aliases : List (String × NameTarget)) : Prop where
  /-- A name stands for its first definition, or else for its first alias. -/
  names : ∀ n, l.names.get? n = (definitions.lookup n).or (aliases.lookup n)
  /-- A definition can take a name that has none. -/
  free : ∀ n, l.isFree n false ↔ definitions.lookup n = none

theorem knows_empty : Knows {} [] [] :=
  ⟨fun n => rfl, fun n => by simp [isFree, Table.contains]⟩

theorem lookup_append_singleton {α : Type} (pairs : List (String × α)) (name : String) (a : α)
    (n : String) :
    (pairs ++ [(name, a)]).lookup n = (pairs.lookup n).or (if n = name then some a else none) := by
  rw [List.lookup_append]
  by_cases same : n = name
  · simp [same]
  · rw [List.lookup_cons, beq_false_of_ne same]
    simp [same]

/-- A definition is registered. -/
theorem Knows.define {l : Ledger} {ds as : List (String × NameTarget)} (h : l.Knows ds as)
    (name : String) (target : NameTarget) :
    (l.record (.register name target false)).Knows (ds ++ [(name, target)]) as := by
  obtain ⟨names, aliases, -, -, -⟩ := recorded l (.register name target false)
  by_cases free : l.isFree name false
  · have undefined := (h.free name).mp free
    simp only [free, if_true] at names
    refine ⟨fun n => ?_, fun n => ?_⟩
    · rw [names, Table.get?_insert, lookup_append_singleton, h.names]
      by_cases same : n = name
      · simp [same, undefined]
      · simp [same]
    · rw [isFree_register free, h.free, lookup_append_singleton]
      by_cases same : n = name <;> simp [same]
  · have defined : ds.lookup name ≠ none := fun undefined => free ((h.free name).mpr undefined)
    have same (n : String) : (ds ++ [(name, target)]).lookup n = ds.lookup n := by
      rw [lookup_append_singleton]
      by_cases same : n = name
      · subst same
        cases hd : ds.lookup n with
        | none => exact absurd hd defined
        | some _ => rfl
      · simp [same]
    simp only [free] at names aliases
    refine ⟨fun n => ?_, fun n => ?_⟩
    · rw [same, ← h.names, names]
      rfl
    · rw [same, ← h.free, isFree_iff, isFree_iff, names, aliases]
      rfl

/-- An alias is registered. -/
theorem Knows.alias {l : Ledger} {ds as : List (String × NameTarget)} (h : l.Knows ds as)
    (name : String) (target : NameTarget) :
    (l.record (.register name target true)).Knows ds (as ++ [(name, target)]) := by
  refine ⟨fun n => ?_, fun n => (isFree_record fun _ _ => by simp).trans (h.free n)⟩
  have known := h.names n
  rw [(recorded l _).names, lookup_append_singleton, ← Option.or_assoc, ← known]
  by_cases free : l.isFree name true
  · have absent : l.names.get? name = none := by
      refine Option.eq_none_iff_forall_ne_some.mpr fun target found => ?_
      exact isFree_alias_iff.mp free (Table.mem_keys_of_get? found)
    simp only [free, if_true, Table.get?_insert]
    by_cases same : n = name
    · simp [same, absent]
    · simp [same]
  · have taken : name ∈ l.names.keys := not_not.mp fun absent => free (isFree_alias_iff.mpr absent)
    simp only [free, Bool.false_eq_true, if_false]
    by_cases same : n = name
    · subst same
      obtain ⟨found, hf⟩ :=
        Option.ne_none_iff_exists'.mp (Table.get?_eq_none_iff.not_left.mpr taken)
      rw [hf]
      rfl
    · simp [same]

/-- Any finding is entered. -/
theorem Knows.record {l : Ledger} {ds as : List (String × NameTarget)} (h : l.Knows ds as)
    (e : Entry) :
    (l.record e).Knows (ds ++ registrations false [e]) (as ++ registrations true [e]) := by
  cases e with
  | register name target isAlias =>
    cases isAlias with
    | false => simpa [registrations, Entry.registration?] using h.define name target
    | true => simpa [registrations, Entry.registration?] using h.alias name target
  | _ =>
    simp only [registrations, Entry.registration?, List.filterMap_cons, List.filterMap_nil,
      List.append_nil]
    refine ⟨fun n => ?_, fun n => (isFree_record fun _ _ => by simp).trans (h.free n)⟩
    rw [(recorded l _).names]
    exact h.names n

theorem Knows.foldl {l : Ledger} {ds as : List (String × NameTarget)} (h : l.Knows ds as)
    (es : List Entry) :
    (es.foldl Ledger.record l).Knows (ds ++ registrations false es)
      (as ++ registrations true es) := by
  induction es generalizing l ds as with
  | nil => simpa [registrations] using h
  | cons e es ih =>
    have next := ih (h.record e)
    rwa [List.append_assoc, List.append_assoc, ← registrations_append,
      ← registrations_append] at next

/-- A name stands for its first definition, or else for its first alias. -/
theorem get?_names_ofEntries (es : List Entry) (n : String) :
    (ofEntries es).names.get? n =
      ((registrations false es).lookup n).or ((registrations true es).lookup n) := by
  have known := (knows_empty.foldl es).names n
  rwa [List.nil_append, List.nil_append] at known

end Ledger

/-! ### What definitions register -/

variable {node : Node}

theorem registrations_of_isUse {isAlias : Bool} {owner : String} {es : List Entry}
    (h : ∀ e ∈ es, IsUse owner e) : registrations isAlias es = [] :=
  registrations_eq_nil fun _ _ _ hm => by cases h _ hm

theorem registrations_listedEntries (isAlias : Bool) :
    registrations isAlias (listedEntries node) = [] :=
  registrations_eq_nil fun _ _ _ h => by simpa using mem_listedEntries h

/-- A context that a definition declares is an alias, unless it is the definition's name. -/
theorem registrations_globalEntries (context : String) :
    registrations true (globalEntries node context) =
      if context = node.name then [] else [(context, .node node)] := by
  unfold globalEntries
  split_ifs <;> rfl

theorem registrations_contexts (contexts : List String) :
    registrations true (contexts.flatMap (globalEntries node)) =
      (contexts.filter (· ≠ node.name)).map fun name => (name, .node node) := by
  induction contexts with
  | nil => rfl
  | cons context rest ih =>
    rw [List.flatMap_cons, registrations_append, registrations_globalEntries, ih]
    by_cases own : context = node.name <;> simp [own]

theorem registrations_declaredEntries :
    registrations true (declaredEntries node) =
      (((node.extAttribute? "Global").elim [] (givenNames node)).filter (· ≠ node.name)).map
        fun name => (name, .node node) := by
  unfold declaredEntries
  cases node.extAttribute? "Global" with
  | none => rfl
  | some attr => exact registrations_contexts (givenNames node attr)

theorem registrations_primaryEntries :
    registrations true (primaryEntries node) =
      (((node.extAttribute? "PrimaryGlobal").elim [] fun attr =>
        (givenNames node attr).take 1).filter (· ≠ node.name)).map
          fun name => (name, .node node) := by
  unfold primaryEntries
  cases node.extAttribute? "PrimaryGlobal" with
  | none => rfl
  | some attr =>
    simp only [Option.elim_some, givenNames]
    cases attr.value.elim [node.name] (·.names) with
    | nil => rfl
    | cons primary rest =>
      rw [List.take_succ_cons, List.take_zero, ← registrations_contexts, List.flatMap_singleton]
      rfl

theorem registrations_namedConstructorEntries (attr : ExtAttribute) :
    registrations true (namedConstructorEntries wellKnown node attr) =
      (namedConstructor? attr).toList := by
  unfold namedConstructorEntries namedConstructor?
  cases attr.value with
  | none => rfl
  | some value =>
    simp only [Option.bind_eq_bind, Option.bind_some]
    cases value.names with
    | nil => rfl
    | cons name rest =>
      rw [registrations_append,
        registrations_of_isUse fun _ => isUse_of_mem_argumentEntries]
      rfl

theorem registrations_constructorEntries :
    registrations true (constructorEntries wellKnown node) = namedConstructors node := by
  have plain : (!(node.attributes.filter (·.name = "Constructor")).isEmpty) = true ↔
      ∃ attr ∈ node.attributes, attr.name = "Constructor" := by
    simp
  unfold constructorEntries namedConstructors
  simp only [plain]
  split_ifs with hc hn hm hi
  · refine registrations_eq_nil fun _ _ _ h => ?_
    simp only [List.mem_cons, reduceCtorEq, false_or] at h
    obtain ⟨attr, -, h⟩ := List.mem_flatMap.mp h
    cases isUse_of_mem_argumentEntries h
  · rw [registrations_flatMap, List.filterMap_eq_flatMap_toList]
    simp only [registrations_namedConstructorEntries]
  all_goals
    have none :
        node.attributes.filter (fun a => namedConstructorAttributes.contains a.name) = [] := by
      simpa using hn
    rw [none]
    rfl

theorem registrations_exposureEntries :
    registrations true (exposureEntries wellKnown node) =
      (((declaredContexts node).filter (· ≠ node.name)).map fun name => (name, .node node)) ++
        namedConstructors node := by
  rw [exposureEntries, registrations_append, registrations_append, registrations_append,
    registrations_listedEntries, registrations_declaredEntries, registrations_primaryEntries,
    registrations_constructorEntries, List.nil_append, declaredContexts, List.filter_append,
    List.map_append]

theorem aboutExposure_registration :
    AboutExposure fun e => (Entry.registration? true e).toList := by
  constructor <;> intros <;> rfl

/-- The aliases among the findings of a definition are the names that it introduces. -/
theorem registrations_entries :
    registrations true (definitionPlan wellKnown node).entries = introduced node := by
  rw [introduced, ← @registrations_exposureEntries wellKnown]
  simp only [registrations, List.filterMap_eq_flatMap_toList,
    aboutExposure_registration.flatMap_entries]

/-! ### What is registered in a history -/

theorem isTaken_append_singleton_iff {earlier : List Node} :
    IsTaken (earlier ++ [node]) n ↔ IsTaken earlier n ∨ Takes n node :=
  isTaken_append_singleton

/-- The definition that is registered for a name is the first one that takes it. -/
theorem lookup_registrations_history {earlier definitions : List Node} :
    (registrations false (history wellKnown earlier definitions)).lookup n =
      if IsTaken earlier n then none else (definitions.find? (Takes n)).map .node := by
  induction definitions generalizing earlier with
  | nil => simp [history, registrations]
  | cons node rest ih =>
    have aliases : registrations false (definitionPlan wellKnown node).entries = [] :=
      List.filterMap_eq_nil_iff.mpr fun e he => by
        cases e with
        | register name target isAlias =>
          obtain rfl := isAlias_of_register_mem he
          rfl
        | _ => rfl
    have found : (node :: rest).find? (Takes n) =
        if Takes n node then some node else rest.find? (Takes n) := by
      by_cases takes : Takes n node <;> simp [takes]
    rw [history, registrations_append, List.lookup_append, ih, effect, found]
    simp only [isTaken_append_singleton_iff]
    by_cases takes : TakesName node
    · by_cases taken : IsTaken earlier node.name
      · have nothing : registrations false [.remark (.diagnostic (duplicateName node.name))] = [] :=
          rfl
        have same (h : Takes n node) : IsTaken earlier n := h.2 ▸ taken
        simp only [takes, taken, if_true, nothing, List.lookup_nil, Option.none_or]
        by_cases here : IsTaken earlier n
        · simp [here]
        · have passes : ¬ Takes n node := fun h => here (same h)
          simp [here, passes]
      · have first : registrations false
            (.register node.name (.node node) false :: (definitionPlan wellKnown node).entries) =
              [(node.name, .node node)] := by
          rw [registrations, List.filterMap_cons, ← registrations, aliases]
          rfl
        simp only [takes, taken, if_true, if_false, first]
        by_cases own : n = node.name
        · subst own
          simp [Takes, takes, taken]
        · have passes : ¬ Takes n node := fun h => own h.2.symm
          simp [passes, List.lookup_cons, beq_false_of_ne own]
    · have passes : ¬ Takes n node := fun h => takes h.1
      simp [takes, passes, aliases]

/-- What a history tells of exposure is what the definitions that count tell. -/
theorem AboutExposure.flatMap_history {β : Type} {f : Entry → List β} (about : AboutExposure f)
    (earlier definitions : List Node) :
    (history wellKnown earlier definitions).flatMap f =
      (accepted earlier definitions).flatMap fun node =>
        if IsExposed node then (exposureEntries wellKnown node).flatMap f else [] := by
  induction definitions generalizing earlier with
  | nil => rfl
  | cons node rest ih =>
    rw [history, List.flatMap_append, ih, accepted, effect]
    by_cases takes : TakesName node
    · by_cases taken : IsTaken earlier node.name
      · simp only [takes, taken, and_self, if_true, List.flatMap_cons, List.flatMap_nil,
          about.remark, List.nil_append]
      · simp only [takes, taken, and_false, if_true, if_false, List.flatMap_cons, about.define,
          about.flatMap_entries, List.nil_append]
    · simp only [takes, false_and, if_false, List.flatMap_cons, about.flatMap_entries]

/-- The aliases that are registered are those that the definitions that count introduce. -/
theorem registrations_history {earlier definitions : List Node} :
    registrations true (history wellKnown earlier definitions) =
      (accepted earlier definitions).flatMap introduced := by
  rw [registrations, List.filterMap_eq_flatMap_toList, aboutExposure_registration.flatMap_history]
  congr 1
  funext node
  rw [introduced, ← @registrations_exposureEntries wellKnown, registrations,
    List.filterMap_eq_flatMap_toList]

/-! ### Duplicates -/

/-- The number of diagnostics for further definitions of a name. -/
def duplicateCount (n : String) (diagnostics : List Diagnostic) : Nat :=
  diagnostics.countP fun d => d.rule = "duplicate-name" ∧ d.name = some n

theorem duplicateCount_duplicateName (name : String) :
    duplicateCount n [duplicateName name] = if name = n then 1 else 0 := by
  by_cases same : name = n <;> simp [duplicateCount, duplicateName, same]

namespace Ledger

/-- Only a definition of a name that is taken adds a diagnostic for a duplicate, besides remarks. -/
theorem duplicateCount_record {l : Ledger} {e : Entry}
    (free : ∀ name target, e = .register name target false → l.isFree name false)
    (other : ∀ d, e = .remark (.diagnostic d) → duplicateCount n [d] = 0) :
    duplicateCount n (l.record e).diagnostics = duplicateCount n l.diagnostics := by
  have told (d : Diagnostic) : duplicateCount n (l.diagnose d).diagnostics =
      duplicateCount n l.diagnostics + duplicateCount n [d] := by
    simp [duplicateCount, Ledger.diagnostics, diagnose, remark, List.filterMap_append]
  cases e with
  | register name target isAlias =>
    cases isAlias with
    | true =>
      simp only [Ledger.record, register, if_true]
      split_ifs <;> rfl
    | false => rw [Ledger.record, register, if_pos (free name target rfl), Ledger.diagnostics]; rfl
  | declarePrimary primary interface =>
    simp only [Ledger.record, declarePrimary]
    split
    · rfl
    · split_ifs
      · rfl
      · exact told _
  | use name =>
    simp only [Ledger.record]
    split_ifs <;> rfl
  | remark r =>
    cases r with
    | diagnostic d => exact (told d).trans (by rw [other d rfl, Nat.add_zero])
    | namelessConstructor => simp [Ledger.record, remark, Ledger.diagnostics]
  | _ => rfl

theorem duplicateCount_entries {l : Ledger} (node : Node) :
    duplicateCount n (((definitionPlan wellKnown node).entries).foldl record l).diagnostics =
      duplicateCount n l.diagnostics := by
  suffices ∀ es : List Entry, (∀ e ∈ es, e ∈ (definitionPlan wellKnown node).entries) →
      duplicateCount n (es.foldl record l).diagnostics = duplicateCount n l.diagnostics from
    this _ fun _ => id
  intro es hes
  induction es generalizing l with
  | nil => rfl
  | cons e es ih =>
    rw [List.foldl_cons, ih fun e he => hes e (List.mem_cons_of_mem _ he)]
    have he := hes e List.mem_cons_self
    refine duplicateCount_record ?_ ?_
    · rintro name target rfl
      exact absurd he not_register_mem_entries
    · rintro d rfl
      rw [eq_unknownDefinition_of_mem he]
      simp [duplicateCount, unknownDefinition]

theorem Tracks.duplicateCount_effect {l : Ledger} {earlier : List Node} (h : l.Tracks earlier)
    (node : Node) :
    duplicateCount n ((effect wellKnown earlier node).foldl record l).diagnostics =
      duplicateCount n l.diagnostics + if Takes n node ∧ IsTaken earlier n then 1 else 0 := by
  unfold effect
  by_cases takes : TakesName node
  · by_cases taken : IsTaken earlier node.name
    · have told : (l.record (.remark (.diagnostic (duplicateName node.name)))).diagnostics =
          l.diagnostics ++ [duplicateName node.name] := by
        simp [record, remark, Ledger.diagnostics, List.filterMap_append]
      have same : (Takes n node ∧ IsTaken earlier n) ↔ node.name = n :=
        ⟨fun h => h.1.2, fun h => ⟨⟨takes, h⟩, h ▸ taken⟩⟩
      simp only [takes, taken, if_true, List.foldl_cons, List.foldl_nil, told, same]
      rw [← duplicateCount_duplicateName]
      exact List.countP_append
    · have passes : ¬ (Takes n node ∧ IsTaken earlier n) := fun h => taken (h.1.2 ▸ h.2)
      have free := (h node.name).mpr taken
      simp only [takes, taken, passes, if_true, if_false, List.foldl_cons]
      rw [duplicateCount_entries, Nat.add_zero]
      refine duplicateCount_record ?_ (by simp)
      rintro _ _ ⟨⟩
      exact free
  · have passes : ¬ (Takes n node ∧ IsTaken earlier n) := fun h => takes h.1.1
    simp only [takes, passes, if_false]
    rw [duplicateCount_entries, Nat.add_zero]

/-- There is a diagnostic for each definition of a name but the first. -/
theorem Tracks.duplicateCount_history {l : Ledger} {earlier : List Node} (h : l.Tracks earlier)
    (definitions : List Node) :
    duplicateCount n ((history wellKnown earlier definitions).foldl record l).diagnostics =
      duplicateCount n l.diagnostics +
        (definitions.countP (Takes n) - if IsTaken earlier n then 0 else 1) := by
  induction definitions generalizing l earlier with
  | nil => simp [history]
  | cons node rest ih =>
    rw [history, List.foldl_append, ih (h.foldl_effect node), h.duplicateCount_effect,
      List.countP_cons]
    simp only [isTaken_append_singleton_iff]
    by_cases takes : Takes n node
    · by_cases taken : IsTaken earlier n <;> simp [takes, taken]
      omega
    · simp [takes]

end Ledger

/-- In the report on definitions a name stands for the first definition that takes it, whatever
attributes introduce the name before or after it; without a definition, for what the first
attribute that introduces it says; and otherwise it is not there. Each definition of a name after
the first one has a diagnostic, and nothing else has. -/
theorem names_of_analyzeDefinitions {settings : Settings} {definitions : List Node}
    {hasObsoleteIdl : Bool} {report : Report}
    (h : analyzeDefinitions settings definitions hasObsoleteIdl = .ok report) (n : String) :
    report.names.get? n = standsFor definitions n ∧
      (n ∈ report.names.keys ↔ (standsFor definitions n).isSome) ∧
      duplicateCount n report.diagnostics = definitions.countP (Takes n) - 1 := by
  obtain ⟨-, rfl⟩ := analyzeDefinitions_eq_ok_iff.mp h
  have found : (Ledger.ofEntries (history settings.wellKnown [] definitions)).names.get? n =
      standsFor definitions n := by
    rw [Ledger.get?_names_ofEntries, lookup_registrations_history, registrations_history,
      if_neg (not_isTaken_nil n)]
    rfl
  refine ⟨found, ?_, ?_⟩
  · rw [← found, Option.isSome_iff_ne_none, ne_eq, Table.get?_eq_none_iff, not_not]
    rfl
  · have counted : duplicateCount n
        ((history settings.wellKnown [] definitions).foldl Ledger.record {}).diagnostics = _ :=
      Ledger.tracks_empty.duplicateCount_history definitions
    rw [if_neg (not_isTaken_nil n)] at counted
    exact counted.trans (Nat.zero_add _)

/-- A worker scope that declares the context `Worker`, and two definitions of this name. -/
def workerDefinitions : List Node :=
  [{ kind := .known .interface, name := "WorkerGlobalScope",
     attributes :=
       [{ name := "Global", value := some ⟨.identifierList, .list ["Worker", "Job"]⟩ }] },
   { kind := .known .interface, name := "Worker" },
   { kind := .known .dictionary, name := "Worker" }]

theorem names_of_analyzeDefinitions_worker :
    ∃ report, analyzeDefinitions {} workerDefinitions = .ok report ∧
      report.names.get? "Worker" = standsFor workerDefinitions "Worker" ∧
      ("Worker" ∈ report.names.keys ↔ (standsFor workerDefinitions "Worker").isSome) ∧
      duplicateCount "Worker" report.diagnostics =
        workerDefinitions.countP (Takes "Worker") - 1 :=
  ⟨_, rfl, names_of_analyzeDefinitions rfl "Worker"⟩

end WebSpec.Analysis
