import WebSpec.Proofs.Analysis.Constructors
import WebSpec.Proofs.Analysis.Precedence

/-!
# Names that a report resolves

What is visible, declared or listed in a report is a name of the report, and what is visible in a
context is so because something lists the context, or because it is the primary global.

Each finding rests on others: what is exposed, declared or listed has to be registered, and a
context has to be listed where something is exposed in it. The findings of one definition rest on
each other (`closed_effect`), so those of a history do (`closed_history`).
`resolves_of_analyzeDefinitions` reads the tables of a report off such a history.
-/

namespace WebSpec.Analysis

open Idl (ExtAttribute Node)

variable {wellKnown : List String} {node : Node} {es es' : List Entry} {e : Entry}

/-! ### What findings rest on -/

/-- A name is registered, as a definition or as an alias. -/
def Registered (es : List Entry) (name : String) : Prop :=
  ∃ target isAlias, .register name target isAlias ∈ es

/-- The findings that one finding needs besides itself. -/
def Entry.RestsOn (es : List Entry) : Entry → Prop
  | .expose bucket contexts name => bucket ≠ .objects ∧ Registered es name ∧
      ∀ context, some context ∈ contexts → ∃ interface, .listExposed context interface ∈ es
  | .declareGlobal context interface => Registered es context ∧ Registered es interface
  | .listExposed context interface => Registered es interface ∧
      (context = "*" ∨ .depend interface context ∈ es)
  | _ => True

/-- Findings that need nothing but each other. -/
def Closed (es : List Entry) : Prop :=
  ∀ e ∈ es, e.RestsOn es

theorem Registered.mono {name : String} (h : Registered es name) (more : es ⊆ es') :
    Registered es' name := by
  obtain ⟨target, isAlias, h⟩ := h
  exact ⟨target, isAlias, more h⟩

theorem Entry.RestsOn.mono (h : e.RestsOn es) (more : es ⊆ es') : e.RestsOn es' := by
  cases e with
  | expose bucket contexts name =>
    refine ⟨h.1, h.2.1.mono more, fun context hc => ?_⟩
    obtain ⟨interface, listed⟩ := h.2.2 context hc
    exact ⟨interface, more listed⟩
  | declareGlobal context interface => exact ⟨h.1.mono more, h.2.mono more⟩
  | listExposed context interface => exact ⟨h.1.mono more, h.2.imp_right (more ·)⟩
  | _ => trivial

theorem Closed.append (h : Closed es) (h' : Closed es') : Closed (es ++ es') := by
  intro e he
  rcases List.mem_append.mp he with he | he
  · exact (h e he).mono (List.subset_append_left es es')
  · exact (h' e he).mono (List.subset_append_right es es')

theorem IsUse.restsOn {owner : String} (h : IsUse owner e) (es : List Entry) : e.RestsOn es := by
  cases h <;> trivial

/-! ### Findings of a definition -/

section

variable (own : Registered es node.name)

include own

theorem restsOn_listedEntries (within : listedEntries node ⊆ es) (h : e ∈ listedEntries node) :
    e.RestsOn es := by
  obtain ⟨context, listed, h⟩ := List.mem_flatMap.mp h
  rcases List.mem_cons.mp h with rfl | h
  · refine ⟨own, or_iff_not_imp_left.mpr fun specific => within ?_⟩
    exact depend_mem_listedEntries.mpr ⟨rfl, mem_listedContexts.mp listed, specific⟩
  · split_ifs at h
    · cases h
    · rw [List.mem_singleton.mp h]
      trivial

theorem restsOn_globalEntries {context : String} (within : globalEntries node context ⊆ es)
    (h : e ∈ globalEntries node context) : e.RestsOn es := by
  rcases mem_globalEntries h with rfl | rfl
  · refine ⟨?_, own⟩
    by_cases same : context = node.name
    · exact same ▸ own
    · exact ⟨.node node, true, within (by simp [globalEntries, same])⟩
  · trivial

theorem restsOn_declaredEntries (within : declaredEntries node ⊆ es)
    (h : e ∈ declaredEntries node) : e.RestsOn es := by
  unfold declaredEntries at within h
  cases declared : node.extAttribute? "Global" with
  | none => simp [declared] at h
  | some attr =>
    simp only [declared] at within h
    obtain ⟨context, given, h⟩ := List.mem_flatMap.mp h
    exact restsOn_globalEntries own
      (fun e he => within (List.mem_flatMap.mpr ⟨context, given, he⟩)) h

theorem restsOn_primaryEntries (within : primaryEntries node ⊆ es)
    (h : e ∈ primaryEntries node) : e.RestsOn es := by
  unfold primaryEntries at within h
  cases declared : node.extAttribute? "PrimaryGlobal" with
  | none => simp [declared] at h
  | some attr =>
    simp only [declared] at within h
    cases given : attr.value.elim [node.name] (·.names) with
    | nil =>
      rw [given] at h
      rw [List.mem_singleton.mp h]
      trivial
    | cons primary rest =>
      simp only [given, List.cons_subset] at within h
      rcases List.mem_cons.mp h with rfl | h
      · trivial
      · exact restsOn_globalEntries own within.2 h

end

/-- The contexts that a definition is visible in by their names are those that it lists. -/
theorem listExposed_mem_of_contextsOf (within : listedEntries node ⊆ es) {context : String}
    (h : some context ∈ contextsOf node) : ∃ interface, .listExposed context interface ∈ es := by
  unfold contextsOf at h
  cases listed : listedContexts? node with
  | none => simp [listed] at h
  | some names =>
    have given : context ∈ (listedContexts? node).getD [] := by simpa [listed] using h
    exact ⟨node.name, within (List.mem_flatMap.mpr ⟨context, given, List.mem_cons_self⟩)⟩

theorem restsOn_exposeOwn (own : Registered es node.name) (listed : listedEntries node ⊆ es)
    {bucket : Bucket} (visible : bucket ≠ .objects) :
    (Entry.expose bucket (contextsOf node) node.name).RestsOn es :=
  ⟨visible, own, fun _ => listExposed_mem_of_contextsOf listed⟩

theorem restsOn_namedConstructorEntries (listed : listedEntries node ⊆ es) {attr : ExtAttribute}
    (within : namedConstructorEntries wellKnown node attr ⊆ es)
    (h : e ∈ namedConstructorEntries wellKnown node attr) : e.RestsOn es := by
  rcases mem_namedConstructorEntries h with rfl | rfl | ⟨name, rfl⟩ | ⟨contexts, name, rfl⟩ | ⟨-, h⟩
  · trivial
  · trivial
  · trivial
  · obtain ⟨rfl, value, rest, given, first⟩ := expose_mem_namedConstructorEntries.mp h
    refine ⟨by decide, ⟨.extAttribute attr, true, within ?_⟩, fun _ => ?_⟩
    · simp [namedConstructorEntries, given, first]
    · exact listExposed_mem_of_contextsOf listed
  · exact (isUse_of_mem_argumentEntries h).restsOn es

theorem restsOn_constructorEntries (own : Registered es node.name)
    (listed : listedEntries node ⊆ es) (within : constructorEntries wellKnown node ⊆ es)
    (h : e ∈ constructorEntries wellKnown node) : e.RestsOn es := by
  unfold constructorEntries at within h
  simp only at within h
  split_ifs at within h
  · rcases List.mem_cons.mp h with rfl | h
    · exact restsOn_exposeOwn own listed (by decide)
    · obtain ⟨attr, -, h⟩ := List.mem_flatMap.mp h
      exact (isUse_of_mem_argumentEntries h).restsOn es
  · obtain ⟨attr, named, h⟩ := List.mem_flatMap.mp h
    exact restsOn_namedConstructorEntries listed
      (fun e he => within (List.mem_flatMap.mpr ⟨attr, named, he⟩)) h
  · rw [List.mem_singleton.mp h]
    exact restsOn_exposeOwn own listed (by decide)
  · rw [List.mem_singleton.mp h]
    exact restsOn_exposeOwn own listed (by decide)
  · cases h

theorem restsOn_exposureEntries (own : Registered es node.name)
    (within : exposureEntries wellKnown node ⊆ es) (h : e ∈ exposureEntries wellKnown node) :
    e.RestsOn es := by
  simp only [exposureEntries, List.append_subset, List.mem_append] at within h
  obtain ⟨⟨⟨listed, declared⟩, primary⟩, constructors⟩ := within
  rcases h with ((h | h) | h) | h
  · exact restsOn_listedEntries own listed h
  · exact restsOn_declaredEntries own declared h
  · exact restsOn_primaryEntries own primary h
  · exact restsOn_constructorEntries own listed constructors h

theorem IsPlain.restsOn (h : IsPlain node e) (es : List Entry) : e.RestsOn es := by
  cases h with
  | use h => exact h.restsOn es
  | relation kind h =>
    simp only [relationPlan, List.mem_cons, List.not_mem_nil, or_false] at h
    rcases h with rfl | rfl | rfl | rfl <;> trivial
  | extend | unknown => trivial

theorem restsOn_entries (own : TakesName node → Registered es node.name)
    (within : (definitionPlan wellKnown node).entries ⊆ es)
    (h : e ∈ (definitionPlan wellKnown node).entries) : e.RestsOn es := by
  rcases mem_entries h with plain | ⟨exposed, h⟩
  · exact plain.restsOn es
  · exact restsOn_exposureEntries (own exposed.takesName)
      (List.Subset.trans (exposureEntries_subset exposed) within) h

/-! ### Findings of definitions -/

theorem closed_effect (wellKnown : List String) (earlier : List Node) (node : Node) :
    Closed (effect wellKnown earlier node) := by
  unfold effect
  split_ifs with takes taken
  · intro e he
    rw [List.mem_singleton.mp he]
    trivial
  · intro e he
    rcases List.mem_cons.mp he with rfl | he
    · trivial
    · exact restsOn_entries (fun _ => ⟨_, _, List.mem_cons_self⟩) (List.subset_cons_self _ _) he
  · exact fun e he => restsOn_entries (fun h => absurd h takes) (List.Subset.refl _) he

/-- What definitions enter needs nothing else. -/
theorem closed_history (wellKnown : List String) (earlier definitions : List Node) :
    Closed (history wellKnown earlier definitions) := by
  induction definitions generalizing earlier with
  | nil => exact fun e he => by cases he
  | cons node rest ih => exact (closed_effect wellKnown earlier node).append (ih _)

/-! ### Tables of closed findings -/

theorem Entry.mem_declaring {context interface : String} {e : Entry} :
    interface ∈ e.declaring context ↔ e = .declareGlobal context interface := by
  cases e with
  | declareGlobal c i => by_cases same : context = c <;> simp [declaring, same, eq_comm]
  | _ => simp [declaring]

theorem Entry.mem_listing {context interface : String} {e : Entry} :
    interface ∈ e.listing context ↔ e = .listExposed context interface := by
  cases e with
  | listExposed c i => by_cases same : context = c <;> simp [listing, same, eq_comm]
  | _ => simp [listing]

/-- The names that are visible in each context. -/
def ExposureMap.entries (m : ExposureMap) : Bucket → Table String (List String)
  | .constructors => m.constructors
  | .functions => m.functions
  | .objects => m.objects

namespace Ledger

section

variable {context name : String}

theorem mem_globals_ofEntries :
    name ∈ ((ofEntries es).globals.get? context).getD [] ↔ .declareGlobal context name ∈ es := by
  simp [(globals_ofEntries es).mem_getD_iff, Entry.mem_declaring]

theorem mem_globals_keys_ofEntries :
    context ∈ (ofEntries es).globals.keys ↔ ∃ interface, .declareGlobal context interface ∈ es := by
  simp [(globals_ofEntries es).mem_keys_iff, Entry.mem_declaring]

theorem mem_exposed_ofEntries :
    name ∈ ((ofEntries es).exposed.get? context).getD [] ↔ .listExposed context name ∈ es := by
  simp [(exposed_ofEntries es).mem_getD_iff, Entry.mem_listing]

theorem mem_exposed_keys_ofEntries :
    context ∈ (ofEntries es).exposed.keys ↔ ∃ interface, .listExposed context interface ∈ es := by
  simp [(exposed_ofEntries es).mem_keys_iff, Entry.mem_listing]

/-- What is visible in a context, where `primary` is the primary global. -/
def exposedIn (es : List Entry) (primary : String) (bucket : Bucket) (context : String) :
    List String :=
  es.flatMap (Entry.exposing bucket (some context)) ++
    if context = primary then es.flatMap (Entry.exposing bucket none) else []

theorem mem_exposedIn {primary : String} {bucket : Bucket} :
    name ∈ exposedIn es primary bucket context ↔ ∃ contexts, .expose bucket contexts name ∈ es ∧
      (some context ∈ contexts ∨ context = primary ∧ none ∈ contexts) := by
  have named (c : Context) : name ∈ es.flatMap (Entry.exposing bucket c) ↔
      ∃ contexts, .expose bucket contexts name ∈ es ∧ c ∈ contexts := by
    simp only [List.mem_flatMap, Entry.mem_exposing]
    constructor
    · rintro ⟨_, h, contexts, rfl, hc⟩
      exact ⟨contexts, h, hc⟩
    · rintro ⟨contexts, h, hc⟩
      exact ⟨_, h, contexts, rfl, hc⟩
  rw [exposedIn, List.mem_append, named]
  split_ifs with same
  · rw [named, ← exists_or]
    simp [same, and_or_left]
  · simp [same]

/-- What an exposure map holds. -/
theorem freeze_ofEntries (es : List Entry) (defaultGlobal : String) (bucket : Bucket) :
    (((ofEntries es).exposure.freeze defaultGlobal).entries bucket).Collects
      (exposedIn es ((ofEntries es).exposure.primary defaultGlobal) bucket) := by
  have held := Exposure.get?_freezeEntries (exposure_ofEntries bucket es)
    ((ofEntries es).exposure.primary defaultGlobal)
  cases bucket <;> exact held

end

end Ledger

/-! ### Reports -/

/-- A name is declared by definitions: one that counts takes the name, or introduces it by one of
its attributes. -/
def Declares (definitions : List Node) (name : String) : Prop :=
  ∃ node, Counts definitions node ∧
    (TakesName node ∧ node.name = name ∨ ∃ target, (name, target) ∈ introduced node)

theorem declares_of_mem_names {name : String} {definitions : List Node}
    (h : name ∈ (Ledger.ofEntries (history wellKnown [] definitions)).names.keys) :
    Declares definitions name := by
  obtain ⟨target, isAlias, h⟩ := Ledger.mem_names_ofEntries.mp h
  cases isAlias with
  | false =>
    obtain ⟨node, counts, takes, rfl, -⟩ := register_mem_history.mp h
    exact ⟨node, counts, .inl ⟨takes, rfl⟩⟩
  | true =>
    obtain ⟨node, counts, h⟩ := (mem_history_iff (by simp) (by simp)).mp h
    refine ⟨node, counts, .inr ⟨target, ?_⟩⟩
    have introduces : registrations true (definitionPlan wellKnown node).entries =
        introduced node := registrations_entries
    exact introduces ▸ List.mem_filterMap.mpr ⟨_, h, rfl⟩

/-- The names that a report refers to where it tells what is visible are names that it has. -/
structure Report.Resolves (definitions : List Node) (report : Report) : Prop where
  visible : ∀ bucket context, ∀ name ∈ ((report.exposure.entries bucket).get? context).getD [],
    name ∈ report.names.keys
  /-- What is visible in a context is so because something lists the context, or because it is the
  primary global. -/
  contexts : ∀ bucket, ∀ context ∈ (report.exposure.entries bucket).keys,
    context ∈ report.exposed.keys ∨ context = report.primaryGlobal
  objects : report.exposure.objects = ∅
  globals : ∀ context ∈ report.globals.keys, context ∈ report.names.keys
  declaring : ∀ context, ∀ interface ∈ (report.globals.get? context).getD [],
    interface ∈ report.names.keys
  /-- A context that is listed is a name or external, unless it stands for all contexts. -/
  exposed : ∀ context ∈ report.exposed.keys, context ≠ "*" →
    context ∈ report.names.keys ∨ context ∈ report.externalDependencies
  listing : ∀ context, ∀ interface ∈ (report.exposed.get? context).getD [],
    interface ∈ report.names.keys
  names : ∀ name ∈ report.names.keys, Declares definitions name

/-- The report on definitions resolves the names that it refers to where it tells what is visible:
no exposure, context or alias is left without the definition that it comes from. -/
theorem resolves_of_analyzeDefinitions {settings : Settings} {definitions : List Node}
    {hasObsoleteIdl : Bool} {report : Report}
    (h : analyzeDefinitions settings definitions hasObsoleteIdl = .ok report) :
    report.Resolves definitions := by
  obtain ⟨-, rfl⟩ := analyzeDefinitions_eq_ok_iff.mp h
  have closed := closed_history settings.wellKnown [] definitions
  have named {es : List Entry} {name : String} (h : Registered es name) :
      name ∈ (Ledger.ofEntries es).names.keys :=
    Ledger.mem_names_ofEntries.mpr h
  have frozen := Ledger.freeze_ofEntries (history settings.wellKnown [] definitions)
    settings.defaultGlobal
  constructor
  case visible =>
    intro bucket context name h
    obtain ⟨contexts, h, -⟩ := Ledger.mem_exposedIn.mp ((frozen bucket).mem_getD_iff.mp h)
    exact named (closed _ h).2.1
  case contexts =>
    intro bucket context h
    obtain ⟨name, h⟩ := (frozen bucket).mem_keys_iff.mp h
    obtain ⟨contexts, h, listed | ⟨primary, -⟩⟩ := Ledger.mem_exposedIn.mp h
    · exact .inl (Ledger.mem_exposed_keys_ofEntries.mpr ((closed _ h).2.2 context listed))
    · exact .inr primary
  case objects =>
    refine Table.eq_empty_of_keys fun context h => ?_
    obtain ⟨name, h⟩ := (frozen .objects).mem_keys_iff.mp h
    obtain ⟨contexts, h, -⟩ := Ledger.mem_exposedIn.mp h
    exact (closed _ h).1 rfl
  case globals =>
    intro context h
    obtain ⟨interface, h⟩ := Ledger.mem_globals_keys_ofEntries.mp h
    exact named (closed _ h).1
  case declaring =>
    intro context interface h
    exact named (closed _ (Ledger.mem_globals_ofEntries.mp h)).2
  case exposed =>
    intro context h specific
    obtain ⟨interface, h⟩ := Ledger.mem_exposed_keys_ofEntries.mp h
    have depends := (closed _ h).2.resolve_left specific
    refine or_iff_not_imp_left.mpr fun free => ?_
    exact Ledger.mem_externalDependencies.mpr
      ⟨Ledger.mem_referenced_ofEntries.mpr (.inr ⟨interface, depends⟩), free⟩
  case listing =>
    intro context interface h
    exact named (closed _ (Ledger.mem_exposed_ofEntries.mp h)).1
  case names => exact fun name h => declares_of_mem_names h

/-- The image lists a context that is not defined. The worker and its scope list none. -/
theorem resolves_of_analyzeDefinitions_image :
    ∃ report, analyzeDefinitions {} (imageNode :: workerDefinitions) = .ok report ∧
      report.exposed.get? "Window" = some ["HTMLImageElement"] ∧
      report.externalDependencies = ["Window"] ∧
      report.exposure.functions.get? "Window" = some ["WorkerGlobalScope", "Worker"] ∧
      report.Resolves (imageNode :: workerDefinitions) :=
  ⟨_, rfl, by decide, by decide, by decide, resolves_of_analyzeDefinitions rfl⟩

end WebSpec.Analysis
