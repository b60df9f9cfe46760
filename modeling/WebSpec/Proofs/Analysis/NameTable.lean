import WebSpec.Analysis.Session
import WebSpec.Proofs.Analysis.History

/-!
# The table of names while work goes on

What holds of the table of names along any sequence of operations on a ledger, in any order and with
any arguments, also where some of them are cut short.

`Ledger.Tidy` is what holds of a ledger at any time; the report on it is consistent. `Ledger.Grows`
relates a ledger to a later one: keys keep their places and new ones come behind them, what a
definition has taken stays, and an alias stays until a definition takes its name. Both are shown for
a single entry, for an operation and, by induction, for a run of operations.
-/

namespace WebSpec

namespace Analysis

/-! ### What an operation enters -/

/-- The entries up to one that abandons the others. -/
def upToAbandon : List Entry → List Entry
  | [] => []
  | .abandon :: _ => []
  | entry :: rest => entry :: upToAbandon rest

/-- What an operation enters. -/
def Step.entries (wellKnown : List String) : Step → List Entry
  | .register name target isAlias => [.register name target isAlias]
  | .enter entry => upToAbandon [entry]
  | .setPrimary _ => []
  | .useType type owner => upToAbandon (type.toList.flatMap (typeEntries wellKnown owner))
  | .useArguments arguments owner => upToAbandon (argumentEntries wellKnown owner arguments)
  | .useMembers node owner => upToAbandon (memberEntries wellKnown owner node)
  | .useAttributes node => upToAbandon (exposureEntries wellKnown node)

namespace Ledger

/-- Does operations in order, each with its own well-known types. -/
def performAll (l : Ledger) (steps : List (List String × Step)) : Ledger :=
  steps.foldl (fun l step => (l.perform step.1 step.2).ledger) l

theorem recordAll_fst (l : Ledger) (es : List Entry) :
    (l.recordAll es).1 = (upToAbandon es).foldl record l := by
  induction es generalizing l with
  | nil => rfl
  | cons e es ih =>
    by_cases h : e = .abandon
    · subst h
      rfl
    · have kept : upToAbandon (e :: es) = e :: upToAbandon es := by
        cases e <;> first | rfl | exact absurd rfl h
      rw [recordAll_cons h, ih, kept, List.foldl_cons]

/-- An operation enters its entries, or sets the primary global. -/
theorem perform_ledger (wellKnown : List String) (l : Ledger) (step : Step) :
    (l.perform wellKnown step).ledger = (step.entries wellKnown).foldl record l ∨
      step.entries wellKnown = [] ∧
        ∃ name, (l.perform wellKnown step).ledger =
          { l with exposure := { l.exposure with primaryGlobal := name } } := by
  cases step with
  | register name target isAlias => exact .inl rfl
  | setPrimary name => exact .inr ⟨rfl, name, rfl⟩
  | enter | useType | useArguments | useMembers | useAttributes =>
    exact .inl (recordAll_fst _ _)

/-! ### Ledgers at any time -/

/-- What holds of a ledger at any time. -/
structure Tidy (l : Ledger) : Prop extends l.Sound where
  /-- An alias is a name that is taken. -/
  aliases_taken : ∀ n ∈ l.aliases, n ∈ l.names.keys

theorem tidy_empty : Tidy {} :=
  ⟨sound_empty, fun n hn => absurd hn (NameSet.not_mem_empty n)⟩

theorem Tidy.record {l : Ledger} (h : l.Tidy) (e : Entry) : (l.record e).Tidy := by
  refine ⟨h.toSound.record e, fun n hn => ?_⟩
  rw [(recorded l e).aliases] at hn
  rw [(recorded l e).names]
  cases e with
  | register name target isAlias =>
    by_cases free : l.isFree name isAlias
    · simp only [free, if_true] at hn ⊢
      rw [Table.mem_keys_insert]
      cases isAlias with
      | true => exact (NameSet.mem_insert.mp hn).imp_right (h.aliases_taken n)
      | false => exact .inr (h.aliases_taken n (NameSet.mem_erase.mp hn).2)
    · simp only [free] at hn ⊢
      exact h.aliases_taken n hn
  | _ => exact h.aliases_taken n hn

/-! ### Ledgers and later ones -/

/-- What becomes of the names of a ledger while entries are made. -/
structure Grows (entries : List Entry) (l later : Ledger) : Prop where
  /-- The keys keep their places. -/
  keys : l.names.keys <+: later.names.keys
  /-- What a definition has taken stays. -/
  definitions : ∀ n ∈ l.names.keys, n ∉ l.aliases →
    n ∉ later.aliases ∧ later.names.get? n = l.names.get? n
  /-- An alias stays until it gives way to a definition. -/
  aliases : ∀ n ∈ l.aliases,
    n ∈ later.aliases ∧ later.names.get? n = l.names.get? n ∨
      n ∉ later.aliases ∧
        ∃ target, .register n target false ∈ entries ∧ later.names.get? n = some target

/-- Nothing becomes of names that are left alone. -/
theorem grows_of_eq {l later : Ledger} (names : later.names = l.names)
    (aliases : later.aliases = l.aliases) (entries : List Entry) : Grows entries l later where
  keys := names ▸ List.prefix_rfl
  definitions n _ hn := ⟨aliases ▸ hn, by rw [names]⟩
  aliases n hn := .inl ⟨aliases ▸ hn, by rw [names]⟩

theorem Grows.trans {es es' : List Entry} {l₁ l₂ l₃ : Ledger} (h : Grows es l₁ l₂)
    (h' : Grows es' l₂ l₃) : Grows (es ++ es') l₁ l₃ where
  keys := h.keys.trans h'.keys
  definitions n taken real := by
    obtain ⟨real', same⟩ := h.definitions n taken real
    obtain ⟨real'', same'⟩ := h'.definitions n (h.keys.subset taken) real'
    exact ⟨real'', same'.trans same⟩
  aliases n hn := by
    rcases h.aliases n hn with ⟨hn', same⟩ | ⟨real, target, mem, found⟩
    · rcases h'.aliases n hn' with ⟨hn'', same'⟩ | ⟨real, target, mem, found⟩
      · exact .inl ⟨hn'', same'.trans same⟩
      · exact .inr ⟨real, target, List.mem_append_right es mem, found⟩
    · obtain ⟨real', same⟩ := h'.definitions n (Table.mem_keys_of_get? found) real
      exact .inr ⟨real', target, List.mem_append_left es' mem, same.trans found⟩

/-- A free name that is taken is one of an alias, and a definition takes it. -/
theorem alias_of_free {l : Ledger} {n : String} {isAlias : Bool} (free : l.isFree n isAlias)
    (taken : n ∈ l.names.keys) : isAlias = false ∧ n ∈ l.aliases := by
  cases isAlias with
  | true => exact absurd taken (isFree_alias_iff.mp free)
  | false => exact ⟨rfl, isFree_iff.mp free taken⟩

theorem Tidy.grows_record {l : Ledger} (h : l.Tidy) (e : Entry) : Grows [e] l (l.record e) := by
  obtain ⟨names, aliases, -, -, -⟩ := recorded l e
  cases e with
  | register name target isAlias =>
    by_cases free : l.isFree name isAlias
    · simp only [free, if_true] at names aliases
      constructor
      · rw [names, Table.keys_insert]
        split_ifs
        · exact List.prefix_rfl
        · exact List.prefix_append _ _
      · intro n taken real
        have other : n ≠ name := by
          rintro rfl
          exact real (alias_of_free free taken).2
        rw [names, aliases, Table.get?_insert, if_neg other]
        cases isAlias with
        | true => simp [NameSet.mem_insert, other, real]
        | false => simp [NameSet.mem_erase, real]
      · intro n hn
        by_cases same : n = name
        · subst same
          obtain ⟨rfl, -⟩ := alias_of_free free (h.aliases_taken n hn)
          right
          simp [names, aliases, Table.get?_insert, NameSet.mem_erase]
        · left
          rw [names, aliases, Table.get?_insert, if_neg same]
          cases isAlias with
          | true => simp [NameSet.mem_insert, hn]
          | false => simp [NameSet.mem_erase, same, hn]
    · simp only [free] at names aliases
      exact grows_of_eq names aliases _
  | _ => exact grows_of_eq names aliases _

/-! ### Runs -/

theorem Tidy.foldl_record {l : Ledger} (h : l.Tidy) (es : List Entry) :
    (es.foldl Ledger.record l).Tidy ∧ Grows es l (es.foldl Ledger.record l) := by
  induction es generalizing l with
  | nil => exact ⟨h, grows_of_eq rfl rfl _⟩
  | cons e es ih =>
    obtain ⟨tidy, grows⟩ := ih (Tidy.record h e)
    exact ⟨tidy, (h.grows_record e).trans grows⟩

theorem Tidy.perform {l : Ledger} (h : l.Tidy) (wellKnown : List String) (step : Step) :
    (l.perform wellKnown step).ledger.Tidy ∧
      Grows (step.entries wellKnown) l (l.perform wellKnown step).ledger := by
  rcases perform_ledger wellKnown l step with same | ⟨-, name, same⟩
  · rw [same]
    exact h.foldl_record _
  · rw [same]
    refine ⟨⟨⟨h.names_have_dependencies, h.dependencies_referenced⟩, h.aliases_taken⟩, ?_⟩
    apply grows_of_eq <;> rfl

theorem Tidy.performAll {l : Ledger} (h : l.Tidy) (steps : List (List String × Step)) :
    (l.performAll steps).Tidy ∧
      Grows (steps.flatMap fun step => step.2.entries step.1) l (l.performAll steps) := by
  induction steps generalizing l with
  | nil => exact ⟨h, grows_of_eq rfl rfl _⟩
  | cons step steps ih =>
    obtain ⟨tidy, grows⟩ := h.perform step.1 step.2
    obtain ⟨tidy', grows'⟩ := ih tidy
    exact ⟨tidy', grows.trans grows'⟩

theorem performAll_append (l : Ledger) (steps later : List (List String × Step)) :
    l.performAll (steps ++ later) = (l.performAll steps).performAll later :=
  List.foldl_append

/-! ### Reports -/

/-- What holds of the report on a ledger at any time. -/
structure Agrees (l : Ledger) (report : Report) : Prop where
  aliases_taken : ∀ n ∈ l.aliases, n ∈ report.names.keys
  external_not_taken : ∀ n ∈ report.externalDependencies, n ∉ report.names.keys
  external_nodup : report.externalDependencies.Nodup
  names_have_dependencies : ∀ n ∈ report.names.keys, n ∈ report.dependencies.keys
  dependencies_known : ∀ owner names, report.dependencies.get? owner = some names →
    ∀ n ∈ names, n ∈ report.names.keys ∨ n ∈ report.externalDependencies

theorem Tidy.agrees_report {l : Ledger} (h : l.Tidy) (defaultGlobal : String)
    (hasObsoleteIdl : Bool) : Agrees l (l.report defaultGlobal hasObsoleteIdl) where
  aliases_taken := h.aliases_taken
  external_not_taken _ hn := (mem_externalDependencies.mp hn).2
  external_nodup := l.referenced.nodup.filter _
  names_have_dependencies := h.names_have_dependencies
  dependencies_known owner names found n hn := by
    by_cases taken : n ∈ l.names.keys
    · exact .inl taken
    · refine .inr (mem_externalDependencies.mpr ⟨h.dependencies_referenced owner n ?_, taken⟩)
      rwa [show l.dependencies.get? owner = some names from found]

/-! ### Registrations -/

/-- What registering a name does and says. -/
structure Registers (l : Ledger) (name : String) (target : NameTarget) (isAlias : Bool) :
    Prop where
  /-- It succeeds if the name is not taken, or a definition takes it from an alias. -/
  succeeds_iff : (l.register name target isAlias).2 = true ↔
    name ∉ l.names.keys ∨ name ∈ l.aliases ∧ isAlias = false
  /-- Then the name stands for the target. -/
  taken : (l.register name target isAlias).2 = true →
    (l.register name target isAlias).1.names.get? name = some target ∧
      (name ∈ (l.register name target isAlias).1.aliases ↔ isAlias = true)
  /-- Otherwise all names stand for what they did. -/
  kept : (l.register name target isAlias).2 = false →
    (l.register name target isAlias).1.names = l.names ∧
      (l.register name target isAlias).1.aliases = l.aliases
  /-- A diagnostic tells of a definition that came too late, and of nothing else. -/
  diagnostics : (l.register name target isAlias).1.diagnostics = l.diagnostics ++
    if (l.register name target isAlias).2 = false ∧ isAlias = false then [duplicateName name]
    else []

theorem isFree_iff_or {l : Ledger} {name : String} {isAlias : Bool} :
    l.isFree name isAlias = true ↔ name ∉ l.names.keys ∨ name ∈ l.aliases ∧ isAlias = false := by
  simp [isFree, ← Table.contains_iff]

theorem register_snd (l : Ledger) (name : String) (target : NameTarget) (isAlias : Bool) :
    (l.register name target isAlias).2 = l.isFree name isAlias := by
  by_cases free : l.isFree name isAlias
  · simp [register, free]
  · cases isAlias <;> simp [register, free]

theorem registers (l : Ledger) (name : String) (target : NameTarget) (isAlias : Bool) :
    Registers l name target isAlias := by
  constructor <;> rw [register_snd]
  · exact isFree_iff_or
  · intro free
    rw [register, if_pos free]
    cases isAlias <;> simp [Table.get?_insert, NameSet.mem_insert, NameSet.mem_erase]
  · intro taken
    cases isAlias <;> simp [register, taken, diagnose, remark]
  · cases free : l.isFree name isAlias <;> cases isAlias <;>
      simp [register, free, Ledger.diagnostics, diagnose, remark]

end Ledger

open Ledger

/-- Whatever is done in whatever order, each report agrees with itself, keys keep their places, what
a definition has taken stays, an alias changes at most once and then for good, to a definition, and
a registration says whether it succeeded. -/
theorem performAll_names (steps middle later : List (List String × Step)) (defaultGlobal : String)
    (hasObsoleteIdl : Bool) :
    Agrees (performAll {} steps) ((performAll {} steps).report defaultGlobal hasObsoleteIdl) ∧
      Grows (middle.flatMap fun step => step.2.entries step.1) (performAll {} steps)
        (performAll {} (steps ++ middle)) ∧
      (∀ n ∈ (performAll {} steps).names.keys,
        (performAll {} (steps ++ middle)).names.get? n ≠ (performAll {} steps).names.get? n →
          n ∈ (performAll {} steps).aliases ∧
            n ∉ (performAll {} (steps ++ middle ++ later)).aliases ∧
            (performAll {} (steps ++ middle ++ later)).names.get? n =
              (performAll {} (steps ++ middle)).names.get? n) ∧
      ∀ name target isAlias, Registers (performAll {} steps) name target isAlias := by
  obtain ⟨tidy, -⟩ := tidy_empty.performAll steps
  obtain ⟨tidy', grows⟩ := tidy.performAll middle
  obtain ⟨-, grows'⟩ := tidy'.performAll later
  simp only [performAll_append]
  refine ⟨tidy.agrees_report _ _, grows, fun n taken changed => ?_, registers _⟩
  have isAlias : n ∈ (performAll {} steps).aliases := by
    by_contra real
    exact changed (grows.definitions n taken real).2
  obtain ⟨real, -⟩ := (grows.aliases n isAlias).resolve_left fun h => changed h.2
  exact ⟨isAlias, grows'.definitions n (grows.keys.subset taken) real⟩

end Analysis

end WebSpec
