import Mathlib.Tactic.Common
import WebSpec.Analysis.Ledger

/-!
# What findings leave in a ledger

A ledger that findings are entered in holds what it held before and what the findings say, and
nothing else. For each of its tables there is a lemma about a single entry, `…_record`, and by
`foldl_record_iff` one about many.

`Ledger.Sound` is what holds after any findings: every name that is taken has dependencies, and
every name that something depends on is noted as referred to. `Ledger.Warns` holds as long as no
finding is an error: the ledger's own diagnostics are warnings.
-/

namespace WebSpec

namespace Table

variable {κ β : Type} [DecidableEq κ]

theorem mem_keys_alter (t : Table κ β) (k k' : κ) (f : Option β → β) :
    k' ∈ (t.alter k f).keys ↔ k' = k ∨ k' ∈ t.keys :=
  t.mem_keys_insert k k' _

theorem get?_alter (t : Table κ β) (k k' : κ) (f : Option β → β) :
    (t.alter k f).get? k' = if k' = k then some (f (t.get? k)) else t.get? k' :=
  t.get?_insert k k' _

theorem contains_iff {t : Table κ β} {k : κ} : t.contains k = true ↔ k ∈ t.keys :=
  List.contains_iff_mem

theorem get?_eq_none_iff {t : Table κ β} {k : κ} : t.get? k = none ↔ k ∉ t.keys := by
  rw [get?, List.lookup_eq_none_iff, keys, List.mem_map, not_exists]
  refine forall_congr' fun p => ?_
  rw [not_and, bne_iff_ne, ne_comm]

theorem mem_keys_of_get? {t : Table κ β} {k : κ} {v : β} (h : t.get? k = some v) :
    k ∈ t.keys := by
  by_contra absent
  rw [get?_eq_none_iff.mpr absent] at h
  cases h

end Table

namespace Analysis

open Idl (Node)

namespace Ledger

/-! ### Entering several findings -/

theorem recordAll_cons {l : Ledger} {e : Entry} (h : e ≠ .abandon) (es : List Entry) :
    l.recordAll (e :: es) = (l.record e).recordAll es := by
  cases e <;> first | rfl | exact absurd rfl h

/-- Everything is entered, one entry after the other, unless an entry abandons what follows. -/
theorem recordAll_eq_iff {l l' : Ledger} {es : List Entry} :
    l.recordAll es = (l', true) ↔ .abandon ∉ es ∧ es.foldl record l = l' := by
  induction es generalizing l with
  | nil => simp [recordAll]
  | cons e es ih =>
    by_cases h : e = .abandon
    · simp [h, recordAll]
    · rw [recordAll_cons h, ih]
      simp [Ne.symm h]

/-- What each entry adds on its own, all of them add together. -/
theorem foldl_record_iff {P : Ledger → Prop} {Q : Entry → Prop}
    (step : ∀ l e, P (l.record e) ↔ P l ∨ Q e) (l : Ledger) (es : List Entry) :
    P (es.foldl record l) ↔ P l ∨ ∃ e ∈ es, Q e := by
  induction es generalizing l with
  | nil => simp
  | cons e es ih =>
    rw [List.foldl_cons, ih, step]
    simp [or_assoc]

/-! ### A single finding -/

/-- What a finding does to the tables of names and dependencies. -/
structure Recorded (l : Ledger) (e : Entry) (l' : Ledger) : Prop where
  names : l'.names =
    match e with
    | .register name target isAlias =>
      if l.isFree name isAlias then l.names.insert name target else l.names
    | _ => l.names
  aliases : l'.aliases =
    match e with
    | .register name _ isAlias =>
      if l.isFree name isAlias then
        if isAlias then l.aliases.insert name else l.aliases.erase name
      else l.aliases
    | _ => l.aliases
  dependencies : l'.dependencies =
    match e with
    | .register name _ isAlias =>
      if l.isFree name isAlias then l.dependencies.alter name (·.getD ∅) else l.dependencies
    | .depend owner name => l.dependencies.alter owner fun s => (s.getD ∅).insert name
    | _ => l.dependencies
  extendedNames : l'.extendedNames =
    match e with
    | .extend name node => l.extendedNames.alter name fun nodes => nodes.getD [] ++ [node]
    | _ => l.extendedNames
  referenced : l'.referenced =
    match e with
    | .reference name | .depend _ name => l.referenced.insert name
    | _ => l.referenced

theorem recorded (l : Ledger) (e : Entry) : Recorded l e (l.record e) := by
  cases e with
  | register name target isAlias =>
    by_cases h : l.isFree name isAlias
    · have hr : l.record (.register name target isAlias) = _ := congrArg Prod.fst (if_pos h)
      rw [hr]
      constructor <;> simp [h]
    · have hr : l.record (.register name target isAlias) = l ∨
          l.record (.register name target isAlias) = l.diagnose (duplicateName name) := by
        simp only [record, register, if_neg h]
        split_ifs <;> simp
      rcases hr with hr | hr <;> rw [hr] <;> constructor <;> simp [h, diagnose, remark]
  | declarePrimary primary interface =>
    simp only [record, declarePrimary]
    split
    · constructor <;> rfl
    · split_ifs <;> constructor <;> rfl
  | use name =>
    simp only [record]
    split_ifs <;> constructor <;> rfl
  | _ => constructor <;> rfl

/-- A name that cannot be registered is taken. -/
theorem mem_names_of_not_free {l : Ledger} {name : String} {isAlias : Bool}
    (h : ¬ l.isFree name isAlias) : name ∈ l.names.keys := by
  rw [← Table.contains_iff]
  by_contra hc
  exact h (by simp [isFree, hc])

theorem mem_names_record (n : String) (l : Ledger) (e : Entry) :
    n ∈ (l.record e).names.keys ↔
      n ∈ l.names.keys ∨ ∃ target isAlias, e = .register n target isAlias := by
  rw [(recorded l e).names]
  cases e with
  | register name target isAlias =>
    by_cases h : l.isFree name isAlias
    · simp [h, Table.mem_keys_insert, or_comm, eq_comm]
    · have hk := mem_names_of_not_free h
      simp only [h]
      constructor
      · exact .inl
      · rintro (hn | ⟨_, _, ⟨⟩⟩)
        · exact hn
        · exact hk
  | _ => simp

theorem mem_extendedNames_record (n : String) (l : Ledger) (e : Entry) :
    n ∈ (l.record e).extendedNames.keys ↔
      n ∈ l.extendedNames.keys ∨ ∃ node, e = .extend n node := by
  rw [(recorded l e).extendedNames]
  cases e with
  | extend name node => simp [Table.mem_keys_alter, or_comm, eq_comm]
  | _ => simp

theorem mem_referenced_record (n : String) (l : Ledger) (e : Entry) :
    n ∈ (l.record e).referenced ↔
      n ∈ l.referenced ∨ e = .reference n ∨ ∃ owner, e = .depend owner n := by
  rw [(recorded l e).referenced]
  cases e with
  | reference name | depend owner name => simp [NameSet.mem_insert, or_comm, eq_comm]
  | _ => simp

/-- A name depends on another one if a finding says so. -/
theorem mem_dependencies_record (n d : String) (l : Ledger) (e : Entry) :
    d ∈ ((l.record e).dependencies.get? n).getD ∅ ↔
      d ∈ (l.dependencies.get? n).getD ∅ ∨ e = .depend n d := by
  rw [(recorded l e).dependencies]
  cases e with
  | register name target isAlias =>
    by_cases h : l.isFree name isAlias
    · by_cases hn : n = name <;> simp [h, Table.get?_alter, hn]
    · simp [h]
  | depend owner name =>
    by_cases hn : n = owner
    · simp [Table.get?_alter, hn, NameSet.mem_insert, or_comm, eq_comm]
    · simp [Table.get?_alter, hn, Ne.symm hn]
  | _ => simp

/-- The names with dependencies are those that are taken or that a finding gives some. -/
theorem mem_dependencies_keys_record (n : String) (l : Ledger) (e : Entry) :
    n ∈ (l.record e).dependencies.keys ∨ n ∈ (l.record e).names.keys ↔
      (n ∈ l.dependencies.keys ∨ n ∈ l.names.keys) ∨
        (∃ target isAlias, e = .register n target isAlias) ∨ ∃ d, e = .depend n d := by
  rw [mem_names_record, (recorded l e).dependencies]
  cases e with
  | register name target isAlias =>
    by_cases h : l.isFree name isAlias <;>
      simp [h, Table.mem_keys_alter] <;> tauto
  | depend owner name =>
    simp [Table.mem_keys_alter]
    tauto
  | _ => simp

/-! ### Many findings -/

/-- What holds of every ledger that findings are entered in from the start. -/
structure Sound (l : Ledger) : Prop where
  /-- Every name that is taken has dependencies, if only an empty set. -/
  names_have_dependencies : ∀ n ∈ l.names.keys, n ∈ l.dependencies.keys
  /-- What something depends on is referred to. -/
  dependencies_referenced : ∀ n d, d ∈ (l.dependencies.get? n).getD ∅ → d ∈ l.referenced

theorem sound_empty : Sound {} :=
  ⟨by simp, fun n d hd => absurd hd (NameSet.not_mem_empty d)⟩

theorem Sound.record {l : Ledger} (h : l.Sound) (e : Entry) : (l.record e).Sound := by
  constructor
  · intro n hn
    rw [(recorded l e).names] at hn
    rw [(recorded l e).dependencies]
    cases e with
    | register name target isAlias =>
      by_cases hf : l.isFree name isAlias
      · simp only [hf, if_true, Table.mem_keys_insert] at hn
        simp only [hf, if_true, Table.mem_keys_alter]
        exact hn.imp id (h.names_have_dependencies n)
      · simp only [hf] at hn ⊢
        exact h.names_have_dependencies n hn
    | depend owner name =>
      rw [Table.mem_keys_alter]
      exact .inr (h.names_have_dependencies n hn)
    | _ => exact h.names_have_dependencies n hn
  · intro n d hd
    rw [mem_referenced_record]
    rcases (mem_dependencies_record n d l e).mp hd with hd | rfl
    · exact .inl (h.dependencies_referenced n d hd)
    · exact .inr (.inr ⟨n, rfl⟩)

theorem Sound.foldl {l : Ledger} (h : l.Sound) (es : List Entry) :
    (es.foldl Ledger.record l).Sound := by
  induction es generalizing l with
  | nil => exact h
  | cons e es ih => exact ih (h.record e)

theorem mem_diagnostics {l : Ledger} {d : Diagnostic} :
    d ∈ l.diagnostics ↔ .diagnostic d ∈ l.remarks := by
  simp only [diagnostics, List.mem_filterMap]
  constructor
  · rintro ⟨remark, hr, h⟩
    cases remark with
    | diagnostic found => exact Option.some.inj h ▸ hr
    | namelessConstructor => cases h
  · exact fun h => ⟨_, h, rfl⟩

/-- All diagnostics so far are warnings. -/
def Warns (l : Ledger) : Prop :=
  ∀ d, .diagnostic d ∈ l.remarks → d.severity = .warning

theorem Warns.remark {l : Ledger} (h : l.Warns) {r : Remark}
    (hr : ∀ d, r = .diagnostic d → d.severity = .warning) : (l.remark r).Warns := by
  intro d hd
  rcases List.mem_append.mp hd with hd | hd
  · exact h d hd
  · exact hr d (List.mem_singleton.mp hd).symm

theorem Warns.diagnose {l : Ledger} (h : l.Warns) {d : Diagnostic} (hd : d.severity = .warning) :
    (l.diagnose d).Warns :=
  h.remark fun _ hr => Remark.diagnostic.inj hr ▸ hd

theorem Warns.record {l : Ledger} (h : l.Warns) {e : Entry}
    (he : ∀ d, e = .remark (.diagnostic d) → d.severity = .warning) : (l.record e).Warns := by
  cases e with
  | register name target isAlias =>
    simp only [Ledger.record, register]
    split_ifs
    · exact h
    · exact h
    · exact h
    · exact h.diagnose rfl
  | declarePrimary primary interface =>
    simp only [Ledger.record, declarePrimary]
    split
    · exact h
    · split_ifs
      · exact h
      · exact h.diagnose rfl
  | use name =>
    simp only [Ledger.record]
    split_ifs <;> exact h
  | remark r => exact h.remark (by rintro d rfl; exact he d rfl)
  | _ => exact h

theorem Warns.foldl {l : Ledger} (h : l.Warns) {es : List Entry}
    (he : ∀ d, .remark (.diagnostic d) ∈ es → d.severity = .warning) :
    (es.foldl Ledger.record l).Warns := by
  induction es generalizing l with
  | nil => exact h
  | cons e es ih =>
    refine ih (h.record fun d hd => he d ?_) fun d hd => he d (List.mem_cons_of_mem e hd)
    rw [hd]
    exact List.mem_cons_self

theorem mem_externalDependencies {l : Ledger} {n : String} :
    n ∈ l.externalDependencies ↔ n ∈ l.referenced ∧ n ∉ l.names.keys := by
  rw [externalDependencies, List.mem_filter, Bool.not_eq_true', ← Bool.not_eq_true,
    Table.contains_iff]
  rfl

/-! ### From an empty ledger -/

/-- The ledger of some findings. -/
def ofEntries (es : List Entry) : Ledger :=
  es.foldl record {}

section OfEntries

variable {es : List Entry} {n d : String}

theorem sound_ofEntries (es : List Entry) : (ofEntries es).Sound :=
  sound_empty.foldl es

theorem mem_names_ofEntries :
    n ∈ (ofEntries es).names.keys ↔ ∃ target isAlias, .register n target isAlias ∈ es := by
  have h := foldl_record_iff (P := fun l => n ∈ l.names.keys) (mem_names_record n) {} es
  rw [ofEntries, h]
  simp only [Table.keys_empty, List.not_mem_nil, false_or]
  exact ⟨fun ⟨_, he, t, a, ht⟩ => ⟨t, a, ht ▸ he⟩, fun ⟨t, a, he⟩ => ⟨_, he, t, a, rfl⟩⟩

theorem mem_extendedNames_ofEntries :
    n ∈ (ofEntries es).extendedNames.keys ↔ ∃ node, .extend n node ∈ es := by
  have h := foldl_record_iff (P := fun l => n ∈ l.extendedNames.keys) (mem_extendedNames_record n)
    {} es
  rw [ofEntries, h]
  simp only [Table.keys_empty, List.not_mem_nil, false_or]
  exact ⟨fun ⟨_, he, node, hn⟩ => ⟨node, hn ▸ he⟩, fun ⟨node, he⟩ => ⟨_, he, node, rfl⟩⟩

theorem mem_referenced_ofEntries :
    n ∈ (ofEntries es).referenced ↔ .reference n ∈ es ∨ ∃ owner, .depend owner n ∈ es := by
  have h := foldl_record_iff (P := fun l => n ∈ l.referenced) (mem_referenced_record n) {} es
  rw [ofEntries, h]
  constructor
  · rintro (he | ⟨_, he, rfl | ⟨owner, rfl⟩⟩)
    · exact absurd he (NameSet.not_mem_empty n)
    · exact .inl he
    · exact .inr ⟨owner, he⟩
  · rintro (he | ⟨owner, he⟩)
    · exact .inr ⟨_, he, .inl rfl⟩
    · exact .inr ⟨_, he, .inr ⟨owner, rfl⟩⟩

theorem mem_dependencies_ofEntries :
    d ∈ ((ofEntries es).dependencies.get? n).getD ∅ ↔ .depend n d ∈ es := by
  have h := foldl_record_iff (P := fun l => d ∈ (l.dependencies.get? n).getD ∅)
    (mem_dependencies_record n d) {} es
  rw [ofEntries, h]
  constructor
  · rintro (hd | ⟨_, he, rfl⟩)
    · exact absurd hd (NameSet.not_mem_empty d)
    · exact he
  · exact fun he => .inr ⟨_, he, rfl⟩

theorem mem_dependencies_keys_ofEntries :
    n ∈ (ofEntries es).dependencies.keys ↔
      n ∈ (ofEntries es).names.keys ∨ ∃ d, .depend n d ∈ es := by
  have h := foldl_record_iff (P := fun l => n ∈ l.dependencies.keys ∨ n ∈ l.names.keys)
    (mem_dependencies_keys_record n) {} es
  have hs := (sound_ofEntries es).names_have_dependencies n
  rw [← ofEntries] at h
  constructor
  · intro hn
    rcases h.mp (.inl hn) with hn | ⟨_, he, ⟨t, a, rfl⟩ | ⟨d, rfl⟩⟩
    · simp at hn
    · exact .inl (mem_names_ofEntries.mpr ⟨t, a, he⟩)
    · exact .inr ⟨d, he⟩
  · rintro (hn | ⟨d, he⟩)
    · exact hs hn
    · exact (h.mpr (.inr ⟨_, he, .inr ⟨d, rfl⟩⟩)).elim id hs

end OfEntries

end Ledger

end Analysis

end WebSpec
