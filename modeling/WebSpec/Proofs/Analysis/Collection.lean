import WebSpec.Proofs.Analysis.Record

/-!
# What tables of lists hold

Partial definitions, declared contexts, listed contexts and visible names are kept in tables of
lists, to which findings add one member at a time. `Collects` says that such a table holds, under
each key, a given list, and has no key for an empty one. For a ledger of findings the list is what
the single findings have for the key, in order.

`Exposure.get?_freezeEntries` says the same of the exposure map: what is visible in the primary
global is what names it, and then what names no context.
-/

namespace WebSpec

/-- A list, unless it is empty. -/
def nonempty? {β : Type} : List β → Option (List β)
  | [] => none
  | xs => some xs

theorem nonempty?_eq_some {β : Type} {xs : List β} (h : xs ≠ []) : nonempty? xs = some xs := by
  cases xs with
  | nil => exact absurd rfl h
  | cons => rfl

theorem getD_nonempty? {β : Type} (xs : List β) : (nonempty? xs).getD [] = xs := by
  cases xs <;> rfl

namespace Table

variable {κ β : Type} [DecidableEq κ]

theorem get?_cons (k : κ) (v : β) (rest : List (κ × β)) (nodup) (k' : κ) :
    get? ⟨(k, v) :: rest, nodup⟩ k' =
      if k' = k then some v else get? ⟨rest, (List.nodup_cons.mp nodup).2⟩ k' := by
  rw [get?, List.lookup_cons]
  by_cases same : k' = k
  · simp [same]
  · rw [beq_false_of_ne same, if_neg same]
    rfl

omit [DecidableEq κ] in
theorem eq_empty_of_keys {t : Table κ β} (h : ∀ k, k ∉ t.keys) : t = ∅ := by
  obtain ⟨entries, nodup⟩ := t
  obtain rfl : entries = [] := List.map_eq_nil_iff.mp (List.eq_nil_iff_forall_not_mem.mpr h)
  rfl

/-- A table of lists holds the given list under each key, and has no key for an empty one. -/
def Collects (t : Table κ (List β)) (f : κ → List β) : Prop :=
  ∀ k, t.get? k = nonempty? (f k)

theorem Collects.mem_getD_iff {t : Table κ (List β)} {f : κ → List β} (h : t.Collects f) {k : κ}
    {x : β} : x ∈ (t.get? k).getD [] ↔ x ∈ f k := by
  rw [h k, getD_nonempty?]

theorem Collects.mem_keys_iff {t : Table κ (List β)} {f : κ → List β} (h : t.Collects f) {k : κ} :
    k ∈ t.keys ↔ ∃ x, x ∈ f k := by
  rw [← not_iff_not, ← get?_eq_none_iff, h k]
  cases f k <;> simp [nonempty?]

theorem collects_empty : Collects (∅ : Table κ (List β)) fun _ => [] :=
  fun _ => rfl

/-- A member is added to the list of a key. -/
theorem Collects.push {t : Table κ (List β)} {f : κ → List β} (h : t.Collects f) (k : κ) (x : β) :
    (t.alter k fun xs => xs.getD [] ++ [x]).Collects fun k' =>
      f k' ++ if k' = k then [x] else [] := by
  intro k'
  simp only [get?_alter]
  by_cases same : k' = k
  · subst same
    rw [if_pos rfl, if_pos rfl, h, getD_nonempty?, nonempty?_eq_some (by simp)]
  · rw [if_neg same, if_neg same, h, List.append_nil]

/-- A member is added to the lists of several keys. -/
theorem Collects.pushAll {t : Table κ (List β)} {f : κ → List β} (h : t.Collects f)
    (ks : List κ) (x : β) :
    (ks.foldl (fun t k => t.alter k fun xs => xs.getD [] ++ [x]) t).Collects
      fun k' => f k' ++ ks.flatMap fun k => if k' = k then [x] else [] := by
  induction ks generalizing t f with
  | nil => simpa using h
  | cons k ks ih => simpa [List.append_assoc] using ih (h.push k x)

end Table

namespace Analysis

open Idl (Node)

/-! ### What single findings add -/

namespace Entry

/-- What a finding adds to a name. -/
def extending (name : String) : Entry → List Node
  | .extend n node => if name = n then [node] else []
  | _ => []

/-- The interface that a finding says declares a context. -/
def declaring (context : String) : Entry → List String
  | .declareGlobal c interface => if context = c then [interface] else []
  | _ => []

/-- The interface that a finding says lists a context. -/
def listing (context : String) : Entry → List String
  | .listExposed c interface => if context = c then [interface] else []
  | _ => []

/-- What a finding makes visible in a context, once for each time that it names the context. -/
def exposing (bucket : Bucket) (context : Context) : Entry → List String
  | .expose b contexts name =>
    if b = bucket then contexts.flatMap fun c => if context = c then [name] else []
    else []
  | _ => []

/-- The primary global that a finding declares. -/
def primary? : Entry → Option String
  | .declarePrimary primary _ => some primary
  | _ => none

/-- Whether a finding uses the window. -/
def usesWindow : Entry → Bool
  | .use name => windowNames.contains name
  | _ => false

end Entry

namespace Exposure

@[simp] theorem primaryGlobal_add (e : Exposure) (bucket : Bucket) (contexts : List Context)
    (name : String) : (e.add bucket contexts name).primaryGlobal = e.primaryGlobal := by
  cases bucket <;> rfl

theorem entries_add (e : Exposure) (bucket other : Bucket) (contexts : List Context)
    (name : String) :
    (e.add bucket contexts name).entries other =
      if bucket = other then contexts.foldl (fun t c => pushEntry t c name) (e.entries other)
      else e.entries other := by
  cases bucket <;> cases other <;> rfl

/-- The entries that name their context. -/
theorem get?_foldl_insert (c : String) (t : Table Context (List String)) :
    (t.entries.foldl (fun (frozen : Table String (List String)) (context, names) =>
        context.elim frozen fun c => frozen.insert c names) ∅).get? c = t.get? (some c) := by
  suffices ∀ frozen : Table String (List String),
      (t.entries.foldl (fun frozen (context, names) =>
        context.elim frozen fun c => frozen.insert c names) frozen).get? c =
          (t.get? (some c)).or (frozen.get? c) by simpa using this ∅
  obtain ⟨pairs, nodup⟩ := t
  induction pairs with
  | nil => exact fun _ => rfl
  | cons pair rest ih =>
    obtain ⟨context, names⟩ := pair
    intro frozen
    rw [List.foldl_cons, ih (List.nodup_cons.mp nodup).2, Table.get?_cons]
    cases context with
    | none => simp
    | some c' =>
      simp only [Option.elim_some, Table.get?_insert, Option.some.injEq]
      by_cases same : c = c'
      · subst same
        have absent : Table.get? ⟨rest, (List.nodup_cons.mp nodup).2⟩ (some c) = none :=
          Table.get?_eq_none_iff.mpr (List.nodup_cons.mp nodup).1
        simp [absent]
      · simp [same]

/-- In a context is visible what names it, and in the primary global also what names none. -/
theorem get?_freezeEntries {t : Table Context (List String)} {f : Context → List String}
    (h : t.Collects f) (primary c : String) :
    (freezeEntries primary t).get? c =
      nonempty? (f (some c) ++ if c = primary then f none else []) := by
  unfold freezeEntries
  rw [h none, getD_nonempty?]
  split
  · rename_i unnamed
    rw [get?_foldl_insert, unnamed, ite_self, List.append_nil, h]
  · rename_i pending present
    rw [Table.get?_alter]
    by_cases same : c = primary
    · subst same
      rw [if_pos rfl, if_pos rfl, get?_foldl_insert, h, getD_nonempty?,
        nonempty?_eq_some fun none => present (List.append_eq_nil_iff.mp none).2]
    · rw [if_neg same, if_neg same, List.append_nil, get?_foldl_insert, h]

end Exposure

namespace Ledger

/-- What a finding does to the tables of lists and to what belongs to the primary global. -/
structure Collected (l : Ledger) (e : Entry) (l' : Ledger) : Prop where
  globals : l'.globals =
    match e with
    | .declareGlobal context interface => pushEntry l.globals context interface
    | _ => l.globals
  exposed : l'.exposed =
    match e with
    | .listExposed context interface => pushEntry l.exposed context interface
    | _ => l.exposed
  entries : ∀ bucket, l'.exposure.entries bucket =
    match e with
    | .expose b contexts name =>
      if b = bucket then contexts.foldl (fun t c => pushEntry t c name) (l.exposure.entries bucket)
      else l.exposure.entries bucket
    | _ => l.exposure.entries bucket
  primaryGlobal : l'.exposure.primaryGlobal = l.exposure.primaryGlobal.or e.primary?
  reallyDependsOnWindow : l'.reallyDependsOnWindow = (l.reallyDependsOnWindow || e.usesWindow)

theorem collected (l : Ledger) (e : Entry) : Collected l e (l.record e) := by
  cases e with
  | register name target isAlias =>
    simp only [record, register]
    split_ifs <;> constructor <;> simp [Entry.primary?, Entry.usesWindow, diagnose, remark]
  | expose bucket contexts name =>
    constructor <;> simp [record, Entry.primary?, Entry.usesWindow, Exposure.entries_add]
  | declarePrimary primary interface =>
    simp only [record, declarePrimary]
    cases hp : l.exposure.primaryGlobal with
    | none => constructor <;> simp [Entry.primary?, Entry.usesWindow, hp, Exposure.entries]
    | some first =>
      simp only
      split_ifs <;> constructor <;>
        simp [Entry.primary?, Entry.usesWindow, hp, diagnose, remark]
  | use name =>
    simp only [record]
    cases window : windowNames.contains name <;> constructor <;>
      simp only [Entry.primary?, Entry.usesWindow, window, Option.or_none, Bool.or_false,
        Bool.or_true, if_true, if_false, Bool.false_eq_true, implies_true]
  | _ => constructor <;> simp [record, Entry.primary?, Entry.usesWindow, reference, depend, remark]

/-! ### Many findings -/

section

variable {κ β : Type} [DecidableEq κ]

/-- What each finding adds to a table of lists on its own, all of them add together. -/
theorem collects_foldl {table : Ledger → Table κ (List β)} {found : κ → Entry → List β}
    (step : ∀ l e f, (table l).Collects f →
      (table (l.record e)).Collects fun k => f k ++ found k e)
    {l : Ledger} {f : κ → List β} (h : (table l).Collects f) (es : List Entry) :
    (table (es.foldl record l)).Collects fun k => f k ++ es.flatMap (found k) := by
  induction es generalizing l f with
  | nil => simpa using h
  | cons e es ih => simpa [List.append_assoc] using ih (step l e f h)

theorem collects_ofEntries {table : Ledger → Table κ (List β)} {found : κ → Entry → List β}
    (empty : table {} = ∅)
    (step : ∀ l e f, (table l).Collects f →
      (table (l.record e)).Collects fun k => f k ++ found k e) (es : List Entry) :
    (table (ofEntries es)).Collects fun k => es.flatMap (found k) :=
  collects_foldl (f := fun _ => []) step (empty ▸ Table.collects_empty) es

end

theorem extendedNames_ofEntries (es : List Entry) :
    (ofEntries es).extendedNames.Collects fun n => es.flatMap (Entry.extending n) := by
  refine collects_ofEntries rfl (fun l e f h => ?_) es
  rw [(recorded l e).extendedNames]
  cases e with
  | extend name node => simpa only [Entry.extending, eq_comm] using h.push name node
  | _ => simpa only [Entry.extending, List.append_nil] using h

theorem globals_ofEntries (es : List Entry) :
    (ofEntries es).globals.Collects fun c => es.flatMap (Entry.declaring c) := by
  refine collects_ofEntries rfl (fun l e f h => ?_) es
  rw [(collected l e).globals]
  cases e with
  | declareGlobal context interface =>
    simpa only [Entry.declaring, eq_comm, pushEntry] using h.push context interface
  | _ => simpa only [Entry.declaring, List.append_nil] using h

theorem exposed_ofEntries (es : List Entry) :
    (ofEntries es).exposed.Collects fun c => es.flatMap (Entry.listing c) := by
  refine collects_ofEntries rfl (fun l e f h => ?_) es
  rw [(collected l e).exposed]
  cases e with
  | listExposed context interface =>
    simpa only [Entry.listing, eq_comm, pushEntry] using h.push context interface
  | _ => simpa only [Entry.listing, List.append_nil] using h

theorem exposure_ofEntries (bucket : Bucket) (es : List Entry) :
    ((ofEntries es).exposure.entries bucket).Collects fun c =>
      es.flatMap (Entry.exposing bucket c) := by
  refine @collects_ofEntries _ _ _ (fun l => l.exposure.entries bucket) _
    (by cases bucket <;> rfl) (fun l e f h => ?_) es
  rw [(collected l e).entries]
  cases e with
  | expose b contexts name =>
    by_cases same : b = bucket
    · simpa only [Entry.exposing, same, if_true, pushEntry] using h.pushAll contexts name
    · simpa only [Entry.exposing, same, if_false, List.append_nil] using h
  | _ => simpa only [Entry.exposing, List.append_nil] using h

/-- The primary global is the first one that a finding declares. -/
theorem primaryGlobal_ofEntries (es : List Entry) :
    (ofEntries es).exposure.primaryGlobal = es.findSome? Entry.primary? := by
  suffices ∀ l : Ledger, (es.foldl record l).exposure.primaryGlobal =
      l.exposure.primaryGlobal.or (es.findSome? Entry.primary?) from this {}
  induction es with
  | nil => simp
  | cons e es ih =>
    intro l
    rw [List.foldl_cons, ih, (collected l e).primaryGlobal, Option.or_assoc, List.findSome?_cons]
    cases e.primary? <;> rfl

/-- The window is used if a finding uses it. -/
theorem reallyDependsOnWindow_ofEntries (es : List Entry) :
    (ofEntries es).reallyDependsOnWindow = es.any Entry.usesWindow := by
  suffices ∀ l : Ledger, (es.foldl record l).reallyDependsOnWindow =
      (l.reallyDependsOnWindow || es.any Entry.usesWindow) from this {}
  induction es with
  | nil => simp
  | cons e es ih =>
    intro l
    rw [List.foldl_cons, ih, (collected l e).reallyDependsOnWindow, List.any_cons, Bool.or_assoc]

end Ledger

end Analysis

end WebSpec
