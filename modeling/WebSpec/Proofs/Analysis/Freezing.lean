import WebSpec.Proofs.Analysis.Integrity

/-!
# Building an exposure map

An exposure takes entries in any order, some of them for a primary global that may be declared
before, between or after them, and a map may be built at any time. `build_performAll` says what is
in the map, whatever has been done: each context has what was added under it, in order, and the
primary global has behind this what was added under no context.

So nothing is lost and nothing is doubled. `Table.memberCount` counts what a table of lists holds; a
setting changes the count by what comes in and what it replaces (`memberCount_insert`), and merging
the entries without a context keeps it (`memberCount_freezeEntries`).
-/

namespace WebSpec

namespace Table

variable {κ β : Type}

/-- The number of members that the lists of a table have together. -/
def memberCount (t : Table κ (List β)) : Nat :=
  (t.entries.flatMap Prod.snd).length

variable [DecidableEq κ]

theorem length_flatMap_setEntry (k : κ) (xs : List β) (l : List (κ × List β)) :
    ((setEntry k xs l).flatMap Prod.snd).length + ((l.lookup k).getD []).length =
      (l.flatMap Prod.snd).length + xs.length := by
  induction l with
  | nil => simp [setEntry]
  | cons p rest ih =>
    obtain ⟨k', ys⟩ := p
    by_cases same : k' = k
    · subst same
      simp only [setEntry, if_true, List.flatMap_cons, List.length_append, List.lookup_cons,
        beq_self_eq_true, Option.getD_some]
      omega
    · have other : (k == k') = false := beq_false_of_ne (Ne.symm same)
      simp only [setEntry, same, if_false, List.flatMap_cons, List.length_append,
        List.lookup_cons, other]
      omega

/-- The list of a key comes in, and the one that it replaces goes out. -/
theorem memberCount_insert (t : Table κ (List β)) (k : κ) (xs : List β) :
    (t.insert k xs).memberCount + ((t.get? k).getD []).length = t.memberCount + xs.length :=
  length_flatMap_setEntry k xs t.entries

/-- Members are added to the list of a key. -/
theorem memberCount_alter_append (t : Table κ (List β)) (k : κ) (xs : List β) :
    (t.alter k fun ys => ys.getD [] ++ xs).memberCount = t.memberCount + xs.length := by
  have replaced := t.memberCount_insert k ((t.get? k).getD [] ++ xs)
  rw [List.length_append] at replaced
  show (t.insert k ((t.get? k).getD [] ++ xs)).memberCount = _
  omega

end Table

namespace Analysis

namespace Exposure

/-! ### Numbers of entries -/

/-- A name is added under each context once for each time that the contexts have it. -/
theorem memberCount_foldl_pushEntry (contexts : List Context) (name : String)
    (t : Table Context (List String)) :
    (contexts.foldl (fun t c => pushEntry t c name) t).memberCount =
      t.memberCount + contexts.length := by
  induction contexts generalizing t with
  | nil => rfl
  | cons context rest ih =>
    rw [List.foldl_cons, ih, pushEntry, Table.memberCount_alter_append, List.length_cons,
      List.length_cons, List.length_nil]
    omega

/-- The entries that name their context keep their number. -/
theorem memberCount_foldl_insert (pairs : List (Context × List String))
    (nodup : (pairs.map Prod.fst).Nodup) (frozen : Table String (List String))
    (fresh : ∀ c, some c ∈ pairs.map Prod.fst → c ∉ frozen.keys) :
    (pairs.foldl (fun frozen (context, names) =>
        context.elim frozen fun c => frozen.insert c names) frozen).memberCount +
      ((Table.get? ⟨pairs, nodup⟩ none).getD []).length =
        frozen.memberCount + (pairs.flatMap Prod.snd).length := by
  induction pairs generalizing frozen with
  | nil => rfl
  | cons pair rest ih =>
    obtain ⟨context, names⟩ := pair
    obtain ⟨first, distinct⟩ := List.nodup_cons.mp nodup
    rw [List.foldl_cons, List.flatMap_cons, List.length_append, Table.get?_cons]
    cases context with
    | none =>
      have others := ih distinct frozen fun c hc => fresh c (List.mem_cons_of_mem _ hc)
      have last : Table.get? ⟨rest, distinct⟩ none = none := Table.get?_eq_none_iff.mpr first
      rw [last] at others
      simp only [Option.elim_none, if_true, Option.getD_some, Option.getD_none,
        List.length_nil] at others ⊢
      omega
    | some c =>
      have absent : frozen.get? c = none :=
        Table.get?_eq_none_iff.mpr (fresh c List.mem_cons_self)
      have replaced := frozen.memberCount_insert c names
      have others := ih distinct (frozen.insert c names) fun c' hc' => by
        rw [Table.mem_keys_insert, not_or]
        constructor
        · rintro rfl
          exact first hc'
        · exact fresh c' (List.mem_cons_of_mem _ hc')
      rw [absent] at replaced
      simp only [Option.elim_some, reduceCtorEq, if_false, Option.getD_none, List.length_nil]
        at others replaced ⊢
      omega

/-- Merging what names no context into the primary global loses and doubles nothing. -/
theorem memberCount_freezeEntries (primary : String) (t : Table Context (List String)) :
    (freezeEntries primary t).memberCount = t.memberCount := by
  have named := memberCount_foldl_insert t.entries t.nodup ∅ (by simp)
  have start : (∅ : Table String (List String)).memberCount = 0 := rfl
  rw [start, Nat.zero_add] at named
  unfold freezeEntries
  split
  · rename_i unnamed
    rw [unnamed, List.length_nil, Nat.add_zero] at named
    exact named
  · rw [Table.memberCount_alter_append]
    exact named

/-! ### Working with an exposure -/

/-- What may be done with an exposure. -/
inductive Call where
  | add (bucket : Bucket) (contexts : List Context) (name : String)
  /-- Declares the primary global, or takes its declaration back. -/
  | declare (primaryGlobal : Option String)
  /-- Builds the map, and tells the name of the primary global. -/
  | build (defaultGlobal : String)

namespace Call

/-- What a call adds under a context, once for each time that it names the context. -/
def added (bucket : Bucket) (context : Context) : Call → List String
  | .add b contexts name => (Entry.expose b contexts name).exposing bucket context
  | _ => []

/-- The contexts under which a call adds something. -/
def contexts (bucket : Bucket) : Call → List Context
  | .add b contexts _ => if b = bucket then contexts else []
  | _ => []

/-- The primary global after a call, where the first one was declared before. -/
def declared (before : Option String) : Call → Option String
  | .declare primaryGlobal => primaryGlobal
  | _ => before

end Call

/-- Does one call, and tells what has been built. -/
def perform (e : Exposure) : Call → Exposure × Option (ExposureMap × String)
  | .add bucket contexts name => (e.add bucket contexts name, none)
  | .declare primaryGlobal => ({ e with primaryGlobal := primaryGlobal }, none)
  | .build defaultGlobal => (e, some (e.freeze defaultGlobal, e.primary defaultGlobal))

/-- The exposure that calls leave. -/
def performAll (e : Exposure) (calls : List Call) : Exposure :=
  calls.foldl (fun e call => (e.perform call).1) e

/-- The primary global: the one that was declared last, unless its name is empty, and otherwise the
default. -/
def primaryOf (calls : List Call) (defaultGlobal : String) : String :=
  ((calls.foldl Call.declared none).filter (· ≠ "")).getD defaultGlobal

/-- What was added under a context, and behind it for the primary global what was added under
none. -/
def addedIn (calls : List Call) (primary : String) (bucket : Bucket) (context : String) :
    List String :=
  calls.flatMap (Call.added bucket (some context)) ++
    if context = primary then calls.flatMap (Call.added bucket none) else []

/-- What a call does to an exposure. -/
structure Performed (e : Exposure) (call : Call) (e' : Exposure) : Prop where
  primaryGlobal : e'.primaryGlobal = call.declared e.primaryGlobal
  collects : ∀ bucket f, (e.entries bucket).Collects f →
    (e'.entries bucket).Collects fun c => f c ++ call.added bucket c
  memberCount : ∀ bucket,
    (e'.entries bucket).memberCount =
      (e.entries bucket).memberCount + (call.contexts bucket).length

theorem performed (e : Exposure) (call : Call) : Performed e call (e.perform call).1 := by
  cases call with
  | add b contexts name =>
    refine ⟨primaryGlobal_add e b contexts name, fun bucket f h => ?_, fun bucket => ?_⟩
    · simp only [perform, entries_add, Call.added, Entry.exposing]
      split
      · exact h.pushAll contexts name
      · simpa only [List.append_nil] using h
    · simp only [perform, entries_add, Call.contexts]
      split
      · exact memberCount_foldl_pushEntry contexts name _
      · rfl
  | declare primaryGlobal =>
    have same (bucket : Bucket) :
        ({ e with primaryGlobal := primaryGlobal } : Exposure).entries bucket =
          e.entries bucket := by
      cases bucket <;> rfl
    refine ⟨rfl, fun bucket f h => ?_, fun bucket => congrArg Table.memberCount (same bucket)⟩
    simpa only [perform, same, Call.added, List.append_nil] using h
  | build defaultGlobal =>
    refine ⟨rfl, fun bucket f h => ?_, fun _ => rfl⟩
    simpa only [perform, Call.added, List.append_nil] using h

theorem primaryGlobal_performAll (e : Exposure) (calls : List Call) :
    (e.performAll calls).primaryGlobal = calls.foldl Call.declared e.primaryGlobal := by
  induction calls generalizing e with
  | nil => rfl
  | cons call rest ih =>
    rw [performAll, List.foldl_cons, ← performAll, ih, (performed e call).primaryGlobal]
    rfl

theorem collects_performAll {e : Exposure} {bucket : Bucket} {f : Context → List String}
    (h : (e.entries bucket).Collects f) (calls : List Call) :
    ((e.performAll calls).entries bucket).Collects fun c =>
      f c ++ calls.flatMap (Call.added bucket c) := by
  induction calls generalizing e f with
  | nil => simpa [performAll] using h
  | cons call rest ih =>
    have next := ih ((performed e call).collects bucket f h)
    simpa only [performAll, List.foldl_cons, List.flatMap_cons, List.append_assoc] using next

theorem memberCount_performAll (e : Exposure) (bucket : Bucket) (calls : List Call) :
    ((e.performAll calls).entries bucket).memberCount =
      (e.entries bucket).memberCount + (calls.flatMap (Call.contexts bucket)).length := by
  induction calls generalizing e with
  | nil => rfl
  | cons call rest ih =>
    rw [performAll, List.foldl_cons, ← performAll, ih, (performed e call).memberCount,
      List.flatMap_cons, List.length_append]
    omega

theorem primary_performAll (calls : List Call) (defaultGlobal : String) :
    (performAll {} calls).primary defaultGlobal = primaryOf calls defaultGlobal := by
  rw [primary, primaryGlobal_performAll, primaryOf]
  cases calls.foldl Call.declared ({} : Exposure).primaryGlobal with
  | none => rfl
  | some name => by_cases empty : name = "" <;> simp [Option.filter, empty]

theorem entries_freeze (e : Exposure) (defaultGlobal : String) (bucket : Bucket) :
    (e.freeze defaultGlobal).entries bucket =
      freezeEntries (e.primary defaultGlobal) (e.entries bucket) := by
  cases bucket <;> rfl

/-- Whatever has been done, building changes nothing, and in the map that is built each context has
what was added under it, in the order of the calls; the primary global has behind this what was
added under no context. A context with nothing is not there, and there are as many names in a bucket
as contexts were given for it. -/
theorem build_performAll (calls : List Call) (defaultGlobal : String) :
    ∃ map, (performAll {} calls).perform (.build defaultGlobal) =
        (performAll {} calls, some (map, primaryOf calls defaultGlobal)) ∧
      ∀ bucket,
        (map.entries bucket).Collects (addedIn calls (primaryOf calls defaultGlobal) bucket) ∧
        (map.entries bucket).memberCount = (calls.flatMap (Call.contexts bucket)).length := by
  refine ⟨_, by rw [perform, primary_performAll], fun bucket => ?_⟩
  have start : (({} : Exposure).entries bucket).Collects fun _ => [] := by
    cases bucket <;> exact Table.collects_empty
  have held := collects_performAll start calls
  rw [entries_freeze, primary_performAll]
  constructor
  · intro context
    exact get?_freezeEntries held _ context
  · rw [memberCount_freezeEntries, memberCount_performAll]
    cases bucket <;> exact Nat.zero_add _

end Exposure

end Analysis

end WebSpec
