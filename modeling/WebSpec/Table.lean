/-!
# Ordered tables

A table maps keys to values and remembers the order in which its keys came. Setting a key that is
present replaces its value and leaves its place; a new key goes to the end.

`setEntry` is that rule on a list of pairs. `Table` is a list of pairs with distinct keys, which
`insert`, `alter` and `ofList` keep. A table is read through `get?` and `keys`: `get?_insert` and
`mem_keys_insert` say what an insertion does to both, and `keys_insert` that it only appends.
-/

namespace WebSpec

variable {κ β : Type} [DecidableEq κ]

/-- Sets a key in a list of pairs: the first pair with this key is replaced, and without one a new
pair is appended. -/
def setEntry (k : κ) (v : β) : List (κ × β) → List (κ × β)
  | [] => [(k, v)]
  | (k', v') :: rest => if k' = k then (k, v) :: rest else (k', v') :: setEntry k v rest

theorem map_fst_setEntry (k : κ) (v : β) (l : List (κ × β)) :
    (setEntry k v l).map Prod.fst =
      if k ∈ l.map Prod.fst then l.map Prod.fst else l.map Prod.fst ++ [k] := by
  induction l with
  | nil => simp [setEntry]
  | cons p rest ih =>
    obtain ⟨k', v'⟩ := p
    by_cases h : k' = k
    · simp [setEntry, h]
    · have h' : ¬ k = k' := fun e => h e.symm
      simp only [setEntry, h, if_false, List.map_cons, ih, List.mem_cons, h', false_or]
      split <;> simp

theorem nodup_map_fst_setEntry (k : κ) (v : β) {l : List (κ × β)} (h : (l.map Prod.fst).Nodup) :
    ((setEntry k v l).map Prod.fst).Nodup := by
  rw [map_fst_setEntry]
  split
  · exact h
  · rename_i hk
    rw [List.nodup_append]
    refine ⟨h, by simp, ?_⟩
    intro a ha b hb hab
    rw [List.mem_singleton] at hb
    exact hk (by rw [← hb, ← hab]; exact ha)

theorem lookup_setEntry (k : κ) (v : β) (l : List (κ × β)) (k' : κ) :
    (setEntry k v l).lookup k' = if k' = k then some v else l.lookup k' := by
  have ne {a b : κ} (h : ¬ a = b) : (a == b) = false := by simp [h]
  induction l with
  | nil => by_cases h : k' = k <;> simp [setEntry, List.lookup_cons, h, ne]
  | cons p rest ih =>
    obtain ⟨a, b⟩ := p
    by_cases ha : a = k
    · subst ha
      by_cases h : k' = a
      · simp [setEntry, h]
      · simp [setEntry, List.lookup_cons, h, ne h]
    · by_cases h : k' = k
      · subst h
        simp [setEntry, ha, List.lookup_cons, ne fun e => ha e.symm, ih]
      · simp [setEntry, ha, List.lookup_cons, h, ih]

/-- An insertion-ordered map. -/
structure Table (κ β : Type) where
  /-- The pairs, in the order in which their keys first came. -/
  entries : List (κ × β)
  /-- No key occurs twice. -/
  nodup : (entries.map Prod.fst).Nodup

namespace Table

instance : EmptyCollection (Table κ β) := ⟨⟨[], by simp⟩⟩

instance : Inhabited (Table κ β) := ⟨∅⟩

/-- The keys, in order. -/
def keys (t : Table κ β) : List κ :=
  t.entries.map Prod.fst

/-- The value of a key. -/
def get? (t : Table κ β) (k : κ) : Option β :=
  t.entries.lookup k

/-- Whether a key is present. -/
def contains (t : Table κ β) (k : κ) : Bool :=
  t.keys.contains k

/-- The number of keys. -/
def size (t : Table κ β) : Nat :=
  t.entries.length

/-- Sets a key: its value is replaced, or the key is appended. -/
def insert (t : Table κ β) (k : κ) (v : β) : Table κ β :=
  ⟨setEntry k v t.entries, nodup_map_fst_setEntry k v t.nodup⟩

/-- Sets a key to a function of its present value. -/
def alter (t : Table κ β) (k : κ) (f : Option β → β) : Table κ β :=
  t.insert k (f (t.get? k))

/-- The table that a list of settings leaves, the first setting first. -/
def ofList (l : List (κ × β)) : Table κ β :=
  l.foldl (fun t p => t.insert p.1 p.2) ∅

/-- The same keys with other values. -/
def map {γ : Type} (f : β → γ) (t : Table κ β) : Table κ γ :=
  ⟨t.entries.map fun p => (p.1, f p.2), by
    have h : (t.entries.map fun p => (p.1, f p.2)).map Prod.fst = t.entries.map Prod.fst := by
      simp [List.map_map, Function.comp_def]
    rw [h]; exact t.nodup⟩

omit [DecidableEq κ] in
@[simp] theorem keys_empty : (∅ : Table κ β).keys = [] := rfl

@[simp] theorem get?_empty (k : κ) : (∅ : Table κ β).get? k = none := rfl

theorem keys_insert (t : Table κ β) (k : κ) (v : β) :
    (t.insert k v).keys = if k ∈ t.keys then t.keys else t.keys ++ [k] :=
  map_fst_setEntry k v t.entries

theorem mem_keys_insert (t : Table κ β) (k k' : κ) (v : β) :
    k' ∈ (t.insert k v).keys ↔ k' = k ∨ k' ∈ t.keys := by
  rw [keys_insert]
  split
  · exact ⟨Or.inr, fun h => h.elim (fun e => e ▸ ‹_›) id⟩
  · simp [or_comm]

theorem get?_insert (t : Table κ β) (k k' : κ) (v : β) :
    (t.insert k v).get? k' = if k' = k then some v else t.get? k' :=
  lookup_setEntry k v t.entries k'

end Table

end WebSpec
