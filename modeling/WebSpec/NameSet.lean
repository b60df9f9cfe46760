/-!
# Sets of names

A finite set of names, kept as a list without repetition in the order in which the names came.
Membership is what matters; `toSorted` gives the members in the order of their code points, which is
how a set is written down.
-/

namespace WebSpec

/-- A finite set of names. -/
structure NameSet where
  /-- The members, in the order in which they came. -/
  names : List String
  /-- No member is listed twice. -/
  nodup : names.Nodup

namespace NameSet

instance : EmptyCollection NameSet := ⟨⟨[], List.nodup_nil⟩⟩

instance : Inhabited NameSet := ⟨∅⟩

instance : Membership String NameSet := ⟨fun s n => n ∈ s.names⟩

instance (n : String) (s : NameSet) : Decidable (n ∈ s) :=
  inferInstanceAs (Decidable (n ∈ s.names))

/-- The set with one more member. -/
def insert (s : NameSet) (n : String) : NameSet :=
  if h : n ∈ s.names then s
  else ⟨s.names ++ [n], by
    rw [List.nodup_append]
    refine ⟨s.nodup, by simp, ?_⟩
    intro a ha b hb hab
    rw [List.mem_singleton] at hb
    exact h (by rw [← hb, ← hab]; exact ha)⟩

/-- The set without one of its members. -/
def erase (s : NameSet) (n : String) : NameSet :=
  ⟨s.names.erase n, s.nodup.erase n⟩

/-- The set of the listed names. -/
def ofList (l : List String) : NameSet :=
  l.foldl insert ∅

/-- The members of either set. -/
def union (s t : NameSet) : NameSet :=
  t.names.foldl insert s

/-- The members in the order of their code points. -/
def toSorted (s : NameSet) : List String :=
  s.names.mergeSort fun a b => decide (a ≤ b)

theorem mem_insert {s : NameSet} {m n : String} : m ∈ s.insert n ↔ m = n ∨ m ∈ s := by
  show m ∈ (s.insert n).names ↔ m = n ∨ m ∈ s.names
  unfold insert
  split
  · exact ⟨Or.inr, fun h => h.elim (fun e => e ▸ ‹_›) id⟩
  · simp [or_comm]

theorem mem_erase {s : NameSet} {m n : String} : m ∈ s.erase n ↔ m ≠ n ∧ m ∈ s :=
  s.nodup.mem_erase_iff

theorem not_mem_empty (n : String) : n ∉ (∅ : NameSet) :=
  List.not_mem_nil

end NameSet

end WebSpec
