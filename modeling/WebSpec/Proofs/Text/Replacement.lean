import Mathlib.Data.List.Infix
import Mathlib.Tactic.Common
import WebSpec.Text.Replace

/-!
# What a text has after replacing

`find?_replaceMatches_eq_none` says when a text has no match of a matcher after the matches of one,
of the same or of another, have been replaced: the places between the replacements gain no match,
and none starts in a replacement.

A place gains no match if what would be found there was there before. This is so unless it runs into
a replacement (`exists_eq_append_of_replaceMatches`), and it cannot do that if it is `Apart` from
what all replacements start with.
-/

namespace WebSpec.Text

variable {find? : Matcher} {lead p q cs : List Char}

/-- No end of the first text and the second one start alike. -/
def Apart (p lead : List Char) : Prop :=
  ∀ s ∈ p.tails, s ≠ [] → ¬ s <+: lead ∧ ¬ lead <+: s

instance : Decidable (Apart p lead) :=
  inferInstanceAs (Decidable (∀ s ∈ p.tails, s ≠ [] → _))

theorem Apart.tail {c : Char} (h : Apart (c :: p) lead) : Apart p lead := fun s hs =>
  h s (by simpa using .inr ((List.mem_tails _ _).mp hs))

theorem apart_nil : Apart [] lead := fun s hs nonempty => by
  simp at hs
  exact absurd hs nonempty

/-- A text without the first character of another one is apart from it, and stays so before a text
that is. -/
theorem Apart.append {c : Char} {front : List Char} (h : Apart p lead)
    (first : lead.head? = some c) (without : c ∉ front) : Apart (front ++ p) lead := by
  induction front with
  | nil => exact h
  | cons d front ih =>
    intro s hs nonempty
    rcases List.mem_cons.mp hs with rfl | hs
    · obtain ⟨rest, rfl⟩ : ∃ rest, lead = c :: rest := by
        cases lead with
        | nil => cases first
        | cons c' rest => exact ⟨rest, by rw [Option.some.inj first]⟩
      have other : c ≠ d := fun same => without (same ▸ List.mem_cons_self)
      simp [List.cons_prefix_cons, other, other.symm]
    · exact ih (fun h => without (List.mem_cons_of_mem d h)) s hs nonempty

/-- A text whose last character is not in another one, and which lacks a character of that, is apart
from it. -/
theorem apart_of_last {c d : Char} (last : c ∉ lead) (inside : d ∈ lead) (without : d ∉ p)
    (other : d ≠ c) : Apart (p ++ [c]) lead := by
  intro s hs nonempty
  have ending := (List.mem_tails _ _).mp hs
  constructor
  · intro short
    obtain ⟨t, c', rfl⟩ : ∃ t c', s = t ++ [c'] :=
      ⟨_, _, (List.dropLast_append_getLast nonempty).symm⟩
    obtain ⟨u, hu⟩ := ending
    rw [← List.append_assoc] at hu
    obtain ⟨-, same⟩ := List.append_inj' hu rfl
    exact last (short.subset (by simp [List.singleton_inj.mp same]))
  · intro long
    rcases List.mem_append.mp (ending.subset (long.subset inside)) with h | h
    · exact without h
    · exact other (List.mem_singleton.mp h)

/-- What starts at an end of a text does not start like a text apart from it. -/
theorem Apart.not_starts {s : List Char} (h : Apart p lead) (hs : s <:+ p) (nonempty : s ≠ []) :
    ¬ lead <+: s ++ q := by
  intro start
  obtain ⟨shorter, longer⟩ := h s ((List.mem_tails _ _).mpr hs) nonempty
  rcases List.prefix_or_prefix_of_prefix start (List.prefix_append s q) with h | h
  · exact longer h
  · exact shorter h

/-! ### Replacing -/

theorem replaceMatchesAfter_eq (n : Nat) :
    replaceMatchesAfter find? n cs = replaceMatches find? (cs.drop n) := by
  induction n generalizing cs with
  | zero => rfl
  | succ n ih =>
    cases cs with
    | nil => rfl
    | cons c rest => exact ih

theorem replaceMatches_of_none {c : Char} {rest : List Char} (h : find? (c :: rest) = none) :
    replaceMatches find? (c :: rest) = c :: replaceMatches find? rest := by
  rw [replaceMatches, replaceMatchesAfter, h]
  rfl

theorem replaceMatches_of_some {c : Char} {rest : List Char} {m : Match}
    (h : find? (c :: rest) = some m) :
    replaceMatches find? (c :: rest) =
      m.replacement ++ replaceMatches find? (rest.drop (m.length - 1)) := by
  rw [replaceMatches, replaceMatchesAfter, h]
  exact congrArg _ (replaceMatchesAfter_eq _)

/-- What a text starts with after replacing, it starts with before, unless it runs into what the
replacements have in common. -/
theorem exists_eq_append_of_replaceMatches
    (leads : ∀ here m, find? here = some m → lead <+: m.replacement) (apart : Apart p lead)
    (h : replaceMatches find? cs = p ++ q) :
    ∃ rest, cs = p ++ rest ∧ replaceMatches find? rest = q := by
  induction p generalizing cs with
  | nil => exact ⟨cs, rfl, h⟩
  | cons c p ih =>
    cases cs with
    | nil => cases h
    | cons c' rest =>
      cases found : find? (c' :: rest) with
      | none =>
        rw [replaceMatches_of_none found] at h
        obtain ⟨rfl, same⟩ := List.cons.inj h
        obtain ⟨behind, rfl, hq⟩ := ih apart.tail same
        exact ⟨behind, rfl, hq⟩
      | some m =>
        -- Both the replacement and the text stand here.
        rw [replaceMatches_of_some found] at h
        have here : lead <+: c :: p ++ q :=
          h ▸ (leads _ m found).trans (List.prefix_append _ _)
        exact absurd here (apart.not_starts List.suffix_rfl (List.cons_ne_nil c p))

/-- A text in which nothing is found is left as it is. -/
theorem replaceMatches_eq_self {find? : Matcher} {cs : List Char}
    (h : ∀ suffix, suffix <:+ cs → find? suffix = none) : replaceMatches find? cs = cs := by
  unfold replaceMatches
  induction cs with
  | nil => rfl
  | cons c rest ih =>
    have behind := ih fun suffix hs => h suffix (hs.trans (List.suffix_cons c rest))
    rw [replaceMatchesAfter, h (c :: rest) List.suffix_rfl]
    exact congrArg (c :: ·) behind

theorem mem_of_mem_replaceMatches {c : Char}
    (without : ∀ here m, find? here = some m → c ∉ m.replacement)
    (h : c ∈ replaceMatches find? cs) : c ∈ cs := by
  unfold replaceMatches at h
  generalize 0 = n at h
  fun_induction replaceMatchesAfter find? n cs with
  | case1 => cases h
  | case2 skip c' rest ih => exact List.mem_cons_of_mem c' (ih h)
  | case3 c' rest m found ih =>
    rcases List.mem_append.mp h with h | h
    · exact absurd h (without _ m found)
    · exact List.mem_cons_of_mem c' (ih h)
  | case4 c' rest found ih =>
    rcases List.mem_cons.mp h with rfl | h
    · exact List.mem_cons_self
    · exact List.mem_cons_of_mem c' (ih h)

/-- An end of two texts is an end of the second one, or has it behind an end of the first one. -/
theorem suffix_append_cases {s xs ys : List Char} (h : s <:+ xs ++ ys) :
    s <:+ ys ∨ ∃ t, t <:+ xs ∧ t ≠ [] ∧ s = t ++ ys := by
  rcases List.suffix_or_suffix_of_suffix h (List.suffix_append xs ys) with h' | ⟨t, rfl⟩
  · exact .inl h'
  · obtain ⟨u, hu⟩ := h
    rw [← List.append_assoc] at hu
    cases t with
    | nil => exact .inl List.suffix_rfl
    | cons c t => exact .inr ⟨c :: t, ⟨u, List.append_cancel_right hu⟩, List.cons_ne_nil c t, rfl⟩

/-- After replacing what one matcher finds, another one finds nothing, if it finds nothing where the
text is as before, and nothing that starts in a replacement. -/
theorem find?_replaceMatches_eq_none {found? : Matcher} (empty : found? [] = none)
    (kept : ∀ c rest, c :: rest <:+ cs → find? (c :: rest) = none →
      found? (c :: replaceMatches find? rest) = none)
    (fresh : ∀ c rest m, c :: rest <:+ cs → find? (c :: rest) = some m →
      ∀ s, s <:+ m.replacement → s ≠ [] →
        found? (s ++ replaceMatches find? (rest.drop (m.length - 1))) = none)
    {suffix : List Char} (hs : suffix <:+ replaceMatches find? cs) : found? suffix = none := by
  induction h : cs.length using Nat.strong_induction_on generalizing cs with
  | _ n ih =>
    cases cs with
    | nil =>
      rw [List.suffix_nil.mp hs]
      exact empty
    | cons c rest =>
      have smaller (k : Nat) (hs : suffix <:+ replaceMatches find? (rest.drop k)) :
          found? suffix = none := by
        have inside : rest.drop k <:+ c :: rest :=
          (List.drop_suffix k rest).trans (List.suffix_cons c rest)
        refine ih (rest.drop k).length ?_ (fun c' rest' h' => kept c' rest' (h'.trans inside))
          (fun c' rest' m h' => fresh c' rest' m (h'.trans inside)) hs rfl
        simp only [List.length_drop, List.length_cons] at h ⊢
        omega
      cases found : find? (c :: rest) with
      | none =>
        rw [replaceMatches_of_none found] at hs
        rcases List.suffix_cons_iff.mp hs with rfl | hs
        · exact kept c rest List.suffix_rfl found
        · exact smaller 0 hs
      | some m =>
        rw [replaceMatches_of_some found] at hs
        rcases suffix_append_cases hs with hs | ⟨s, inside, nonempty, rfl⟩
        · exact smaller _ hs
        · exact fresh c rest m List.suffix_rfl found s inside nonempty

end WebSpec.Text
