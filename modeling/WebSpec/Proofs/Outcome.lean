import Mathlib.Data.List.Forall2

/-!
# Computations that may fail

When a sequence of computations succeeds: each of them does, one after the other.

`Ends` says of both ends what is known: of the result if there is one, and of the fault otherwise.

`mapBoth` compares two computations whose faults and results correspond; a sequence of computations
that correspond corresponds to the other one (`mapBoth_bind`).
-/

namespace WebSpec

variable {ε ε' α α' β β' : Type}

theorem bind_eq_ok {x : Except ε α} {f : α → Except ε β} {b : β} :
    x >>= f = .ok b ↔ ∃ a, x = .ok a ∧ f a = .ok b := by
  cases x <;> simp [bind, Except.bind]

theorem toOption_eq_some {x : Except ε α} {a : α} : x.toOption = some a ↔ x = .ok a := by
  cases x <;> simp [Except.toOption]

/-- A computation for each member of a list. -/
theorem mapM_eq_ok {f : α → Except ε β} {as : List α} {bs : List β} :
    as.mapM f = .ok bs ↔ List.Forall₂ (fun a b => f a = .ok b) as bs := by
  induction as generalizing bs with
  | nil =>
    rw [List.mapM_nil, List.forall₂_nil_left_iff]
    exact ⟨fun h => (Except.ok.inj h).symm, fun h => h ▸ rfl⟩
  | cons a as ih =>
    rw [List.mapM_cons, bind_eq_ok]
    constructor
    · rintro ⟨b, hb, h⟩
      obtain ⟨bs', hbs, h⟩ := bind_eq_ok.mp h
      obtain rfl := Except.ok.inj h
      exact .cons hb (ih.mp hbs)
    · rintro (_ | ⟨hb, hbs⟩)
      exact ⟨_, hb, bind_eq_ok.mpr ⟨_, ih.mpr hbs, rfl⟩⟩

theorem exists_of_mapM_eq_ok {f : α → Except ε β} {as : List α} {bs : List β}
    (h : as.mapM f = .ok bs) {a : α} (ha : a ∈ as) : ∃ b ∈ bs, f a = .ok b := by
  have hf := mapM_eq_ok.mp h
  clear h
  induction hf with
  | nil => exact absurd ha List.not_mem_nil
  | @cons _ b _ _ hb _ ih =>
    rcases List.mem_cons.mp ha with rfl | ha
    · exact ⟨b, List.mem_cons_self, hb⟩
    · obtain ⟨b', hb', hf⟩ := ih ha
      exact ⟨b', List.mem_cons_of_mem _ hb', hf⟩

theorem exists_of_mem_mapM_eq_ok {f : α → Except ε β} {as : List α} {bs : List β}
    (h : as.mapM f = .ok bs) {b : β} (hb : b ∈ bs) : ∃ a ∈ as, f a = .ok b := by
  have hf := mapM_eq_ok.mp h
  clear h
  induction hf with
  | nil => exact absurd hb List.not_mem_nil
  | @cons a _ _ _ ha _ ih =>
    rcases List.mem_cons.mp hb with rfl | hb
    · exact ⟨a, List.mem_cons_self, ha⟩
    · obtain ⟨a', ha', hf⟩ := ih hb
      exact ⟨a', List.mem_cons_of_mem _ ha', hf⟩

theorem exists_of_mapM_eq_error {f : α → Except ε β} {as : List α} {e : ε}
    (h : as.mapM f = .error e) : ∃ a ∈ as, f a = .error e := by
  induction as with
  | nil => cases h
  | cons a as ih =>
    rw [List.mapM_cons] at h
    cases hb : f a with
    | error e' =>
      rw [hb] at h
      obtain rfl := Except.error.inj h
      exact ⟨a, List.mem_cons_self, hb⟩
    | ok b =>
      rw [hb] at h
      cases hbs : as.mapM f with
      | error e' =>
        rw [hbs] at h
        obtain rfl := Except.error.inj h
        obtain ⟨a', ha', he⟩ := ih hbs
        exact ⟨a', List.mem_cons_of_mem _ ha', he⟩
      | ok bs =>
        rw [hbs] at h
        cases h

theorem mapM_append_eq_ok {f : α → Except ε β} {as as' : List α} {bs bs' : List β}
    (h : as.mapM f = .ok bs) (h' : as'.mapM f = .ok bs') :
    (as ++ as').mapM f = .ok (bs ++ bs') :=
  mapM_eq_ok.mpr (List.rel_append (mapM_eq_ok.mp h) (mapM_eq_ok.mp h'))

theorem exists_of_mapM_append_eq_ok {f : α → Except ε β} {as as' : List α} {cs : List β}
    (h : (as ++ as').mapM f = .ok cs) :
    ∃ bs bs', as.mapM f = .ok bs ∧ as'.mapM f = .ok bs' ∧ cs = bs ++ bs' := by
  rw [List.mapM_append] at h
  obtain ⟨bs, hbs, h⟩ := bind_eq_ok.mp h
  obtain ⟨bs', hbs', h⟩ := bind_eq_ok.mp h
  exact ⟨bs, bs', hbs, hbs', (Except.ok.inj h).symm⟩

/-! ### How computations end -/

section

/-- A computation ends with a result of which `p` holds, or with a fault of which `q` holds. -/
inductive Ends (p : α → Prop) (q : ε → Prop) : Except ε α → Prop where
  | ok {a} (h : p a) : Ends p q (.ok a)
  | error {e} (h : q e) : Ends p q (.error e)

variable {p p' : α → Prop} {q : ε → Prop} {x : Except ε α}

theorem Ends.bind {r : β → Prop} {f : α → Except ε β} (h : Ends p q x)
    (hf : ∀ a, p a → Ends r q (f a)) : Ends r q (x >>= f) := by
  cases h with
  | ok h => exact hf _ h
  | error h => exact .error h

theorem Ends.imp {q' : ε → Prop} (h : Ends p q x) (hp : ∀ a, p a → p' a) (hq : ∀ e, q e → q' e) :
    Ends p' q' x := by
  cases h with
  | ok h => exact .ok (hp _ h)
  | error h => exact .error (hq _ h)

theorem Ends.of_ok_eq {a : α} (h : Ends p q (.ok a : Except ε α)) : p a := by
  cases h with
  | ok h => exact h

theorem Ends.of_error_eq {e : ε} (h : Ends p q (.error e : Except ε α)) : q e := by
  cases h with
  | error h => exact h

/-- The result is known to be what the computation gives. -/
theorem Ends.of_ok (h : Ends p q x) (hp : ∀ a, x = .ok a → p' a) : Ends p' q x := by
  cases h with
  | ok => exact .ok (hp _ rfl)
  | error h => exact .error h

theorem Ends.mapError {q' : ε' → Prop} {g : ε → ε'} (h : Ends p q x) (hq : ∀ e, q e → q' (g e)) :
    Ends p q' (x.mapError g) := by
  cases h with
  | ok h => exact .ok h
  | error h => exact .error (hq _ h)

/-- As many results as there are computations, or the first fault. -/
theorem ends_mapM {r : β → Prop} {f : α → Except ε β} {as : List α}
    (h : ∀ a ∈ as, Ends r q (f a)) :
    Ends (fun bs => bs.length = as.length ∧ ∀ b ∈ bs, r b) q (as.mapM f) := by
  induction as with
  | nil => exact .ok ⟨rfl, by simp⟩
  | cons a as ih =>
    obtain ⟨first, others⟩ := List.forall_mem_cons.mp h
    rw [List.mapM_cons]
    refine first.bind fun b hb => ?_
    refine (ih others).bind fun bs ⟨length, hbs⟩ => ?_
    exact .ok ⟨by simp [length], List.forall_mem_cons.mpr ⟨hb, hbs⟩⟩

end

/-! ### Computations that correspond -/

theorem mapError_map (g : ε → ε') (f : α → β) (x : Except ε α) :
    (x.mapError g).map f = (x.map f).mapError g := by
  cases x <;> rfl

/-- The same outcome, seen through a map of the faults and a map of the results. -/
def mapBoth (g : ε → ε') (f : α → α') : Except ε α → Except ε' α'
  | .ok a => .ok (f a)
  | .error e => .error (g e)

theorem mapBoth_bind {g : ε → ε'} {f : α → α'} {f' : β → β'} {k : α → Except ε β}
    {k' : α' → Except ε' β'} (h : ∀ a, k' (f a) = mapBoth g f' (k a)) (x : Except ε α) :
    (mapBoth g f x >>= k') = mapBoth g f' (x >>= k) := by
  cases x with
  | ok a => exact h a
  | error e => rfl

theorem mapM_map_eq_mapBoth {g : ε → ε'} {f : α → α'} {f' : β → β'} {k : α → Except ε β}
    {k' : α' → Except ε' β'} (h : ∀ a, k' (f a) = mapBoth g f' (k a)) (as : List α) :
    (as.map f).mapM k' = mapBoth g (List.map f') (as.mapM k) := by
  induction as with
  | nil => rfl
  | cons a as ih =>
    rw [List.map_cons, List.mapM_cons, List.mapM_cons, h, ih]
    refine mapBoth_bind (fun b => ?_) (k a)
    refine mapBoth_bind (fun bs => ?_) (as.mapM k)
    rfl

end WebSpec
