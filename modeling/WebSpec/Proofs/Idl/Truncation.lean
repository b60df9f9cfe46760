import WebSpec.Proofs.Idl.Separator

/-!
# Texts that are cut off

Readers of names, numbers and texts look at characters from left to right, and some of them look
further than they get: behind `1e-` a digit makes an exponent, and without one the number is `1`.
Still what they find at the start of a text they find when the text is cut off behind it, or
anywhere later; and what they do not find at all they do not find in less text. Readers with this
property are `Local`. Alternatives of local readers are local, so the next token of a text does not
depend on what is behind it (`nextToken?_of_append`).
-/

namespace WebSpec.Idl

open ContextFree (TerminalSet)

/-- What is found of a text, of a length that `extent` tells, is found without what is behind it,
and nothing is found in a part of a text where nothing is found in the text. -/
def Local {α : Type} (extent : α → Nat) (find : List Char → Option α) : Prop :=
  ∀ cs more, (∀ a ∈ find (cs ++ more), extent a ≤ cs.length) → find cs = find (cs ++ more)

/-! ### Runs of characters -/

section Runs

variable {p : Char → Bool} {cs more : List Char}

/-- A run of characters ends in the first part of a text, or that is all a part of the run. -/
theorem run_append (p : Char → Bool) (cs more : List Char) :
    cs.dropWhile p ≠ [] ∧ (cs ++ more).takeWhile p = cs.takeWhile p ∧
        (cs ++ more).dropWhile p = cs.dropWhile p ++ more ∨
      cs.dropWhile p = [] ∧ cs.takeWhile p = cs ∧
        (cs ++ more).takeWhile p = cs ++ more.takeWhile p ∧
          (cs ++ more).dropWhile p = more.dropWhile p := by
  induction cs with
  | nil => simp
  | cons c cs ih =>
    by_cases hc : p c
    · simpa [hc] using ih
    · simp [hc]

/-- A run that ends in the first part of a text is all there. -/
theorem takeWhile_of_append
    (h : 0 < ((cs ++ more).takeWhile p).length → ((cs ++ more).takeWhile p).length ≤ cs.length) :
    (cs ++ more).takeWhile p = cs.takeWhile p := by
  rcases run_append p cs more with ⟨-, same, -⟩ | ⟨-, all, same, -⟩
  · exact same
  · have none : more.takeWhile p = [] := by
      rw [same, List.length_append] at h
      exact List.eq_nil_of_length_eq_zero (by omega)
    rw [same, all, none, List.append_nil]

end Runs

/-! ### Names, numbers and texts -/

/-- What a reader finds is not empty, so it finds nothing where there is no text. -/
theorem find_nil_eq {length? : List Char → Option Nat} (bounded : Bounded length?)
    {more : List Char} (h : ∀ n ∈ length? ([] ++ more), n ≤ ([] : List Char).length) :
    length? [] = length? ([] ++ more) := by
  have none (cs : List Char) (h : ∀ n ∈ length? cs, n ≤ 0) : length? cs = none :=
    Option.eq_none_iff_forall_not_mem.mpr fun n hn =>
      absurd (bounded cs n hn).1 (Nat.not_lt.mpr (h n hn))
  rw [none _ h, none [] fun n hn => by simpa using (bounded [] n hn).2]

theorem local_nameLength? : Local id nameLength? := by
  intro cs more found
  obtain _ | ⟨c, cs⟩ := cs
  · exact find_nil_eq bounded_nameLength? found
  by_cases mark : c = '_' ∨ c = '-'
  · obtain _ | ⟨c', cs⟩ := cs
    · -- One more letter would be found behind the text.
      cases more with
      | nil => rfl
      | cons c' more => by_cases alpha : c'.isAlpha <;> simp_all [nameLength?]
    · by_cases alpha : c'.isAlpha
      · simp only [List.cons_append, nameLength?] at found ⊢
        have letters : (cs ++ more).takeWhile isNameChar = cs.takeWhile isNameChar :=
          takeWhile_of_append fun _ => by simpa [mark, alpha] using found
        simp [mark, alpha, letters]
      · simp [nameLength?, mark, alpha]
  · by_cases alpha : c.isAlpha
    · simp only [List.cons_append, nameLength?] at found ⊢
      have letters : (cs ++ more).takeWhile isNameChar = cs.takeWhile isNameChar :=
        takeWhile_of_append fun _ => by simpa [mark, alpha] using found
      simp [mark, alpha, letters]
    · simp [nameLength?, mark, alpha]

theorem local_unsignedIntegerLength? : Local id unsignedIntegerLength? := by
  intro cs more found
  obtain _ | ⟨c, cs⟩ := cs
  · exact find_nil_eq bounded_unsignedIntegerLength? found
  by_cases zero : c = '0'
  · subst zero
    obtain _ | ⟨x, digits⟩ := cs
    · obtain _ | ⟨x, digits⟩ := more
      · rfl
      · simp only [List.cons_append, List.nil_append, unsignedIntegerLength?] at found ⊢
        split_ifs at found ⊢ <;> simp_all
    · simp only [List.cons_append, unsignedIntegerLength?] at found ⊢
      by_cases mark : x = 'x' ∨ x = 'X'
      · have hexadecimal : (digits ++ more).takeWhile isHexDigit = digits.takeWhile isHexDigit :=
          takeWhile_of_append fun some => by simpa [mark, some] using found
        have octal : isOctalDigit x = false := by rcases mark with rfl | rfl <;> decide
        simp [hexadecimal, octal]
      · have octal : (x :: digits ++ more).takeWhile isOctalDigit =
            (x :: digits).takeWhile isOctalDigit :=
          takeWhile_of_append fun _ => by simpa [mark] using found
        rw [List.cons_append] at octal
        simp [mark, octal]
  · by_cases digit : c.isDigit
    · simp only [List.cons_append, unsignedIntegerLength?, digit] at found ⊢
      have digits : (cs ++ more).takeWhile Char.isDigit = cs.takeWhile Char.isDigit :=
        takeWhile_of_append fun _ => by simpa using found
      simp [digits]
    · simp [unsignedIntegerLength?, digit]

/-- The digits of an exponent that is found in the first part of a text are all there. -/
theorem digits_of_append {cs more : List Char} {before : Nat}
    (h : ∀ n ∈ (match ((cs ++ more).takeWhile Char.isDigit).length with
      | 0 => none
      | n => some (n + before) : Option Nat), n ≤ cs.length + before) :
    (cs ++ more).takeWhile Char.isDigit = cs.takeWhile Char.isDigit := by
  refine takeWhile_of_append fun some => ?_
  obtain ⟨n, hn⟩ := Nat.exists_eq_succ_of_ne_zero some.ne'
  rw [hn] at h ⊢
  have bound := h (n + 1 + before) rfl
  omega

theorem two_le_of_exponentLength? {cs : List Char} {n : Nat} (h : exponentLength? cs = some n) :
    2 ≤ n := by
  obtain _ | ⟨e, _ | ⟨sign, digits⟩⟩ := cs
  · cases h
  · simp [exponentLength?] at h
  · simp only [exponentLength?] at h
    split_ifs at h <;> split at h <;> simp_all <;> omega

theorem local_exponentLength? : Local id exponentLength? := by
  intro cs more found
  obtain _ | ⟨e, cs⟩ := cs
  · exact find_nil_eq bounded_exponentLength? found
  by_cases mark : (decide (e = 'e') || decide (e = 'E')) = true
  · obtain _ | ⟨sign, digits⟩ := cs
    · have none : exponentLength? ([e] ++ more) = none :=
        Option.eq_none_iff_forall_not_mem.mpr fun n hn =>
          absurd (two_le_of_exponentLength? hn) (Nat.not_le.mpr (Nat.lt_succ_of_le (found n hn)))
      rw [none]
      simp [exponentLength?]
    · simp only [List.cons_append, exponentLength?, mark, if_true] at found ⊢
      by_cases isSigned : (decide (sign = '+') || decide (sign = '-')) = true
      · simp only [isSigned, if_true] at found ⊢
        have same : (digits ++ more).takeWhile Char.isDigit = digits.takeWhile Char.isDigit :=
          digits_of_append fun n hn => found n hn
        rw [same]
      · simp only [isSigned, Bool.false_eq_true, if_false] at found ⊢
        have same : (sign :: digits ++ more).takeWhile Char.isDigit =
            (sign :: digits).takeWhile Char.isDigit :=
          digits_of_append fun n hn => found n hn
        rw [← List.cons_append, same]
  · simp [exponentLength?, mark]

/-- The length of a number with `whole` digits before what is behind the point. -/
def fractionLength? (whole : Nat) (rest : List Char) : Option Nat :=
  let fraction := (rest.takeWhile Char.isDigit).length
  if whole + fraction = 0 then none
  else some (whole + 1 + fraction + (exponentLength? (rest.dropWhile Char.isDigit)).getD 0)

theorem unsignedDecimalLength?_of_point {cs rest : List Char}
    (h : cs.dropWhile Char.isDigit = '.' :: rest) :
    unsignedDecimalLength? cs = fractionLength? (cs.takeWhile Char.isDigit).length rest := by
  rw [unsignedDecimalLength?, h]
  rfl

theorem unsignedDecimalLength?_of_exponent {cs : List Char}
    (h : (cs.dropWhile Char.isDigit).head? ≠ some '.') :
    unsignedDecimalLength? cs = if (cs.takeWhile Char.isDigit).length = 0 then none
      else (exponentLength? (cs.dropWhile Char.isDigit)).map
        ((cs.takeWhile Char.isDigit).length + ·) := by
  rw [unsignedDecimalLength?]
  cases hd : cs.dropWhile Char.isDigit with
  | nil => rfl
  | cons c rest =>
    have point : c ≠ '.' := by simpa [hd] using h
    simp [point]

/-- A decimal number is more than its first digits. -/
theorem length_takeWhile_lt {cs : List Char} {n : Nat} (h : unsignedDecimalLength? cs = some n) :
    (cs.takeWhile Char.isDigit).length < n := by
  by_cases point : (cs.dropWhile Char.isDigit).head? = some '.'
  · obtain ⟨rest, hr⟩ := List.head?_eq_some_iff.mp point
    rw [unsignedDecimalLength?_of_point hr] at h
    simp only [fractionLength?] at h
    split_ifs at h
    obtain rfl := Option.some.inj h
    omega
  · rw [unsignedDecimalLength?_of_exponent point] at h
    split_ifs at h
    obtain ⟨m, hm, rfl⟩ := Option.map_eq_some_iff.mp h
    have positive := (bounded_exponentLength? _ _ hm).1
    omega

theorem fractionLength?_of_append {whole : Nat} {cs more : List Char}
    (h : ∀ n ∈ fractionLength? whole (cs ++ more), n ≤ whole + 1 + cs.length) :
    fractionLength? whole cs = fractionLength? whole (cs ++ more) := by
  have length := length_takeWhile_add Char.isDigit cs
  rcases run_append Char.isDigit cs more with ⟨-, taken, dropped⟩ | ⟨ends, all, taken, dropped⟩
  · simp only [fractionLength?, taken, dropped] at h ⊢
    split_ifs at h ⊢ with empty
    · rfl
    · have bound := h _ rfl
      rw [local_exponentLength? _ more]
      intro n hn
      rw [hn, Option.getD_some] at bound
      show n ≤ _
      omega
  · simp only [fractionLength?, taken, dropped, List.length_append] at h ⊢
    rw [ends, all]
    split_ifs at h ⊢ with empty empty'
    · rfl
    · have bound := h _ rfl
      omega
    · omega
    · have bound := h _ rfl
      have none : exponentLength? [] = none := rfl
      rw [none, Option.getD_none, Option.some_inj]
      omega

theorem local_unsignedDecimalLength? : Local id unsignedDecimalLength? := by
  intro cs more found
  have length := length_takeWhile_add Char.isDigit cs
  rcases run_append Char.isDigit cs more with ⟨behind, taken, dropped⟩ | ⟨ends, all, taken, dropped⟩
  · obtain ⟨c, rest, hc⟩ := List.exists_cons_of_ne_nil behind
    rw [hc, List.cons_append] at dropped
    rw [hc, List.length_cons] at length
    by_cases point : c = '.'
    · subst point
      rw [unsignedDecimalLength?_of_point dropped, taken] at found ⊢
      rw [unsignedDecimalLength?_of_point hc, fractionLength?_of_append]
      intro n hn
      have bound : n ≤ cs.length := found n hn
      omega
    · have other : ((cs ++ more).dropWhile Char.isDigit).head? ≠ some '.' := by
        simpa [dropped] using point
      have other' : (cs.dropWhile Char.isDigit).head? ≠ some '.' := by simpa [hc] using point
      rw [unsignedDecimalLength?_of_exponent other, taken, dropped] at found ⊢
      rw [unsignedDecimalLength?_of_exponent other', hc]
      split_ifs at found ⊢ with empty
      · rfl
      · rw [local_exponentLength? (c :: rest) more]
        · rfl
        · intro n hn
          have bound := found _ (Option.mem_map_of_mem _ hn)
          simp only [id, List.length_cons] at bound ⊢
          omega
  · -- Only digits are there, and more than these would be found.
    obtain _ | ⟨c, cs⟩ := cs
    · exact find_nil_eq bounded_unsignedDecimalLength? found
    have nothing : unsignedDecimalLength? (c :: cs) = none := by
      rw [unsignedDecimalLength?_of_exponent (by simp [ends]), ends]
      simp [exponentLength?]
    rw [nothing]
    refine (Option.eq_none_iff_forall_not_mem.mpr fun n hn => ?_).symm
    have bound : n ≤ (c :: cs).length := found n hn
    have longer := length_takeWhile_lt hn
    rw [taken, List.length_append] at longer
    omega

theorem Local.signed {number? : List Char → Option Nat} (h : Local id number?)
    (bounded : Bounded number?) : Local id (signed number?) := by
  intro cs more found
  obtain _ | ⟨c, cs⟩ := cs
  · exact find_nil_eq (bounded_signed bounded) found
  · by_cases minus : c = '-'
    · subst minus
      simp only [List.cons_append, Idl.signed] at found ⊢
      rw [h cs more fun n hn => ?_]
      simpa using found (n + 1) (by simpa using hn)
    · have same := h (c :: cs) more
      simp only [List.cons_append] at same
      simpa [Idl.signed, minus] using same (by simpa [Idl.signed, minus] using found)

theorem local_quotedLength? : Local id quotedLength? := by
  intro cs more found
  obtain _ | ⟨c, cs⟩ := cs
  · exact find_nil_eq bounded_quotedLength? found
  by_cases quote : c = '"'
  · subst quote
    simp only [List.cons_append, quotedLength?] at found ⊢
    have length := length_takeWhile_add (· != '"') cs
    rcases run_append (· != '"') cs more with ⟨behind, taken, -⟩ | ⟨ends, all, taken, -⟩
    · have shorter := List.length_pos_iff.mpr behind
      rw [taken, if_pos (by omega), if_pos (by rw [List.length_append]; omega)]
    · -- There is no closing quote, and one behind would be found.
      rw [all, if_neg (Nat.lt_irrefl _)]
      split_ifs at found ⊢
      · have bound := found _ rfl
        simp only [taken, List.length_append, List.length_cons, id] at bound
        omega
      · rfl
  · simp [quotedLength?, quote]

/-! ### Literals -/

/-- No literal that a text starts with is longer than the longest one. -/
theorem length_le_longestLiteral? {accepted : TerminalSet} {p : Terminal → Bool} {cs : List Char}
    {t : Terminal} {literal : String} (ht : t.literal? = some literal)
    (accepts : accepted.has t.code = true) (hp : p t = true)
    (starts : literal.toList.isPrefixOf cs = true) :
    literal.length ≤ (longestLiteral? accepted p cs).elim 0 Prod.snd := by
  obtain ⟨before, behind, all⟩ := List.append_of_mem t.mem_all
  rw [longestLiteral?, all, List.foldl_append, List.foldl_cons]
  refine List.foldlRecOn behind _
    (motive := fun best : Option (Terminal × Nat) => literal.length ≤ best.elim 0 Prod.snd) ?_
    fun best longer other _ => ?_
  · simp only [ht, accepts, hp, starts, Bool.and_self, Bool.true_and, decide_eq_true_eq]
    split_ifs with longer
    · exact Nat.le_refl _
    · exact Nat.le_of_not_lt longer
  · cases other.literal? with
    | none => exact longer
    | some literal' =>
      simp only
      split_ifs with found
      · simp only [Bool.and_eq_true, decide_eq_true_eq] at found
        exact longer.trans (Nat.le_of_lt found.2)
      · exact longer

theorem local_longestLiteral? (accepted : TerminalSet) (p : Terminal → Bool) :
    Local Prod.snd (longestLiteral? accepted p) := by
  intro cs more found
  refine longestLiteral?_congr fun t literal ht accepts hp => ?_
  rw [Bool.eq_iff_iff, List.isPrefixOf_iff_prefix, List.isPrefixOf_iff_prefix]
  refine ⟨fun starts => starts.trans (List.prefix_append cs more), fun starts => ?_⟩
  have shorter := length_le_longestLiteral? ht accepts hp (List.isPrefixOf_iff_prefix.mpr starts)
  refine List.prefix_of_prefix_length_le starts (List.prefix_append cs more) ?_
  rw [String.length_toList]
  cases longest : longestLiteral? accepted p (cs ++ more) with
  | none =>
    rw [longest] at shorter
    exact shorter.trans (Nat.zero_le _)
  | some best =>
    rw [longest] at shorter
    exact shorter.trans (found best longest)

/-! ### Tokens -/

theorem Local.orElse {α : Type} {extent : α → Nat} {find find' : List Char → Option α}
    (h : Local extent find) (h' : Local extent find') :
    Local extent fun cs => find cs <|> find' cs := by
  intro cs more found
  cases first : find (cs ++ more) with
  | some a =>
    simp only [first] at found ⊢
    rw [h cs more (by simpa [first] using found), first]
    rfl
  | none =>
    simp only [first] at found ⊢
    rw [h cs more (by simp [first]), first]
    exact h' cs more (by simpa using found)

theorem Local.ite {α : Type} {extent : α → Nat} {find : List Char → Option α} (c : Prop)
    [Decidable c] (h : Local extent find) : Local extent fun cs => if c then find cs else none := by
  intro cs more found
  split_ifs at found ⊢
  · exact h cs more found
  · rfl

/-- What is made of what is found may look at what is found. -/
theorem Local.map {α : Type} {extent : α → Nat} {length? : List Char → Option Nat}
    (h : Local id length?) (make : List Char → Nat → α)
    (length : ∀ spelling n, extent (make spelling n) = n) :
    Local extent fun cs => (length? cs).map fun n => make (cs.take n) n := by
  intro cs more found
  have same := h cs more fun n hn => by
    simpa [length] using found _ (Option.mem_map_of_mem _ hn)
  simp only [same]
  refine Option.map_congr fun n hn => ?_
  have bound : n ≤ cs.length := by simpa [length] using found _ (Option.mem_map_of_mem _ hn)
  rw [List.take_append_of_le_length bound]

theorem local_wordToken? (accepted : TerminalSet) : Local Prod.snd (wordToken? accepted) := by
  have decimal : Local id decimalLength? :=
    local_unsignedDecimalLength?.signed bounded_unsignedDecimalLength?
  have integer : Local id integerLength? :=
    local_unsignedIntegerLength?.signed bounded_unsignedIntegerLength?
  exact ((decimal.map (fun _ n => (Terminal.decimal, n)) fun _ _ => rfl).ite _).orElse
    (((integer.map (fun _ n => (Terminal.integer, n)) fun _ _ => rfl).ite _).orElse
      ((local_nameLength?.map
        (fun spelling n => ((keyword? accepted spelling).getD Terminal.identifier, n))
        fun _ _ => rfl).ite _))

theorem local_nextToken? (accepted : TerminalSet) : Local Prod.snd (nextToken? accepted) := by
  have quoted : Local Prod.snd fun cs => (quotedLength? cs).map fun n => (Terminal.string, n) :=
    local_quotedLength?.map (fun _ n => (Terminal.string, n)) fun _ _ => rfl
  rw [funext (nextToken?_eq_word accepted)]
  exact (local_wordToken? accepted).orElse
    ((quoted.ite _).orElse (local_longestLiteral? accepted _))

/-- The next token of a text does not depend on what is behind it. -/
theorem nextToken?_of_append {accepted : TerminalSet} {cs more : List Char} {t : Terminal} {n : Nat}
    (h : nextToken? accepted (cs ++ more) = some (t, n)) (bound : n ≤ cs.length) :
    nextToken? accepted cs = some (t, n) := by
  rw [local_nextToken? accepted cs more fun found hf => ?_, h]
  rw [h] at hf
  obtain rfl := Option.some.inj hf
  exact bound

/-- What is behind a text that starts with the next token may be replaced by nothing or layout. -/
theorem nextToken?_exchange {accepted : TerminalSet} {cs more more' : List Char} {t : Terminal}
    {n : Nat} (h : nextToken? accepted (cs ++ more) = some (t, n)) (bound : n ≤ cs.length)
    (hd : Delimits more') : nextToken? accepted (cs ++ more') = some (t, n) := by
  have alone := nextToken?_of_append h bound
  cases more' with
  | nil => rwa [List.append_nil]
  | cons s more' => exact nextToken?_append (List.mem_append_right marks (hd s rfl)) alone

end WebSpec.Idl
