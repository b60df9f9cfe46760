import WebSpec.Proofs.Idl.TokenText

/-!
# Underscores in front of names

A name that is found in a text may be written with an underscore in front of it. The token before
it is found as before, whatever it is: no number and no literal goes on at an underscore, and a name
that did would have gone on at the letter, too (`nextToken?_underscore`). With its underscore the
name is a name wherever it was one, since no keyword begins so (`nextToken?_escaped`).
-/

namespace WebSpec.Idl

open ContextFree (TerminalSet)

variable {cs more more' : List Char} {a : Char}

theorem endsNumber_underscore : EndsNumber '_' := by
  unfold EndsNumber
  decide

/-- No literal has an underscore. -/
theorem Terminal.underscore_notMem {t : Terminal} {literal : String}
    (h : t.literal? = some literal) : '_' ∉ literal.toList := by
  have all : ∀ t ∈ Terminal.all, ∀ literal ∈ t.literal?, '_' ∉ literal.toList := by
    decide +kernel
  exact all t t.mem_all literal h

/-- A name that takes up all of a text goes on at a character that may be in a name. -/
theorem nameLength?_nameChar (all : nameLength? cs = some cs.length) (ha : isNameChar a = true)
    (more : List Char) : ∃ n, nameLength? (cs ++ a :: more) = some n ∧ cs.length < n := by
  have run (front : List Char) (all : (front.takeWhile isNameChar).length = front.length) :
      front.length < ((front ++ a :: more).takeWhile isNameChar).length := by
    rcases run_append isNameChar front (a :: more) with ⟨behind, -⟩ | ⟨-, -, same, -⟩
    · have short := length_takeWhile_add isNameChar front
      have filled := List.length_pos_iff.mpr behind
      omega
    · simp [same, ha]
  obtain _ | ⟨c, cs⟩ := cs
  · cases all
  by_cases mark : (decide (c = '_') || decide (c = '-')) = true
  · obtain _ | ⟨c', cs⟩ := cs
    · simp [nameLength?, mark] at all
    · by_cases alpha : c'.isAlpha
      · have longer := run cs (by simpa [nameLength?, mark, alpha] using all)
        refine ⟨((cs ++ a :: more).takeWhile isNameChar).length + 2, ?_, ?_⟩
        · simp [nameLength?, mark, alpha]
        · simpa using longer
      · simp [nameLength?, mark, alpha] at all
  · by_cases alpha : c.isAlpha
    · have longer := run cs (by simpa [nameLength?, mark, alpha] using all)
      refine ⟨((cs ++ a :: more).takeWhile isNameChar).length + 1, ?_, ?_⟩
      · simp [nameLength?, mark, alpha]
      · simpa using longer
    · simp [nameLength?, mark, alpha] at all

/-- A name that does not end where a text does ends before an underscore. -/
theorem nameLength?_underscore (filled : cs ≠ []) (ends : nameLength? cs ≠ some cs.length)
    (more : List Char) : nameLength? (cs ++ '_' :: more) = nameLength? cs := by
  have run (front : List Char) (stops : (front.takeWhile isNameChar).length ≠ front.length) :
      (front ++ '_' :: more).takeWhile isNameChar = front.takeWhile isNameChar := by
    rcases run_append isNameChar front ('_' :: more) with ⟨-, same, -⟩ | ⟨-, all, -⟩
    · exact same
    · exact absurd (congrArg List.length all) stops
  obtain ⟨c, cs, rfl⟩ := List.exists_cons_of_ne_nil filled
  by_cases mark : (decide (c = '_') || decide (c = '-')) = true
  · obtain _ | ⟨c', cs⟩ := cs
    · simp [nameLength?, mark]
    · by_cases alpha : c'.isAlpha
      · have stops : (cs.takeWhile isNameChar).length ≠ cs.length := by
          simpa [nameLength?, mark, alpha] using ends
        simp [nameLength?, mark, alpha, run cs stops]
      · simp [nameLength?, mark, alpha]
  · by_cases alpha : c.isAlpha
    · have stops : (cs.takeWhile isNameChar).length ≠ cs.length := by
        simpa [nameLength?, mark, alpha] using ends
      simp [nameLength?, mark, alpha, run cs stops]
    · simp [nameLength?, mark, alpha]

/-- Where a name begins with a letter, it has no mark in front. -/
theorem isName_of_isIdentifier (h : isIdentifier cs = true) (head : a ∈ cs.head?)
    (ha : a.isAlpha = true) : isName cs = true := by
  obtain ⟨others, rfl⟩ := List.head?_eq_some_iff.mp head
  have plain : ¬(a = '_' ∨ a = '-') := by
    rintro (rfl | rfl) <;> cases ha
  simpa [isIdentifier, plain] using h

section Tokens

variable {accepted : TerminalSet} {t : Terminal} {n : Nat}

/-- Where no token goes on at a letter, no word goes on at an underscore. -/
theorem wordToken?_underscore (filled : cs ≠ []) (ha : a.isAlpha = true)
    (bound : ∀ found ∈ wordToken? accepted (cs ++ a :: more), found.2 ≤ cs.length) :
    wordToken? accepted (cs ++ '_' :: more') = wordToken? accepted cs := by
  have name (named : accepted.has Terminal.identifier.code = true) :
      nameLength? (cs ++ '_' :: more') = nameLength? cs := by
    refine nameLength?_underscore filled (fun all => ?_) more'
    have inside : isNameChar a = true := by simp [isNameChar, Char.isAlphanum, ha]
    obtain ⟨n, found, longer⟩ := nameLength?_nameChar all inside more
    have spelled : isIdentifier cs = true := by simpa using isIdentifier_take all
    obtain ⟨decimal, integer⟩ := numberLength?_eq_none
      (startsNoNumber_append (startsNoNumber_of_isIdentifier spelled) (a :: more))
    have word : wordToken? accepted (cs ++ a :: more) =
        some ((keyword? accepted ((cs ++ a :: more).take n)).getD .identifier, n) := by
      simp [wordToken?, decimal, integer, named, found]
    exact absurd (bound _ word) (Nat.not_le.mpr longer)
  rw [wordToken?, wordToken?, decimalLength?_append_end endsNumber_underscore,
    integerLength?_append_end endsNumber_underscore]
  by_cases named : accepted.has Terminal.identifier.code = true
  · rw [name named]
    cases found : nameLength? cs with
    | none => rfl
    | some n =>
      simp only [Option.map_some, List.take_append_of_le_length (bounded_nameLength? _ _ found).2]
  · simp only [if_neg named]

/-- The token before a letter is found before an underscore. -/
theorem nextToken?_underscore (ha : a.isAlpha = true)
    (h : nextToken? accepted (cs ++ a :: more) = some (t, n)) (bound : n ≤ cs.length) :
    nextToken? accepted (cs ++ '_' :: more') = some (t, n) := by
  have filled : cs ≠ [] :=
    List.ne_nil_of_length_pos (Nat.lt_of_lt_of_le (nextToken?_spec h).2.1 bound)
  have word : ∀ found ∈ wordToken? accepted (cs ++ a :: more), found.2 ≤ cs.length := by
    intro found hf
    rw [nextToken?_eq_word, Option.mem_def.mp hf] at h
    obtain rfl : found = (t, n) := by simpa using h
    exact bound
  exact nextToken?_append_of_word (wordToken?_underscore filled ha word)
    (fun _ _ ht => isPrefixOf_append_cons (Terminal.underscore_notMem ht))
    (nextToken?_of_append h bound)

/-- Behind a name that is found there is nothing that may be in a name. -/
theorem not_isNameChar_of_nameLength? {name rest : List Char}
    (h : nameLength? (name ++ rest) = some name.length) :
    ∀ c ∈ rest.head?, isNameChar c = false := by
  intro c hc
  obtain ⟨others, rfl⟩ := List.head?_eq_some_iff.mp hc
  have alone : nameLength? name = some name.length := by
    rw [local_nameLength? name (c :: others) (by simp [h]), h]
  by_contra inside
  obtain ⟨n, found, longer⟩ := nameLength?_nameChar alone (by simpa using inside) others
  rw [h] at found
  obtain rfl := Option.some.inj found
  exact absurd longer (Nat.lt_irrefl _)

/-- A name with an underscore in front of it is found as one. -/
theorem nextToken?_escaped {name rest : List Char} (hn : isName name = true)
    (named : accepted.has Terminal.identifier.code = true)
    (stop : ∀ c ∈ rest.head?, isNameChar c = false) :
    nextToken? accepted ('_' :: (name ++ rest)) = some (.identifier, name.length + 1) := by
  obtain _ | ⟨first, others⟩ := name
  · cases hn
  obtain ⟨alpha, all⟩ := Bool.and_eq_true_iff.mp hn
  have run := takeWhile_run (List.all_eq_true.mp all) stop
  have length : nameLength? ('_' :: (first :: others ++ rest)) =
      some ((first :: others).length + 1) := by
    simp [nameLength?, alpha, run]
  rw [nextToken?_eq (by rfl), if_pos named, length, Option.map_some, List.take_succ_cons,
    keyword?_escaped]
  rfl

end Tokens

end WebSpec.Idl
