import WebSpec.Proofs.Value.Tiling

/-!
# Texts that cannot be read

The reader blames a text as soon as it can and no sooner. A character is refused where no text that
goes on from it could be read, and what is before it is the beginning of one that can. A text that
only ends too early is itself such a beginning: what its last token lacks can be added, and the
fragment that is blamed is what there is of that token. There are no other faults.

Two facts are behind it. A token that has been begun can be brought to its end, whatever the reader
has read of it (`Holds.exists_completes`), and a refusal depends on nothing behind the refused
character (`run_of_step_eq_error`).
-/

namespace WebSpec.Value

namespace Reading

open Text (isBlank strip)

variable {r r' : Reading} {done pending cs : List Char} {ts ts' : List Token} {c : Char}
  {first position : Nat} {fault : Fault}

/-! ### Faults -/

theorem start_eq_error (h : start position c = .error fault) :
    fault = .unexpectedCharacter c position .between := by
  cases hk : symbolKind? c with
  | some kind =>
    rw [start_of_symbolKind? hk] at h
    cases h
  | none =>
    simp only [start, hk, refuse] at h
    split_ifs at h
    cases h
    rfl

theorem endBefore_eq_error {t : Token} (h : endBefore t position c = .error fault) :
    fault = .unexpectedCharacter c position .between := by
  unfold endBefore at h
  cases hs : start position c with
  | ok => simp [hs, Except.map] at h
  | error found =>
    rw [hs] at h
    cases h
    exact start_eq_error hs

/-- Any fault that is found before the end is that a character is refused. -/
theorem step_eq_error (h : r.step position c = .error fault) :
    ∃ mode, fault = .unexpectedCharacter c position mode := by
  cases r with
  | between => exact ⟨_, start_eq_error h⟩
  | _ =>
    simp only [step, refuse] at h
    split_ifs at h
    all_goals first
      | exact ⟨_, endBefore_eq_error h⟩
      | cases h
        exact ⟨_, rfl⟩

/-- A fault that is found at the end is that a token is not finished, and shows where it starts. -/
theorem Holds.finish_eq_error {source : List Char} (h : r.Holds first pending)
    (hf : r.finish source = .error fault) : r ≠ .between ∧
      fault = if r.mode = .ampersand ∨ r.mode = .bar then
        .unterminatedCombinator (String.ofList (source.drop first)) r.mode
      else .unterminatedToken (String.ofList (source.drop first)) r.mode := by
  cases h with
  | between | word => cases hf
  | _ =>
    cases hf
    exact ⟨Reading.noConfusion, rfl⟩

/-! ### Completions -/

theorem strip_push_ne_empty (text : String) (hc : ¬ isBlank c) : strip (text.push c) ≠ "" := by
  intro empty
  obtain ⟨before, behind, blank, blank', h⟩ := exists_strip (text.push c)
  have hm : c ∈ before ++ ((strip (text.push c)).toList ++ behind) := by simp [← h]
  simp only [empty, String.toList_empty, List.nil_append, List.mem_append] at hm
  exact hc (hm.elim (blank c) (blank' c))

/-- The characters bring a token to its end that the reader has read the others of. -/
structure Completes (r : Reading) (first : Nat) (pending more : List Char) (t : Token) : Prop where
  place : t.position = first
  spelled : t.IsSpelled (pending ++ more)
  run : ∀ source position, run source position r more = .ok [t]
  combinator : t.kind = .combinator ↔ r.mode = .ampersand ∨ r.mode = .bar

/-- Any token that has been begun can be brought to its end. -/
theorem Holds.exists_completes (h : r.Holds first pending) (inside : r ≠ .between) :
    ∃ more t, r.Completes first pending more t := by
  cases h with
  | between => exact absurd rfl inside
  | @word _ text =>
    have spelled : Token.IsSpelled ⟨.keyword, text, first⟩ text.toList := .exact
    exact ⟨[], _, rfl, by simpa using spelled, fun _ _ => rfl, by simp [mode]⟩
  | @quoted _ text =>
    exact ⟨['\''], ⟨.string, text, first⟩, rfl, .exact, fun _ _ => rfl, by simp [mode]⟩
  | @typeRef _ text =>
    -- The name may be missing so far, or consist of blanks.
    refine ⟨['a', '>'], ⟨.typeRef, strip (text.push 'a'), first⟩, rfl, ?_, fun _ position => ?_,
      by simp [mode]⟩
    · simpa using isSpelled_typeRef (text.push 'a') first
    · have nonblank : strip (text.push 'a') ≠ "" := strip_push_ne_empty text (by decide)
      have named : step (.typeRef first text) position 'a' =
          .ok ([], .typeRef first (text.push 'a')) := by simp [step]
      have closed : step (.typeRef first (text.push 'a')) (position + 1) '>' =
          .ok ([⟨.typeRef, strip (text.push 'a'), first⟩], .between) := by simp [step, nonblank]
      rw [run_cons_of_silent named, run_cons_of_step closed]
      rfl
  | @propertyRef _ text =>
    exact ⟨['\'', '>'], ⟨.propertyRef, text, first⟩, rfl, .exact, fun _ _ => rfl, by simp [mode]⟩
  | @propertyRefEnd _ text =>
    have spelled : Token.IsSpelled ⟨.propertyRef, text, first⟩
        ('<' :: '\'' :: (text.toList ++ ['\'', '>'])) := .exact
    exact ⟨['>'], _, rfl, by simpa using spelled, fun _ _ => rfl, by simp [mode]⟩
  | @range _ text =>
    have spelled : Token.IsSpelled ⟨.multiplierRange, text.push '\x7d', first⟩
        (text.push '\x7d').toList := .exact
    exact ⟨['\x7d'], _, rfl, by simpa using spelled, fun _ _ => rfl, by simp [mode]⟩
  | ampersand =>
    exact ⟨['&'], _, rfl, isSpelled_combinator .allOf _ rfl, fun _ _ => rfl, by simp [mode]⟩
  | bar =>
    exact ⟨['|'], _, rfl, isSpelled_combinator .anyOf _ rfl, fun _ _ => rfl, by simp [mode]⟩

/-- What has been read so far is the beginning of a text that can be read. -/
theorem exists_run_of_reached (h : r.Reached cs ts) :
    ∃ more last, ∀ source position, run source position r more = .ok last := by
  obtain ⟨_, _, -, -, holds⟩ := h.exists_holds
  by_cases inside : r = .between
  · exact ⟨[], [], fun _ _ => inside ▸ rfl⟩
  · obtain ⟨more, t, completes⟩ := holds.exists_completes inside
    exact ⟨more, [t], completes.run⟩

end Reading

/-! ### Faults of a text -/

/-- Every fault of the reader of tokens says what the reader was in the middle of. -/
theorem isSome_mode?_of_run {source cs : List Char} {position : Nat} {r : Reading} {fault : Fault}
    (h : r.run source position cs = .error fault) : fault.mode?.isSome := by
  induction cs generalizing position r with
  | nil => cases r <;> cases h <;> rfl
  | cons c cs ih =>
    rw [Reading.run] at h
    cases hs : r.step position c with
    | error found =>
      obtain ⟨mode, rfl⟩ := Reading.step_eq_error hs
      rw [hs] at h
      cases h
      rfl
    | ok read =>
      cases hr : Reading.run source (position + 1) read.2 cs with
      | error found =>
        simp only [hs, bind, Except.bind, hr] at h
        cases h
        exact ih hr
      | ok ts =>
        simp only [hs, bind, Except.bind, hr] at h
        cases h

/-- The character cannot stand where it does, whatever is behind it, and what is before it could go
on in another way. -/
structure IsHopeless (source : String) (c : Char) (i : Nat) (mode : Mode) : Prop where
  stands : source.toList[i]? = some c
  refused : ∀ other : String, other.toList.take (i + 1) = source.toList.take (i + 1) →
    tokens other = .error (.unexpectedCharacter c i mode)
  begins : ∃ more ts, tokens (String.ofList (source.toList.take i) ++ more) = .ok ts

/-- The text ends inside a token of which it has the fragment, and could go on with the rest of the
token. -/
structure IsUnfinished (source fragment : String) (t : Token) : Prop where
  continued : ∃ more ts, tokens (source ++ more) = .ok (ts ++ [t]) ∧
    t.IsSpelled (fragment.toList ++ more.toList)
  suffix : ∃ i : Nat, t.position = i ∧ fragment = String.ofList (source.toList.drop i)

/-- What a fault says about the text in which the reader finds it. -/
def Fault.Explains (source : String) : Fault → Prop
  | .unexpectedCharacter c i mode => IsHopeless source c i mode
  | .unterminatedToken fragment _ => ∃ t, t.kind ≠ .combinator ∧ IsUnfinished source fragment t
  | .unterminatedCombinator fragment _ =>
    ∃ t, t.kind = .combinator ∧ IsUnfinished source fragment t
  | _ => False

section

open Reading

variable {source : String} {r : Reading} {ts : List Token} {fault : Fault}

theorem tokens_append_of_advance (h : advance 0 .between source.toList = .ok (ts, r))
    {more : List Char} {last : List Token}
    (hm : ∀ whole position, run whole position r more = .ok last) :
    tokens (source ++ String.ofList more) = .ok (ts ++ last) := by
  rw [tokens, String.toList_append, String.toList_ofList, run_of_advance h, hm]
  rfl

theorem explains_of_step {before behind : List Char} {c : Char}
    (hs : source.toList = before ++ c :: behind) (h : advance 0 .between before = .ok (ts, r))
    (refused : r.step before.length c = .error fault) : fault.Explains source := by
  obtain ⟨mode, rfl⟩ := step_eq_error refused
  have taken : source.toList.take (before.length + 1) = before ++ [c] := by
    rw [hs, List.append_cons]
    exact List.take_left' (by simp)
  constructor
  · simp [hs]
  · intro other same
    have ho : before ++ c :: other.toList.drop (before.length + 1) = other.toList := by
      rw [← List.singleton_append, ← List.append_assoc, ← taken, ← same, List.take_append_drop]
    have hr := run_of_step_eq_error h (by rwa [Nat.zero_add]) other.toList
      (other.toList.drop (before.length + 1))
    rwa [ho] at hr
  · obtain ⟨more, last, hm⟩ := exists_run_of_reached (reached_of_advance h)
    have hb : String.ofList (source.toList.take before.length) = String.ofList before := by
      simp [hs]
    rw [hb]
    exact ⟨_, _, tokens_append_of_advance (by rwa [String.toList_ofList]) hm⟩

theorem explains_of_finish (h : advance 0 .between source.toList = .ok (ts, r))
    (hf : r.finish source.toList = .error fault) : fault.Explains source := by
  obtain ⟨done, pending, hs, -, holds⟩ := (reached_of_advance h).exists_holds
  obtain ⟨inside, rfl⟩ := holds.finish_eq_error hf
  obtain ⟨more, t, completes⟩ := holds.exists_completes inside
  have rest : source.toList.drop done.length = pending := by simp [hs]
  have unfinished : IsUnfinished source (String.ofList (source.toList.drop done.length)) t :=
    { continued := ⟨String.ofList more, ts, tokens_append_of_advance h completes.run, by
        simpa [rest] using completes.spelled⟩
      suffix := ⟨done.length, completes.place, rfl⟩ }
  split_ifs with combinator
  · exact ⟨t, completes.combinator.mpr combinator, unfinished⟩
  · exact ⟨t, mt completes.combinator.mp combinator, unfinished⟩

end

/-- Whatever fault the reader finds is as it says. -/
theorem explains_of_tokens {source : String} {fault : Fault} (h : tokens source = .error fault) :
    fault.Explains source := by
  cases ha : Reading.advance 0 .between source.toList with
  | error found =>
    obtain ⟨before, c, behind, ts, r, hs, hb, refused⟩ := Reading.exists_of_advance_eq_error ha
    have same : tokens source = .error found := by
      rw [tokens, hs, Reading.run_of_step_eq_error hb refused]
    obtain rfl : found = fault := Except.error.inj (same.symm.trans h)
    exact explains_of_step hs hb (by rwa [Nat.zero_add] at refused)
  | ok read =>
    have hr := Reading.run_of_advance ha source.toList []
    rw [List.append_nil, ← tokens, h, Reading.run] at hr
    cases hf : read.2.finish source.toList with
    | ok => simp [hf, Except.map] at hr
    | error found =>
      obtain rfl : fault = found := by simpa [hf, Except.map] using hr
      exact explains_of_finish ha hf

theorem explains_of_tokens_half :
    tokens "a & b" = .error (.unexpectedCharacter ' ' 3 .ampersand) ∧
      IsHopeless "a & b" ' ' 3 .ampersand ∧
    tokens "a <'b" = .error (.unterminatedToken "<'b" .propertyRef) ∧
      ∃ t, t.kind ≠ .combinator ∧ IsUnfinished "a <'b" "<'b" t :=
  ⟨rfl, @explains_of_tokens "a & b" _ rfl, rfl, @explains_of_tokens "a <'b" _ rfl⟩

end WebSpec.Value
