import Mathlib.Data.List.TakeWhile
import WebSpec.Proofs.Idl.Lexeme

/-!
# Texts behind a separator

No name, no number and no literal goes on at a separator, which is a mark or a character that layout
starts with. So more text may be put behind a token and such a character without changing what the
next token is (`nextToken?_append`). A mark is a token of its own, whatever stands behind it
(`nextToken?_mark`).
-/

namespace WebSpec.Idl

open ContextFree (TerminalSet)

/-! ### Separators -/

/-- The characters that are a literal each. -/
def marks : List Char :=
  ['?', ':', ',', '=', '\x7b', '\x7d', '(', ')', '[', ']', '<', '>', ';', '*']

/-- The characters that end names, numbers and literals. -/
def separators : List Char :=
  marks ++ delimiters

section Runs

variable {s : Char} {p : Char → Bool}

theorem takeWhile_separator (hp : p s = false) (cs more : List Char) :
    (cs ++ s :: more).takeWhile p = cs.takeWhile p := by
  induction cs with
  | nil => simp [hp]
  | cons c cs ih => simp only [List.cons_append, List.takeWhile_cons, ih]

theorem dropWhile_separator (hp : p s = false) (cs more : List Char) :
    (cs ++ s :: more).dropWhile p = cs.dropWhile p ++ s :: more := by
  induction cs with
  | nil => simp [hp]
  | cons c cs ih =>
    simp only [List.cons_append, List.dropWhile_cons, ih]
    split <;> rfl

end Runs

/-- What separators have in common. -/
theorem separator_spec {s : Char} (hs : s ∈ separators) :
    (isNameChar s = false ∧ s.isAlpha = false ∧ s.isDigit = false ∧ isOctalDigit s = false ∧
      isHexDigit s = false) ∧ s ∉ ['-', '_', '.', '+', '"', 'x', 'X', 'e', 'E', '0'] := by
  have all : (separators.all fun s => decide ((isNameChar s = false ∧ s.isAlpha = false ∧
      s.isDigit = false ∧ isOctalDigit s = false ∧ isHexDigit s = false) ∧
      s ∉ ['-', '_', '.', '+', '"', 'x', 'X', 'e', 'E', '0'])) = true := by decide +kernel
  exact of_decide_eq_true (List.all_eq_true.mp all s hs)

/-- No mark stands in another literal. -/
theorem Terminal.literal_of_mark {t : Terminal} {literal : String} (ht : t.literal? = some literal)
    {m : Char} (hm : m ∈ marks) (inside : m ∈ literal.toList) : literal.toList = [m] := by
  have all : (Terminal.all.all fun t => t.literal?.all fun literal =>
      literal.toList.all fun c => !marks.contains c || literal.toList == [c]) = true := by
    decide +kernel
  have single := List.all_eq_true.mp all t t.mem_all
  simp only [ht, Option.all_some, List.all_eq_true] at single
  simpa [hm] using single m inside

/-- No number goes on at the character. -/
def EndsNumber (s : Char) : Prop :=
  (s.isDigit = false ∧ isOctalDigit s = false ∧ isHexDigit s = false) ∧
    s ∉ ['-', '.', '+', 'x', 'X', 'e', 'E', '0']

theorem endsNumber_of_separator {s : Char} (hs : s ∈ separators) : EndsNumber s := by
  obtain ⟨⟨-, -, digits⟩, apart⟩ := separator_spec hs
  refine ⟨digits, fun mark => apart ?_⟩
  simp only [List.mem_cons, List.not_mem_nil, or_false] at mark ⊢
  tauto

theorem nameLength?_separator {s : Char} (hs : s ∈ separators) (cs more : List Char) :
    nameLength? (cs ++ s :: more) = nameLength? cs := by
  obtain ⟨⟨name, alpha, -⟩, apart⟩ := separator_spec hs
  simp only [List.mem_cons, List.not_mem_nil, or_false, not_or] at apart
  obtain _ | ⟨c, cs⟩ := cs
  · simp [nameLength?, alpha, apart]
  obtain _ | ⟨c', cs⟩ := cs
  · simp [nameLength?, alpha, name]
  · simp [nameLength?, takeWhile_separator name, List.takeWhile_cons]

section Numbers

variable {s : Char} (hs : EndsNumber s) (cs more : List Char)
include hs

theorem unsignedIntegerLength?_append_end :
    unsignedIntegerLength? (cs ++ s :: more) = unsignedIntegerLength? cs := by
  obtain ⟨⟨digit, octal, hex⟩, apart⟩ := hs
  simp only [List.mem_cons, List.not_mem_nil, or_false, not_or] at apart
  obtain _ | ⟨c, cs⟩ := cs
  · exact unsignedIntegerLength?_eq_none digit
  by_cases zero : c = '0'
  · subst zero
    obtain _ | ⟨x, cs⟩ := cs
    · simp [unsignedIntegerLength?, octal, apart]
    · simp only [List.cons_append, unsignedIntegerLength?, takeWhile_separator hex,
        takeWhile_separator octal, List.takeWhile_cons]
  · simp [unsignedIntegerLength?, takeWhile_separator digit]

theorem exponentLength?_append_end : exponentLength? (cs ++ s :: more) = exponentLength? cs := by
  obtain ⟨⟨digit, -⟩, apart⟩ := hs
  simp only [List.mem_cons, List.not_mem_nil, or_false, not_or] at apart
  obtain _ | ⟨c, cs⟩ := cs
  · simp [exponentLength?, apart]
  obtain _ | ⟨c', cs⟩ := cs
  · simp [exponentLength?, apart, digit]
  · simp [exponentLength?, takeWhile_separator digit, List.takeWhile_cons]

theorem unsignedDecimalLength?_append_end :
    unsignedDecimalLength? (cs ++ s :: more) = unsignedDecimalLength? cs := by
  have exponent := exponentLength?_append_end hs
  obtain ⟨⟨digit, -⟩, apart⟩ := hs
  simp only [List.mem_cons, List.not_mem_nil, or_false, not_or] at apart
  rw [unsignedDecimalLength?, unsignedDecimalLength?, takeWhile_separator digit,
    dropWhile_separator digit]
  cases cs.dropWhile Char.isDigit with
  | nil =>
    simp [apart, exponentLength?]
  | cons c rest =>
    by_cases point : c = '.'
    · subst point
      simp [takeWhile_separator digit, dropWhile_separator digit, exponent]
    · have same := exponent (c :: rest) more
      simp only [List.cons_append] at same
      simp [point, same]

theorem signed_append_end {number? : List Char → Option Nat}
    (unsigned : ∀ cs, number? (cs ++ s :: more) = number? cs) :
    signed number? (cs ++ s :: more) = signed number? cs := by
  have apart := hs.2
  obtain _ | ⟨c, cs⟩ := cs
  · have minus : s ≠ '-' := fun same => apart (by simp [same])
    have none : number? (s :: more) = number? [] := unsigned []
    simpa [signed, minus] using none
  · by_cases minus : c = '-'
    · subst minus
      simp [signed, unsigned]
    · have same := unsigned (c :: cs)
      simp only [List.cons_append] at same
      simp [signed, minus, same]

theorem decimalLength?_append_end : decimalLength? (cs ++ s :: more) = decimalLength? cs :=
  signed_append_end hs cs more fun cs => unsignedDecimalLength?_append_end hs cs more

theorem integerLength?_append_end : integerLength? (cs ++ s :: more) = integerLength? cs :=
  signed_append_end hs cs more fun cs => unsignedIntegerLength?_append_end hs cs more

end Numbers

/-! ### Lengths -/

/-- What is found at the start of a text is some of the text. -/
def Bounded (length? : List Char → Option Nat) : Prop :=
  ∀ cs n, length? cs = some n → 0 < n ∧ n ≤ cs.length

theorem bounded_signed {number? : List Char → Option Nat} (h : Bounded number?) :
    Bounded (signed number?) := by
  intro cs n found
  unfold signed at found
  split at found
  · obtain ⟨m, hm, rfl⟩ := Option.map_eq_some_iff.mp found
    have bound := h _ _ hm
    simp only [List.length_cons]
    omega
  · exact h _ _ found

theorem length_takeWhile_add (p : Char → Bool) (cs : List Char) :
    (cs.takeWhile p).length + (cs.dropWhile p).length = cs.length := by
  rw [← List.length_append, List.takeWhile_append_dropWhile]

theorem bounded_nameLength? : Bounded nameLength? := by
  intro cs n found
  obtain _ | ⟨c, cs⟩ := cs
  · cases found
  have letters := length_takeWhile_add isNameChar cs
  simp only [nameLength?] at found
  split_ifs at found
  · obtain ⟨m, hm, rfl⟩ := Option.map_eq_some_iff.mp found
    obtain _ | ⟨c', cs⟩ := cs
    · cases hm
    have letters := length_takeWhile_add isNameChar cs
    simp only at hm
    split_ifs at hm
    obtain rfl := Option.some.inj hm
    simp only [List.length_cons]
    omega
  · obtain rfl := Option.some.inj found
    simp only [List.length_cons]
    omega

theorem bounded_unsignedIntegerLength? : Bounded unsignedIntegerLength? := by
  intro cs n found
  unfold unsignedIntegerLength? at found
  split at found
  · rename_i rest
    have octal := length_takeWhile_add isOctalDigit rest
    split at found
    · rename_i x digits
      have hexadecimal := length_takeWhile_add isHexDigit digits
      simp only [List.length_cons] at octal found ⊢
      split_ifs at found <;> obtain rfl := Option.some.inj found <;> omega
    · obtain rfl := Option.some.inj found
      simp
  · rename_i c rest _
    have decimal := length_takeWhile_add Char.isDigit rest
    split_ifs at found
    obtain rfl := Option.some.inj found
    simp only [List.length_cons]
    omega
  · cases found

theorem bounded_exponentLength? : Bounded exponentLength? := by
  intro cs n found
  obtain _ | ⟨e, rest⟩ := cs
  · cases found
  simp only [exponentLength?] at found
  split_ifs at found
  obtain _ | ⟨sign, digits⟩ := rest
  · cases found
  have signed := length_takeWhile_add Char.isDigit digits
  have plain := length_takeWhile_add Char.isDigit (sign :: digits)
  simp only [List.length_cons] at plain found ⊢
  split_ifs at found <;> split at found <;> simp only [reduceCtorEq, Option.some.injEq] at found <;>
    omega

theorem bounded_unsignedDecimalLength? : Bounded unsignedDecimalLength? := by
  intro cs n found
  have split' := length_takeWhile_add Char.isDigit cs
  unfold unsignedDecimalLength? at found
  split at found
  · rename_i rest behind
    have fraction := length_takeWhile_add Char.isDigit rest
    simp only [behind, List.length_cons] at split'
    simp only at found
    split_ifs at found
    obtain rfl := Option.some.inj found
    cases he : exponentLength? (rest.dropWhile Char.isDigit) with
    | none => simp only [Option.getD_none]; omega
    | some m =>
      have bound := (bounded_exponentLength? _ _ he).2
      simp only [Option.getD_some]
      omega
  · simp only at found
    split_ifs at found
    obtain ⟨m, he, rfl⟩ := Option.map_eq_some_iff.mp found
    have bound := (bounded_exponentLength? _ _ he).2
    omega

theorem bounded_quotedLength? : Bounded quotedLength? := by
  intro cs n found
  unfold quotedLength? at found
  split at found
  · rename_i rest
    simp only at found
    split_ifs at found with closed
    obtain rfl := Option.some.inj found
    simp only [List.length_cons]
    omega
  · cases found

/-! ### Words -/

/-- The number or name at the start of a text. -/
def wordToken? (accepted : TerminalSet) (cs : List Char) : Option (Terminal × Nat) :=
  (if accepted.has Terminal.decimal.code then
      (decimalLength? cs).map fun n => (Terminal.decimal, n)
    else none) <|>
  (if accepted.has Terminal.integer.code then
      (integerLength? cs).map fun n => (Terminal.integer, n)
    else none) <|>
  if accepted.has Terminal.identifier.code then
    (nameLength? cs).map fun n => ((keyword? accepted (cs.take n)).getD Terminal.identifier, n)
  else none

section Words

variable {accepted : TerminalSet} {cs : List Char} {t : Terminal} {n : Nat}

theorem nextToken?_eq_word (accepted : TerminalSet) (cs : List Char) :
    nextToken? accepted cs =
      (wordToken? accepted cs <|>
      (if accepted.has Terminal.string.code then
          (quotedLength? cs).map fun n => (Terminal.string, n)
        else none) <|>
      longestLiteral? accepted
        (fun t => !(accepted.has Terminal.identifier.code && t.isKeyword)) cs) := by
  simp only [nextToken?, wordToken?]
  split_ifs <;> simp [Option.or_assoc, Function.comp_def]

theorem wordToken?_separator {s : Char} (hs : s ∈ separators) (cs more : List Char) :
    wordToken? accepted (cs ++ s :: more) = wordToken? accepted cs := by
  have ends := endsNumber_of_separator hs
  rw [wordToken?, wordToken?, decimalLength?_append_end ends, integerLength?_append_end ends,
    nameLength?_separator hs]
  cases name : nameLength? cs with
  | none => rfl
  | some n =>
    have bound := (bounded_nameLength? _ _ name).2
    simp only [Option.map_some, List.take_append_of_le_length bound]

theorem keyword?_spec {spelling : List Char} (h : keyword? accepted spelling = some t) :
    accepted.has t.code = true ∧ ∃ literal, t.literal? = some literal ∧
      spelling = literal.toList := by
  have found := List.find?_some h
  simp only [Bool.and_eq_true, decide_eq_true_eq, Option.map_eq_some_iff] at found
  obtain ⟨⟨-, accepts⟩, literal, hl, same⟩ := found
  exact ⟨accepts, literal, hl, same.symm⟩

theorem wordToken?_spec (h : wordToken? accepted cs = some (t, n)) :
    accepted.has t.code = true ∧ 0 < n ∧ n ≤ cs.length ∧
      (t ∈ [.decimal, .integer, .identifier] ∨
        ∃ literal, t.literal? = some literal ∧ cs.take n = literal.toList) := by
  simp only [wordToken?, Option.orElse_eq_orElse, Option.orElse_eq_or, Option.or_eq_some_iff,
    Option.ite_none_right_eq_some, Option.map_eq_some_iff, Prod.mk.injEq] at h
  rcases h with ⟨accepts, n, found, rfl, rfl⟩ | ⟨-, ⟨accepts, n, found, rfl, rfl⟩ |
    ⟨-, accepts, n, found, ht, rfl⟩⟩
  · have bound := bounded_signed bounded_unsignedDecimalLength? _ _ found
    exact ⟨accepts, bound.1, bound.2, .inl (by simp)⟩
  · have bound := bounded_signed bounded_unsignedIntegerLength? _ _ found
    exact ⟨accepts, bound.1, bound.2, .inl (by simp)⟩
  · have bound := bounded_nameLength? _ _ found
    cases hk : keyword? accepted (cs.take n) with
    | none =>
      rw [hk] at ht
      obtain rfl := ht
      exact ⟨accepts, bound.1, bound.2, .inl (by simp)⟩
    | some keyword =>
      rw [hk] at ht
      obtain rfl := ht
      obtain ⟨accepts, literal, hl, same⟩ := keyword?_spec hk
      exact ⟨accepts, bound.1, bound.2, .inr ⟨literal, hl, same⟩⟩

theorem longestLiteral?_spec {p : Terminal → Bool}
    (h : longestLiteral? accepted p cs = some (t, n)) :
    accepted.has t.code = true ∧ 0 < n ∧ n ≤ cs.length ∧
      ∃ literal, t.literal? = some literal ∧ cs.take n = literal.toList := by
  refine List.foldlRecOn Terminal.all _ (motive := fun best => best = some (t, n) → _)
    (fun h => by cases h) (fun best hb other _ h => ?_) h
  cases ho : other.literal? with
  | none =>
    simp only [ho] at h
    exact hb h
  | some literal =>
    simp only [ho] at h
    split_ifs at h with found
    · simp only [Bool.and_eq_true, decide_eq_true_eq] at found
      obtain ⟨⟨⟨accepts, -⟩, starts⟩, longer⟩ := found
      obtain ⟨rfl, rfl⟩ := Prod.mk.inj (Option.some.inj h)
      have starts := List.isPrefixOf_iff_prefix.mp starts
      rw [← String.length_toList]
      refine ⟨accepts, ?_, starts.length_le, literal, ho, ?_⟩
      · rw [String.length_toList]
        omega
      · exact (List.prefix_iff_eq_take.mp starts).symm
    · exact hb h

/-- Only which of the accepted literals a text starts with matters for the longest one. -/
theorem longestLiteral?_congr {p : Terminal → Bool} {cs' : List Char}
    (h : ∀ (t : Terminal) literal, t.literal? = some literal → accepted.has t.code = true →
      p t = true → literal.toList.isPrefixOf cs' = literal.toList.isPrefixOf cs) :
    longestLiteral? accepted p cs' = longestLiteral? accepted p cs := by
  unfold longestLiteral?
  congr
  funext best t
  cases ht : t.literal? with
  | none => rfl
  | some literal =>
    by_cases looked : accepted.has t.code = true ∧ p t = true
    · simp only [h t literal ht looked.1 looked.2]
    · have looked : (accepted.has t.code && p t) = false := by simpa using looked
      simp only [looked, Bool.false_and]

end Words

/-! ### Quoted texts -/

/-- A text starts with a quoted one. -/
theorem quotedLength?_eq_some_iff {cs : List Char} {n : Nat} :
    quotedLength? cs = some n ↔ ∃ content rest, '"' ∉ content ∧
      cs = '"' :: (content ++ '"' :: rest) ∧ n = content.length + 2 := by
  constructor
  · intro h
    unfold quotedLength? at h
    split at h
    · rename_i rest
      simp only at h
      split_ifs at h with closed
      obtain rfl := Option.some.inj h
      have whole := List.takeWhile_append_dropWhile (p := (· != '"')) (l := rest)
      cases hb : rest.dropWhile (· != '"') with
      | nil =>
        rw [hb, List.append_nil] at whole
        rw [whole] at closed
        exact absurd closed (Nat.lt_irrefl _)
      | cons c behind =>
        have quote := List.head_dropWhile_not (· != '"') (l := rest) (by simp [hb])
        simp only [hb, List.head_cons, bne_eq_false_iff_eq] at quote
        subst quote
        refine ⟨rest.takeWhile (· != '"'), behind, fun inside => ?_, ?_, rfl⟩
        · simpa using List.mem_takeWhile_imp inside
        · rw [← hb, whole]
    · cases h
  · rintro ⟨content, rest, clean, rfl, rfl⟩
    exact quotedLength?_append clean

/-! ### Tokens -/

section Tokens

variable {accepted : TerminalSet} {cs more : List Char} {t : Terminal} {n : Nat}

/-- What a token is: its terminal is accepted, and it is some of the text, as it is spelled. -/
theorem nextToken?_spec (h : nextToken? accepted cs = some (t, n)) :
    accepted.has t.code = true ∧ 0 < n ∧ n ≤ cs.length ∧
      (t ∈ [.decimal, .integer, .identifier, .string] ∨
        ∃ literal, t.literal? = some literal ∧ cs.take n = literal.toList) := by
  rw [nextToken?_eq_word] at h
  simp only [Option.orElse_eq_orElse, Option.orElse_eq_or, Option.or_eq_some_iff,
    Option.ite_none_right_eq_some, Option.map_eq_some_iff, Prod.mk.injEq] at h
  rcases h with word | ⟨-, ⟨accepts, n, found, rfl, rfl⟩ | ⟨-, literal⟩⟩
  · obtain ⟨accepts, positive, bound, spelled⟩ := wordToken?_spec word
    exact ⟨accepts, positive, bound, spelled.imp_left fun plain => by
      simp only [List.mem_cons] at plain ⊢; tauto⟩
  · have bound := bounded_quotedLength? _ _ found
    exact ⟨accepts, bound.1, bound.2, .inl (by simp)⟩
  · obtain ⟨accepts, positive, bound, spelled⟩ := longestLiteral?_spec literal
    exact ⟨accepts, positive, bound, .inr spelled⟩

/-- No text spells the end of the input. -/
theorem nextToken?_ne_endOfInput (h : nextToken? accepted cs = some (t, n)) : t ≠ .endOfInput := by
  rintro rfl
  obtain ⟨-, -, -, plain | ⟨literal, hl, -⟩⟩ := nextToken?_spec h
  · simp at plain
  · cases hl

/-- A prefix of a text with a character behind it ends before that character or goes on at it. -/
theorem prefix_append_cons {l : List Char} {s : Char} (h : l <+: cs ++ s :: more) :
    l <+: cs ∨ ∃ behind, l = cs ++ s :: behind := by
  obtain ⟨tail, same⟩ := h
  rcases List.append_eq_append_iff.mp same with ⟨rest, rfl, -⟩ | ⟨rest, rfl, behind⟩
  · exact .inl (List.prefix_append _ _)
  · cases rest with
    | nil => exact .inl (by simp)
    | cons c rest =>
      obtain ⟨rfl, -⟩ := List.cons.inj behind
      exact .inr ⟨rest, rfl⟩

/-- No literal goes on at a character that it does not have. -/
theorem isPrefixOf_append_cons {l : List Char} {s : Char} (apart : s ∉ l) :
    l.isPrefixOf (cs ++ s :: more) = l.isPrefixOf cs := by
  rw [Bool.eq_iff_iff, List.isPrefixOf_iff_prefix, List.isPrefixOf_iff_prefix]
  refine ⟨fun starts => ?_, fun starts => starts.trans (List.prefix_append _ _)⟩
  rcases prefix_append_cons starts with starts | ⟨behind, same⟩
  · exact starts
  · exact absurd (by simp [same]) apart

/-- No literal goes on at a separator. -/
theorem isPrefixOf_separator {literal : String} (ht : t.literal? = some literal) {s : Char}
    (hs : s ∈ separators) (filled : cs ≠ []) :
    literal.toList.isPrefixOf (cs ++ s :: more) = literal.toList.isPrefixOf cs := by
  by_cases inside : s ∈ literal.toList
  · rcases List.mem_append.mp hs with mark | delimiter
    · -- A literal with a mark in it is the mark alone, so that it is in front of it or nowhere.
      obtain ⟨c, cs, rfl⟩ := List.exists_cons_of_ne_nil filled
      rw [Terminal.literal_of_mark ht mark inside]
      rfl
    · exact absurd delimiter ((Terminal.literal_spec ht).2.1 s inside)
  · exact isPrefixOf_append_cons inside

/-- A literal that a text starts with is no quoted text. -/
theorem quotedLength?_of_literal {literal : String} (ht : t.literal? = some literal)
    (taken : cs.take n = literal.toList) (more : List Char) :
    quotedLength? (cs ++ more) = none := by
  obtain ⟨filled, -, -, -, -, quote⟩ := Terminal.literal_spec ht
  refine quotedLength?_eq_none fun head => quote ?_
  rw [← taken] at filled ⊢
  cases cs with
  | nil => simp at filled
  | cons c cs =>
    cases n with
    | zero => simp at filled
    | succ n => simpa using head

/-- The next token does not depend on what stands behind a character at which no word and no
literal goes on. -/
theorem nextToken?_append_of_word {s : Char}
    (same : wordToken? accepted (cs ++ s :: more) = wordToken? accepted cs)
    (literal : ∀ (t : Terminal) literal, t.literal? = some literal →
      literal.toList.isPrefixOf (cs ++ s :: more) = literal.toList.isPrefixOf cs)
    (h : nextToken? accepted cs = some (t, n)) :
    nextToken? accepted (cs ++ s :: more) = some (t, n) := by
  have literals (p : Terminal → Bool) :
      longestLiteral? accepted p (cs ++ s :: more) = longestLiteral? accepted p cs :=
    longestLiteral?_congr fun t spelling ht _ _ => literal t spelling ht
  rw [nextToken?_eq_word] at h ⊢
  rw [same, literals]
  cases word : wordToken? accepted cs with
  | some found => simpa [word] using h
  | none =>
    cases quoted : quotedLength? cs with
    | some m =>
      obtain ⟨content, rest, clean, rfl, rfl⟩ := quotedLength?_eq_some_iff.mp quoted
      have same : quotedLength? ('"' :: (content ++ '"' :: (rest ++ s :: more))) =
          some (content.length + 2) := quotedLength?_append clean
      rw [word, quoted] at h
      simpa [same] using h
    | none =>
      rw [word, quoted] at h
      have found : longestLiteral? accepted
          (fun t => !(accepted.has Terminal.identifier.code && t.isKeyword)) cs = some (t, n) := by
        simpa using h
      obtain ⟨-, -, -, spelling, ht, taken⟩ := longestLiteral?_spec found
      rw [quotedLength?_of_literal ht taken]
      simpa using found

/-- The next token does not depend on what stands behind a separator after it. -/
theorem nextToken?_append {s : Char} (hs : s ∈ separators)
    (h : nextToken? accepted cs = some (t, n)) :
    nextToken? accepted (cs ++ s :: more) = some (t, n) := by
  have filled : cs ≠ [] := by
    rintro rfl
    simp [nextToken?_nil] at h
  exact nextToken?_append_of_word (wordToken?_separator hs cs more)
    (fun _ _ ht => isPrefixOf_separator ht hs filled) h

/-- A mark is a token of its own. -/
theorem nextToken?_mark {m : Char} (hm : m ∈ marks) (cs : List Char) :
    nextToken? accepted (m :: cs) = nextToken? accepted [m] := by
  obtain ⟨⟨-, alpha, digit, -⟩, apart⟩ := separator_spec (List.mem_append_left delimiters hm)
  simp only [List.mem_cons, List.not_mem_nil, or_false, not_or] at apart
  have name (cs : List Char) : nameLength? (m :: cs) = none :=
    nameLength?_eq_none (by simp [alpha, apart])
  have quoted (cs : List Char) : quotedLength? (m :: cs) = none :=
    quotedLength?_eq_none (by simp [apart])
  have number (cs : List Char) : startsNoNumber (m :: cs) = true := by
    simp [startsNoNumber, digit, apart]
  have literal (p : Terminal → Bool) :
      longestLiteral? accepted p (m :: cs) = longestLiteral? accepted p [m] := by
    refine longestLiteral?_congr fun t literal ht _ _ => ?_
    rw [Bool.eq_iff_iff, List.isPrefixOf_iff_prefix, List.isPrefixOf_iff_prefix]
    refine ⟨fun starts => ?_, fun starts => starts.trans (List.prefix_append [m] cs)⟩
    obtain ⟨c, others, hl⟩ := List.exists_cons_of_ne_nil (Terminal.literal_spec ht).1
    obtain rfl : c = m := (List.cons_prefix_cons.mp (hl ▸ starts)).1
    exact (Terminal.literal_of_mark ht hm (by simp [hl])) ▸ List.prefix_rfl
  simp only [nextToken?_eq (number _), name, quoted, literal, Option.map_none, ite_self]

end Tokens

end WebSpec.Idl
