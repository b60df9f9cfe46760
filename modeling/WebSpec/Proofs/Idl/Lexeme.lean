import Mathlib.Tactic.Common
import WebSpec.Proofs.ContextFree.Start
import WebSpec.Idl.Token

/-!
# Lexemes

What a token may be: names, numbers and quoted texts, said by their characters, and how each of them
is found at the start of a text. Whatever stands behind a token, it is found if a delimiter comes
first there, which is a blank or the start of a comment.

`Token.IsPlain` says that a token is found wherever its terminal is accepted, whatever else is
accepted. Every token is plain but a name that is spelled like a keyword, and this one is found
where no keyword is accepted (`nextToken?_of_isIdentifier`).
-/

namespace WebSpec.Idl

open ContextFree (TerminalSet)

/-! ### Delimiters -/

/-- The characters that layout starts with. -/
def delimiters : List Char :=
  [' ', '\t', '\x0c', '\r', '\n', '/']

/-- A text starts with layout, or it is at its end. -/
def Delimits (cs : List Char) : Prop :=
  ∀ c ∈ cs.head?, c ∈ delimiters

theorem delimits_nil : Delimits [] := by
  simp [Delimits]

section Runs

variable {p : Char → Bool} {cs rest : List Char}

theorem takeWhile_run (h : ∀ c ∈ cs, p c = true) (stop : ∀ c ∈ rest.head?, p c = false) :
    (cs ++ rest).takeWhile p = cs := by
  rw [List.takeWhile_append_of_pos h]
  cases rest with
  | nil => simp
  | cons c rest => rw [List.takeWhile_cons_of_neg (by simp [stop c rfl]), List.append_nil]

theorem dropWhile_run (h : ∀ c ∈ cs, p c = true) (stop : ∀ c ∈ rest.head?, p c = false) :
    (cs ++ rest).dropWhile p = rest := by
  rw [List.dropWhile_append_of_pos h]
  cases rest with
  | nil => rfl
  | cons c rest => rw [List.dropWhile_cons_of_neg (by simp [stop c rfl])]

/-- A run of characters ends at a delimiter. -/
theorem Delimits.stop (hd : Delimits rest) (stops : delimiters.any p = false) :
    ∀ c ∈ rest.head?, p c = false :=
  fun c hc => by simpa using List.any_eq_false.mp stops c (hd c hc)

end Runs

/-! ### Names -/

/-- Whether some characters are a name: a letter, and then letters, digits, `_` and `-`. -/
def isName : List Char → Bool
  | [] => false
  | first :: rest => first.isAlpha && rest.all isNameChar

/-- Whether some characters are a name that may have a mark in front, `_` or `-`. -/
def isIdentifier : List Char → Bool
  | [] => false
  | first :: rest => if first = '_' || first = '-' then isName rest else isName (first :: rest)

theorem isAlpha_of_isName {first : Char} {rest : List Char} (h : isName (first :: rest) = true) :
    first.isAlpha = true :=
  (Bool.and_eq_true_iff.mp h).1

theorem isIdentifier_of_isName {cs : List Char} (h : isName cs = true) :
    isIdentifier cs = true := by
  obtain _ | ⟨first, rest⟩ := cs
  · cases h
  have alpha := isAlpha_of_isName h
  have plain : ¬ (first = '_' ∨ first = '-') := by
    rintro (rfl | rfl) <;> cases alpha
  simpa [isIdentifier, plain] using h

theorem not_isDigit_of_isAlpha {c : Char} (h : c.isAlpha = true) : c.isDigit = false := by
  have letter : 'A'.val ≤ c.val := by
    rcases Bool.or_eq_true_iff.mp h with upper | lower
    · exact (of_decide_eq_true upper).1
    · have small := of_decide_eq_true (Bool.and_eq_true_iff.mp lower).1
      exact UInt32.le_trans (by decide) small
  rw [← Bool.not_eq_true]
  intro digit
  have above := of_decide_eq_true (Bool.and_eq_true_iff.mp digit).2
  exact absurd (UInt32.le_trans letter above) (by decide)

theorem ne_of_isAlpha {c : Char} (h : c.isAlpha = true) (other : Char)
    (ho : other.isAlpha = false) :
    c ≠ other := by
  rintro rfl
  rw [h] at ho
  cases ho

theorem nameLength?_of_isName {name rest : List Char} (h : isName name = true)
    (hd : Delimits rest) : nameLength? (name ++ rest) = some name.length := by
  obtain _ | ⟨first, others⟩ := name
  · cases h
  · obtain ⟨alpha, all⟩ := Bool.and_eq_true_iff.mp h
    have run := takeWhile_run (List.all_eq_true.mp all) (hd.stop (p := isNameChar) (by decide))
    simp [nameLength?, ne_of_isAlpha alpha '_' (by decide),
      ne_of_isAlpha alpha '-' (by decide), alpha, run]

theorem nameLength?_of_mark {mark : Char} {name rest : List Char} (hm : mark = '_' ∨ mark = '-')
    (h : isName name = true) (hd : Delimits rest) :
    nameLength? (mark :: name ++ rest) = some (name.length + 1) := by
  obtain _ | ⟨first, others⟩ := name
  · cases h
  · obtain ⟨alpha, all⟩ := Bool.and_eq_true_iff.mp h
    have run := takeWhile_run (List.all_eq_true.mp all) (hd.stop (p := isNameChar) (by decide))
    simp [nameLength?, hm, alpha, run]

theorem nameLength?_of_isIdentifier {name rest : List Char} (h : isIdentifier name = true)
    (hd : Delimits rest) : nameLength? (name ++ rest) = some name.length := by
  obtain _ | ⟨first, others⟩ := name
  · cases h
  · simp only [isIdentifier] at h
    split_ifs at h with mark
    · exact nameLength?_of_mark (by simpa using mark) h hd
    · exact nameLength?_of_isName h hd

/-! ### Texts that are no numbers -/

/-- Whether the first characters show that a text does not start with a number. -/
def startsNoNumber : List Char → Bool
  | [] => false
  | first :: rest =>
    if first = '-' then rest.head?.any fun c => !c.isDigit && c != '.'
    else if first = '.' then rest.head?.any fun c => !c.isDigit
    else !first.isDigit

theorem unsignedDecimalLength?_eq_none {c : Char} {cs : List Char} (h : c.isDigit = false)
    (hp : c ≠ '.') : unsignedDecimalLength? (c :: cs) = none := by
  simp [unsignedDecimalLength?, h, hp]

theorem unsignedIntegerLength?_eq_none {c : Char} {cs : List Char} (h : c.isDigit = false) :
    unsignedIntegerLength? (c :: cs) = none := by
  unfold unsignedIntegerLength?
  split
  · rename_i same
    obtain rfl := (List.cons.inj same).1
    cases h
  · rename_i same
    obtain ⟨rfl, rfl⟩ := List.cons.inj same
    simp [h]
  · rfl

theorem numberLength?_eq_none {cs : List Char} (h : startsNoNumber cs = true) :
    decimalLength? cs = none ∧ integerLength? cs = none := by
  obtain _ | ⟨first, rest⟩ := cs
  · cases h
  simp only [startsNoNumber] at h
  split_ifs at h with minus point
  · subst minus
    obtain _ | ⟨c, others⟩ := rest
    · cases h
    simp only [List.head?_cons, Option.any_some, Bool.and_eq_true, Bool.not_eq_true',
      bne_iff_ne] at h
    simp [decimalLength?, integerLength?, signed, unsignedDecimalLength?_eq_none h.1 h.2,
      unsignedIntegerLength?_eq_none h.1]
  · subst point
    obtain _ | ⟨c, others⟩ := rest
    · cases h
    simp only [List.head?_cons, Option.any_some, Bool.not_eq_true'] at h
    simp [decimalLength?, integerLength?, signed, unsignedDecimalLength?, h,
      unsignedIntegerLength?_eq_none (c := '.') (by decide)]
  · simp only [Bool.not_eq_true'] at h
    simp [decimalLength?, integerLength?, signed, minus,
      unsignedDecimalLength?_eq_none h point, unsignedIntegerLength?_eq_none h]

theorem startsNoNumber_append {cs : List Char} (h : startsNoNumber cs = true) (rest : List Char) :
    startsNoNumber (cs ++ rest) = true := by
  obtain _ | ⟨first, others⟩ := cs
  · cases h
  · simp only [List.cons_append, startsNoNumber] at h ⊢
    cases others with
    | nil => split_ifs at h ⊢ <;> simp_all
    | cons second others => exact h

theorem startsNoNumber_of_isIdentifier {name : List Char} (h : isIdentifier name = true) :
    startsNoNumber name = true := by
  obtain _ | ⟨first, others⟩ := name
  · cases h
  simp only [isIdentifier] at h
  split_ifs at h with mark
  · obtain _ | ⟨second, others⟩ := others
    · cases h
    have alpha := isAlpha_of_isName h
    rcases (by simpa using mark : first = '_' ∨ first = '-') with rfl | rfl
    · rfl
    · simp [startsNoNumber, not_isDigit_of_isAlpha alpha,
        ne_of_isAlpha alpha '.' (by decide)]
  · have alpha := isAlpha_of_isName h
    simp [startsNoNumber, not_isDigit_of_isAlpha alpha,
      ne_of_isAlpha alpha '.' (by decide),
      ne_of_isAlpha alpha '-' (by decide)]

/-! ### Literals -/

theorem Terminal.mem_all (t : Terminal) : t ∈ Terminal.all := by
  cases t <;> decide

/-- The spelling of a terminal determines it. -/
theorem Terminal.eq_of_literal {t other : Terminal} {literal : String}
    (h : t.literal? = some literal) (ho : other.literal? = some literal) : other = t := by
  have distinct : ∀ t ∈ Terminal.all, ∀ other ∈ Terminal.all,
      t.literal? = other.literal? → t.literal? ≠ none → other = t := by
    decide +kernel
  exact distinct t t.mem_all other other.mem_all (h.trans ho.symm) (by simp [h])

/-- A literal starts no number and no quoted text and has no delimiter inside. A keyword is a name
without an underscore in front, and any other literal starts like no name. -/
def isProperLiteral (t : Terminal) (literal : List Char) : Bool :=
  !literal.isEmpty && literal.all (fun c => !delimiters.contains c) && startsNoNumber literal &&
    (if t.isKeyword then isIdentifier literal && literal.head? != some '_'
      else literal.head?.all fun c => !c.isAlpha && c != '_' && c != '-') &&
    literal.head? != some '"'

/-- What all literals have in common. -/
theorem Terminal.literal_spec {t : Terminal} {literal : String} (h : t.literal? = some literal) :
    literal.toList ≠ [] ∧ (∀ c ∈ literal.toList, c ∉ delimiters) ∧
      startsNoNumber literal.toList = true ∧
      (t.isKeyword = true → isIdentifier literal.toList = true ∧ literal.toList.head? ≠ some '_') ∧
      (t.isKeyword = false → ∀ c ∈ literal.toList.head?, c.isAlpha = false ∧ c ≠ '_' ∧ c ≠ '-') ∧
      literal.toList.head? ≠ some '"' := by
  have all : (Terminal.all.all fun t =>
      t.literal?.all fun literal => isProperLiteral t literal.toList) = true := by
    decide +kernel
  have proper := List.all_eq_true.mp all t t.mem_all
  simp only [h, Option.all_some, isProperLiteral, Bool.and_eq_true] at proper
  obtain ⟨⟨⟨⟨filled, clean⟩, number⟩, start⟩, quote⟩ := proper
  refine ⟨by simpa using filled, by simpa using clean, number, fun hk => ?_, fun hk => ?_,
    by simpa using quote⟩
  · simpa [hk] using start
  · intro c hc
    simpa [hk, Option.mem_def.mp hc, and_assoc] using start

/-- Another literal at the start of a literal and a delimiter is shorter. -/
theorem Terminal.length_lt_of_isPrefixOf {t other : Terminal} {literal literal' : String}
    (h : t.literal? = some literal) (ho : other.literal? = some literal') {rest : List Char}
    (hd : Delimits rest) (hp : literal'.toList.isPrefixOf (literal.toList ++ rest) = true)
    (differs : other ≠ t) : literal'.length < literal.length := by
  obtain ⟨tail, ht⟩ := List.isPrefixOf_iff_prefix.mp hp
  have distinct : literal'.toList ≠ literal.toList := by
    intro same
    rw [String.toList_inj.mp same] at ho
    exact differs (eq_of_literal h ho)
  rcases List.append_eq_append_iff.mp ht with ⟨more, hl, -⟩ | ⟨more, hl, hr⟩
  · rw [← String.length_toList, ← String.length_toList, hl, List.length_append]
    cases more with
    | nil => exact absurd (by simpa using hl.symm) distinct
    | cons c more => simp only [List.length_cons]; omega
  · -- The other literal would go on with the delimiter.
    cases more with
    | nil => exact absurd (by simpa using hl) distinct
    | cons c more =>
      have inside : c ∈ literal'.toList := by simp [hl]
      exact absurd (hd c (by simp [hr])) ((literal_spec ho).2.1 c inside)

/-- The longest literal at the start of a text is found, if it is accepted and satisfies `p`. -/
theorem longestLiteral?_eq_some {accepted : TerminalSet} {p : Terminal → Bool} {cs : List Char}
    {t : Terminal} {literal : String} (h : t.literal? = some literal)
    (ha : accepted.has t.code = true) (ht : p t = true)
    (starts : literal.toList.isPrefixOf cs = true)
    (longest : ∀ other literal', other.literal? = some literal' →
      literal'.toList.isPrefixOf cs = true → other ≠ t → literal'.length < literal.length) :
    longestLiteral? accepted p cs = some (t, literal.length) := by
  have positive : 0 < literal.length := by
    rw [← String.length_toList, List.length_pos_iff]
    exact (Terminal.literal_spec h).1
  -- As long as the literal has not been reached, only shorter ones have been found.
  suffices ∀ (ts : List Terminal) (best : Option (Terminal × Nat)),
      best = some (t, literal.length) ∨ t ∈ ts ∧ best.elim 0 Prod.snd < literal.length →
      ts.foldl _ best = some (t, literal.length) from
    this Terminal.all none (.inr ⟨t.mem_all, positive⟩)
  intro ts
  induction ts with
  | nil => exact fun best hb => hb.resolve_right fun h => List.not_mem_nil h.1
  | cons other rest ih =>
    intro best hb
    rw [List.foldl_cons]
    refine ih _ ?_
    by_cases same : other = t
    · left
      subst same
      simp only [h, ha, ht, starts, Bool.and_self, Bool.true_and, decide_eq_true_eq]
      rcases hb with rfl | ⟨-, shorter⟩
      · simp
      · rw [if_pos shorter]
    · cases ho : other.literal? with
      | none =>
        exact hb.imp_right fun h => ⟨(List.mem_cons.mp h.1).resolve_left (Ne.symm same), h.2⟩
      | some literal' =>
        simp only
        split_ifs with found
        · simp only [Bool.and_eq_true, decide_eq_true_eq] at found
          have shorter := longest other literal' ho found.1.2 same
          rcases hb with rfl | ⟨ht, -⟩
          · exact absurd found.2 (by simpa using Nat.le_of_lt shorter)
          · exact .inr ⟨(List.mem_cons.mp ht).resolve_left (Ne.symm same), shorter⟩
        · exact hb.imp_right fun h => ⟨(List.mem_cons.mp h.1).resolve_left (Ne.symm same), h.2⟩

/-! ### Names and keywords -/

section Words

variable {accepted : TerminalSet} {rest : List Char}

theorem keyword?_eq_some {t : Terminal} {literal : String} (h : t.literal? = some literal)
    (hk : t.isKeyword = true) (ha : accepted.has t.code = true) :
    keyword? accepted literal.toList = some t := by
  cases found : keyword? accepted literal.toList with
  | none =>
    have absent := List.find?_eq_none.mp found t t.mem_all
    simp [h, hk, ha] at absent
  | some other =>
    have spelled := List.find?_some found
    simp only [Bool.and_eq_true, decide_eq_true_eq, Option.map_eq_some_iff] at spelled
    obtain ⟨-, literal', ho, same⟩ := spelled
    rw [String.toList_inj.mp same] at ho
    rw [Terminal.eq_of_literal h ho]

theorem keyword?_eq_none {name : List Char}
    (h : ∀ (t : Terminal) (literal : String), t.isKeyword = true → t.literal? = some literal →
      literal.toList = name → accepted.has t.code = false) : keyword? accepted name = none := by
  refine List.find?_eq_none.mpr fun t _ spelled => ?_
  simp only [Bool.and_eq_true, decide_eq_true_eq, Option.map_eq_some_iff] at spelled
  obtain ⟨⟨hk, ha⟩, literal, hl, same⟩ := spelled
  rw [h t literal hk hl same] at ha
  cases ha

/-- No keyword starts with an underscore. -/
theorem keyword?_escaped (name : List Char) : keyword? accepted ('_' :: name) = none :=
  keyword?_eq_none fun _ _ hk hl same =>
    absurd (by rw [same]; rfl) ((Terminal.literal_spec hl).2.2.2.1 hk).2

/-- What comes next where no number does. -/
theorem nextToken?_eq {cs : List Char} (h : startsNoNumber cs = true) :
    nextToken? accepted cs =
      ((if accepted.has Terminal.identifier.code then
          (nameLength? cs).map fun n =>
            ((keyword? accepted (cs.take n)).getD Terminal.identifier, n)
        else none) <|>
      (if accepted.has Terminal.string.code then
          (quotedLength? cs).map fun n => (Terminal.string, n)
        else none) <|>
      longestLiteral? accepted
        (fun t => !(accepted.has Terminal.identifier.code && t.isKeyword)) cs) := by
  obtain ⟨decimal, integer⟩ := numberLength?_eq_none h
  simp only [nextToken?, decimal, integer, Option.map_none, ite_self]
  split_ifs <;> simp [Function.comp_def]

/-- A name is found where no keyword is accepted that is spelled so. -/
theorem nextToken?_of_isIdentifier {name : List Char} (h : isIdentifier name = true)
    (ha : accepted.has Terminal.identifier.code = true) (hk : keyword? accepted name = none)
    (hd : Delimits rest) :
    nextToken? accepted (name ++ rest) = some (.identifier, name.length) := by
  rw [nextToken?_eq (startsNoNumber_append (startsNoNumber_of_isIdentifier h) rest), if_pos ha,
    nameLength?_of_isIdentifier h hd, Option.map_some, List.take_left', hk]
  · rfl
  · rfl

theorem quotedLength?_eq_none {cs : List Char} (h : cs.head? ≠ some '"') :
    quotedLength? cs = none := by
  unfold quotedLength?
  split
  · exact absurd rfl h
  · rfl

theorem nameLength?_eq_none {cs : List Char}
    (h : ∀ c ∈ cs.head?, c.isAlpha = false ∧ c ≠ '_' ∧ c ≠ '-') : nameLength? cs = none := by
  obtain _ | ⟨c, rest⟩ := cs
  · rfl
  · obtain ⟨alpha, underscore, minus⟩ := h c rfl
    simp [nameLength?, alpha, underscore, minus]

/-- A literal is found where it is accepted. -/
theorem nextToken?_of_literal {t : Terminal} {literal : String} (h : t.literal? = some literal)
    (ha : accepted.has t.code = true) (hd : Delimits rest) :
    nextToken? accepted (literal.toList ++ rest) = some (t, literal.length) := by
  obtain ⟨filled, -, number, word, mark, quote⟩ := Terminal.literal_spec h
  have head : (literal.toList ++ rest).head? = literal.toList.head? := by
    rw [List.head?_append, Option.or_of_isSome (List.isSome_head?.mpr filled)]
  rw [nextToken?_eq (startsNoNumber_append number rest),
    quotedLength?_eq_none (head ▸ quote)]
  have longest (p : Terminal → Bool) (hp : p t = true) :
      longestLiteral? accepted p (literal.toList ++ rest) = some (t, literal.length) :=
    longestLiteral?_eq_some h ha hp (by simp) fun other literal' ho hs differs =>
      Terminal.length_lt_of_isPrefixOf h ho hd hs differs
  cases hk : t.isKeyword with
  | true =>
    have name : nameLength? (literal.toList ++ rest) = some literal.length := by
      rw [nameLength?_of_isIdentifier (word hk).1 hd, String.length_toList]
    have spelling : (literal.toList ++ rest).take literal.length = literal.toList := by
      rw [← String.length_toList, List.take_left']
      rfl
    split_ifs with named
    · rw [name, Option.map_some, spelling, keyword?_eq_some h hk ha]
      rfl
    · rw [name, Option.map_some, spelling, keyword?_eq_some h hk ha]
      rfl
    · simpa [named] using longest (fun t => !(false && t.isKeyword)) rfl
    · simpa [named] using longest (fun t => !(false && t.isKeyword)) rfl
  | false =>
    rw [nameLength?_eq_none (head ▸ mark hk)]
    simpa using longest _ (by simp [hk])

end Words

/-! ### Numbers -/

/-- Digits. -/
def IsDigits (cs : List Char) : Prop :=
  ∀ c ∈ cs, c.isDigit = true

/-- A whole number without sign: hexadecimal after `0x` or `0X`, octal after `0`, or decimal. -/
inductive IsUnsignedInteger : List Char → Prop where
  | hexadecimal {mark : Char} {digits : List Char} :
    mark = 'x' ∨ mark = 'X' → digits ≠ [] → (∀ c ∈ digits, isHexDigit c = true) →
    IsUnsignedInteger ('0' :: mark :: digits)
  | octal {digits : List Char} :
    (∀ c ∈ digits, isOctalDigit c = true) → IsUnsignedInteger ('0' :: digits)
  | decimal {first : Char} {digits : List Char} :
    first.isDigit = true → first ≠ '0' → IsDigits digits → IsUnsignedInteger (first :: digits)

/-- An exponent: a mark, an optional sign and digits. -/
inductive IsExponent : List Char → Prop where
  | intro {mark : Char} {sign digits : List Char} :
    mark = 'e' ∨ mark = 'E' → sign ∈ [[], ['+'], ['-']] → digits ≠ [] → IsDigits digits →
    IsExponent (mark :: (sign ++ digits))

/-- A decimal number without sign: digits on at least one side of a point with an optional exponent,
or digits with an exponent. -/
inductive IsUnsignedDecimal : List Char → Prop where
  | point {whole fraction exponent : List Char} :
    IsDigits whole → IsDigits fraction → whole ≠ [] ∨ fraction ≠ [] →
    exponent = [] ∨ IsExponent exponent →
    IsUnsignedDecimal (whole ++ '.' :: (fraction ++ exponent))
  | exponent {whole exponent : List Char} :
    whole ≠ [] → IsDigits whole → IsExponent exponent → IsUnsignedDecimal (whole ++ exponent)

/-- A number with an optional minus sign. -/
inductive IsSigned (number : List Char → Prop) : List Char → Prop where
  | positive {cs : List Char} : number cs → IsSigned number cs
  | negative {cs : List Char} : number cs → IsSigned number ('-' :: cs)

/-- A whole number. -/
def IsInteger (cs : List Char) : Prop :=
  IsSigned IsUnsignedInteger cs

/-- A decimal number. -/
def IsDecimal (cs : List Char) : Prop :=
  IsSigned IsUnsignedDecimal cs

section Numbers

variable {cs rest : List Char}

theorem signed_append {number : List Char → Prop} {length? : List Char → Option Nat}
    (h : IsSigned number cs) (unsigned : ∀ cs, number cs → cs.head? ≠ some '-' ∧
      cs ≠ [] ∧ length? (cs ++ rest) = some cs.length) :
    signed length? (cs ++ rest) = some cs.length := by
  cases h with
  | positive h =>
    obtain ⟨head, filled, found⟩ := unsigned _ h
    obtain _ | ⟨c, others⟩ := cs
    · exact absurd rfl filled
    · unfold signed
      split
      · rename_i same
        exact absurd (congrArg List.head? same) (by simpa using head)
      · exact found
  | negative h =>
    simp [signed, (unsigned _ h).2.2]

theorem exponentLength?_append (h : IsExponent cs) (hd : Delimits rest) :
    exponentLength? (cs ++ rest) = some cs.length := by
  obtain @⟨mark, sign, digits, hm, hs, filled, all⟩ := h
  have run := takeWhile_run all (hd.stop (p := Char.isDigit) (by decide))
  obtain _ | ⟨first, others⟩ := digits
  · exact absurd rfl filled
  have first : first ≠ '+' ∧ first ≠ '-' := by
    have digit : first.isDigit = true := all first List.mem_cons_self
    constructor <;> rintro rfl <;> cases digit
  simp only [List.mem_cons, List.not_mem_nil, or_false] at hs
  rcases hs with rfl | rfl | rfl
  · simp [exponentLength?, hm, first] at run ⊢
    simp [run]
  · simp [exponentLength?, hm] at run ⊢
    simp [run]
  · simp [exponentLength?, hm] at run ⊢
    simp [run]

theorem exponentLength?_eq_none (h : ∀ c ∈ cs.head?, c ≠ 'e' ∧ c ≠ 'E') :
    exponentLength? cs = none := by
  obtain _ | ⟨c, others⟩ := cs
  · rfl
  · simp [exponentLength?, h c rfl]

theorem Delimits.exponentLength? (hd : Delimits rest) : exponentLength? rest = none :=
  exponentLength?_eq_none fun c hc => by
    have apart : ∀ c ∈ delimiters, c ≠ 'e' ∧ c ≠ 'E' := by simp [delimiters]
    exact apart c (hd c hc)

theorem IsExponent.head? (h : IsExponent cs) (rest : List Char) :
    ∀ c ∈ (cs ++ rest).head?, c = 'e' ∨ c = 'E' := by
  obtain ⟨hm, -, -, -⟩ := h
  simpa using hm

theorem not_isDigit_of_mark {c : Char} (h : c = 'e' ∨ c = 'E') : c.isDigit = false := by
  rcases h with rfl | rfl <;> decide

/-- A decimal number goes on behind its digits at a point, -/
theorem unsignedDecimalLength?_point (h : IsDigits cs) (rest : List Char) :
    unsignedDecimalLength? (cs ++ '.' :: rest) =
      if cs.length + (rest.takeWhile Char.isDigit).length = 0 then none
      else some (cs.length + 1 + (rest.takeWhile Char.isDigit).length +
        (exponentLength? (rest.dropWhile Char.isDigit)).getD 0) := by
  have stop : ∀ c ∈ ('.' :: rest).head?, Char.isDigit c = false := by simp
  rw [unsignedDecimalLength?, takeWhile_run h stop, dropWhile_run h stop]
  rfl

/-- and elsewhere with an exponent. -/
theorem unsignedDecimalLength?_digits (h : IsDigits cs)
    (stop : ∀ c ∈ rest.head?, Char.isDigit c = false) (hp : rest.head? ≠ some '.') :
    unsignedDecimalLength? (cs ++ rest) =
      if cs.length = 0 then none else (exponentLength? rest).map (cs.length + ·) := by
  rw [unsignedDecimalLength?, takeWhile_run h stop, dropWhile_run h stop]
  cases rest with
  | nil => rfl
  | cons c rest =>
    split
    · rename_i same
      obtain ⟨rfl, -⟩ := List.cons.inj same
      exact absurd rfl hp
    · rfl

theorem unsignedDecimalLength?_append (h : IsUnsignedDecimal cs) (hd : Delimits rest) :
    unsignedDecimalLength? (cs ++ rest) = some cs.length := by
  cases h with
  | @point whole fraction exponent hw hf filled he =>
    have behind : ∀ c ∈ (exponent ++ rest).head?, Char.isDigit c = false := by
      rcases he with rfl | he
      · exact hd.stop (by decide)
      · exact fun c hc => not_isDigit_of_mark (he.head? rest c hc)
    have length : (exponentLength? (exponent ++ rest)).getD 0 = exponent.length := by
      rcases he with rfl | he
      · rw [List.nil_append, hd.exponentLength?]
        rfl
      · rw [exponentLength?_append he hd]
        rfl
    have nonzero : whole.length + fraction.length ≠ 0 := by
      rw [← List.length_pos_iff, ← List.length_pos_iff] at filled
      omega
    rw [List.append_assoc, List.cons_append, List.append_assoc, unsignedDecimalLength?_point hw,
      takeWhile_run hf behind, dropWhile_run hf behind, if_neg nonzero, length]
    simp only [List.length_append, List.length_cons, Option.some.injEq]
    omega
  | @exponent whole exponent filled hw he =>
    have mark := he.head? rest
    have point : (exponent ++ rest).head? ≠ some '.' := fun h => by simpa using mark '.' h
    have nonzero : whole.length ≠ 0 := by simpa using filled
    rw [List.append_assoc,
      unsignedDecimalLength?_digits hw (fun c hc => not_isDigit_of_mark (mark c hc)) point,
      if_neg nonzero, exponentLength?_append he hd, Option.map_some, List.length_append]

theorem isDigit_of_isOctalDigit {c : Char} (h : isOctalDigit c = true) : c.isDigit = true := by
  simp only [isOctalDigit, Char.isDigit, Bool.and_eq_true, decide_eq_true_eq, Char.le_def,
    ge_iff_le, UInt32.le_iff_toNat_le] at h ⊢
  simp at h ⊢
  omega

/-- A run of digits without point and exponent is no decimal number. -/
theorem unsignedDecimalLength?_run (h : IsDigits cs) (hd : Delimits rest) :
    unsignedDecimalLength? (cs ++ rest) = none := by
  have point : rest.head? ≠ some '.' := fun same => absurd (hd '.' same) (by decide)
  rw [unsignedDecimalLength?_digits h (hd.stop (by decide)) point, hd.exponentLength?]
  simp

theorem unsignedDecimalLength?_of_integer (h : IsUnsignedInteger cs) (hd : Delimits rest) :
    unsignedDecimalLength? (cs ++ rest) = none := by
  cases h with
  | @hexadecimal mark digits hm filled all =>
    have letter : mark.isDigit = false ∧ mark ≠ '.' ∧ mark ≠ 'e' ∧ mark ≠ 'E' := by
      rcases hm with rfl | rfl <;> decide
    have zero : IsDigits ['0'] := by simp [IsDigits]
    have none : exponentLength? (mark :: digits ++ rest) = none :=
      exponentLength?_eq_none (by simp [letter.2.2])
    rw [show '0' :: mark :: digits ++ rest = ['0'] ++ (mark :: digits ++ rest) from rfl,
      unsignedDecimalLength?_digits zero (by simp [letter.1]) (by simp [letter.2.1]), none]
    rfl
  | @octal digits all =>
    refine unsignedDecimalLength?_run (fun c hc => ?_) hd
    rcases List.mem_cons.mp hc with rfl | hc
    · decide
    · exact isDigit_of_isOctalDigit (all c hc)
  | @decimal first digits hf hz all =>
    refine unsignedDecimalLength?_run (fun c hc => ?_) hd
    rcases List.mem_cons.mp hc with rfl | hc
    · exact hf
    · exact all c hc

theorem unsignedIntegerLength?_octal (h : ∀ c ∈ cs.head?, c ≠ 'x' ∧ c ≠ 'X') :
    unsignedIntegerLength? ('0' :: cs) = some ((cs.takeWhile isOctalDigit).length + 1) := by
  cases cs with
  | nil => rfl
  | cons c cs => simp [unsignedIntegerLength?, h c rfl]

theorem unsignedIntegerLength?_append (h : IsUnsignedInteger cs) (hd : Delimits rest) :
    unsignedIntegerLength? (cs ++ rest) = some cs.length := by
  cases h with
  | @hexadecimal mark digits hm filled all =>
    have run := takeWhile_run all (hd.stop (p := isHexDigit) (by decide))
    have positive : 0 < digits.length := List.length_pos_iff.mpr filled
    simp [unsignedIntegerLength?, hm, run, positive]
  | @octal digits all =>
    have run := takeWhile_run all (hd.stop (p := isOctalDigit) (by decide))
    have plain : ∀ c ∈ (digits ++ rest).head?, c ≠ 'x' ∧ c ≠ 'X' := by
      intro c hc
      cases digits with
      | nil =>
        have apart : ∀ c ∈ delimiters, c ≠ 'x' ∧ c ≠ 'X' := by simp [delimiters]
        exact apart c (hd c hc)
      | cons first others =>
        obtain rfl : first = c := by simpa using hc
        have octal := all first List.mem_cons_self
        constructor <;> rintro rfl <;> cases octal
    rw [List.cons_append, unsignedIntegerLength?_octal plain, run]
    rfl
  | @decimal first digits hf hz all =>
    have run := takeWhile_run all (hd.stop (p := Char.isDigit) (by decide))
    unfold unsignedIntegerLength?
    split
    · rename_i same
      exact absurd (List.cons.inj same).1 hz
    · rename_i same
      obtain ⟨rfl, rfl⟩ := List.cons.inj same
      rw [if_pos hf, show digits.append rest = digits ++ rest from rfl, run]
      rfl
    · rename_i same
      cases same

theorem IsUnsignedInteger.head? (h : IsUnsignedInteger cs) : cs ≠ [] ∧ cs.head? ≠ some '-' := by
  cases h with
  | decimal hf => exact ⟨List.cons_ne_nil _ _, by rintro ⟨⟩; cases hf⟩
  | _ => exact ⟨List.cons_ne_nil _ _, by simp⟩

theorem IsUnsignedDecimal.head? (h : IsUnsignedDecimal cs) : cs ≠ [] ∧ cs.head? ≠ some '-' := by
  cases h with
  | @point whole fraction exponent hw =>
    cases whole with
    | nil => simp
    | cons first others =>
      have digit := hw first List.mem_cons_self
      exact ⟨by simp, by rintro ⟨⟩; cases digit⟩
  | @exponent whole exponent filled hw =>
    cases whole with
    | nil => exact absurd rfl filled
    | cons first others =>
      have digit := hw first List.mem_cons_self
      exact ⟨by simp, by rintro ⟨⟩; cases digit⟩

/-- A decimal number is found where it is accepted. -/
theorem decimalLength?_append (h : IsDecimal cs) (hd : Delimits rest) :
    decimalLength? (cs ++ rest) = some cs.length :=
  signed_append h fun _ hu => ⟨hu.head?.2, hu.head?.1, unsignedDecimalLength?_append hu hd⟩

/-- A whole number is found where it is accepted, -/
theorem integerLength?_append (h : IsInteger cs) (hd : Delimits rest) :
    integerLength? (cs ++ rest) = some cs.length :=
  signed_append h fun _ hu => ⟨hu.head?.2, hu.head?.1, unsignedIntegerLength?_append hu hd⟩

/-- and it is no decimal number. -/
theorem decimalLength?_of_integer (h : IsInteger cs) (hd : Delimits rest) :
    decimalLength? (cs ++ rest) = none := by
  cases h with
  | positive h =>
    unfold decimalLength? signed
    split
    · rename_i same
      obtain ⟨filled, head⟩ := h.head?
      obtain _ | ⟨c, others⟩ := cs
      · exact absurd rfl filled
      · exact absurd (congrArg List.head? same) (by simpa using head)
    · exact unsignedDecimalLength?_of_integer h hd
  | negative h => simp [decimalLength?, signed, unsignedDecimalLength?_of_integer h hd]

end Numbers

/-! ### Tokens -/

section Tokens

variable {accepted : TerminalSet} {rest : List Char}

theorem nextToken?_of_decimal {number : List Char} (h : IsDecimal number)
    (ha : accepted.has Terminal.decimal.code = true) (hd : Delimits rest) :
    nextToken? accepted (number ++ rest) = some (.decimal, number.length) := by
  simp [nextToken?, ha, decimalLength?_append h hd]

theorem nextToken?_of_integer {number : List Char} (h : IsInteger number)
    (ha : accepted.has Terminal.integer.code = true) (hd : Delimits rest) :
    nextToken? accepted (number ++ rest) = some (.integer, number.length) := by
  simp [nextToken?, ha, decimalLength?_of_integer h hd, integerLength?_append h hd]

theorem quotedLength?_append {content : List Char} (h : '"' ∉ content) :
    quotedLength? ('"' :: (content ++ '"' :: rest)) = some (content.length + 2) := by
  have run : (content ++ '"' :: rest).takeWhile (· != '"') = content :=
    takeWhile_run (fun c hc => by simpa using fun same : c = '"' => h (same ▸ hc)) (by simp)
  simp [quotedLength?, run]

theorem nextToken?_of_quoted {content : List Char} (h : '"' ∉ content)
    (ha : accepted.has Terminal.string.code = true) :
    nextToken? accepted ('"' :: (content ++ '"' :: rest)) = some (.string, content.length + 2) := by
  rw [nextToken?_eq rfl, nameLength?_eq_none (by simp), quotedLength?_append h, if_pos ha]
  simp

theorem longestLiteral?_eq_none {p : Terminal → Bool} {cs : List Char}
    (h : ∀ (t : Terminal) (literal : String), t.literal? = some literal →
      literal.toList.isPrefixOf cs = false) : longestLiteral? accepted p cs = none := by
  refine List.foldlRecOn Terminal.all _ (motive := (· = none)) rfl fun best hb t _ => ?_
  subst hb
  cases ht : t.literal? with
  | none => rfl
  | some literal =>
    show (if _ then _ else _) = none
    rw [h t literal ht, Bool.and_false, Bool.false_and, if_neg Bool.false_ne_true]

/-- Nothing is found at the end of a text, -/
theorem nextToken?_nil (accepted : TerminalSet) : nextToken? accepted [] = none := by
  have literal (p : Terminal → Bool) : longestLiteral? accepted p [] = none := by
    refine longestLiteral?_eq_none fun t literal ht => ?_
    cases hl : literal.toList with
    | nil => exact absurd hl (Terminal.literal_spec ht).1
    | cons first others => rfl
  simp only [nextToken?, literal]
  split_ifs <;> rfl

/-- and nothing at a delimiter. -/
theorem nextToken?_delimiter {c : Char} (h : c ∈ delimiters) (cs : List Char) :
    nextToken? accepted (c :: cs) = none := by
  have apart : ∀ c ∈ delimiters, c ≠ '-' ∧ c ≠ '.' ∧ c ≠ '_' ∧ c ≠ '"' ∧ c.isDigit = false ∧
      c.isAlpha = false := by simp [delimiters]
  obtain ⟨minus, point, underscore, quote, digit, alpha⟩ := apart c h
  have literal (p : Terminal → Bool) : longestLiteral? accepted p (c :: cs) = none := by
    refine longestLiteral?_eq_none fun t literal ht => ?_
    obtain ⟨filled, clean, -⟩ := Terminal.literal_spec ht
    cases hl : literal.toList with
    | nil => exact absurd hl filled
    | cons first others =>
      have different : first ≠ c := by
        rintro rfl
        exact clean first (by simp [hl]) h
      simp [List.isPrefixOf, different]
  rw [nextToken?_eq (by simp [startsNoNumber, minus, point, digit]),
    nameLength?_eq_none (by simp [alpha, underscore, minus]),
    quotedLength?_eq_none (by simpa using quote), literal]
  simp

/-- A token is found only where something other than layout comes first. -/
theorem exists_of_nextToken? {cs : List Char} {found : Terminal × Nat}
    (h : nextToken? accepted cs = some found) : ∃ c rest, cs = c :: rest ∧ c ∉ delimiters := by
  cases cs with
  | nil => simp [nextToken?_nil] at h
  | cons c rest =>
    refine ⟨c, rest, rfl, fun hd => ?_⟩
    rw [nextToken?_delimiter hd] at h
    cases h

theorem layoutLength?_eq_zero {cs : List Char} (h : ∀ c ∈ cs.head?, c ∉ delimiters) :
    layoutLength? .between cs = some 0 := by
  cases cs with
  | nil => rfl
  | cons c cs =>
    have clean := h c rfl
    simp only [delimiters, List.mem_cons, List.not_mem_nil, or_false, not_or] at clean
    rw [layoutLength?.eq_def]
    simp [isLayoutChar, clean]

theorem layoutLength?_space (cs : List Char) :
    layoutLength? .between (' ' :: cs) = (layoutLength? .between cs).map (· + 1) := by
  have blank : isLayoutChar ' ' = true := by decide
  rw [layoutLength?.eq_def]
  exact if_pos blank

/-- A token is found wherever its terminal is accepted, whatever else is accepted. -/
def Token.IsPlain (t : Token) : Prop :=
  ∀ (accepted : TerminalSet) (rest : List Char), accepted.has t.terminal.code = true →
    Delimits rest → nextToken? accepted (t.text.toList ++ rest) = some (t.terminal, t.text.length)

variable {layout : String}

theorem isPlain_of_literal {t : Terminal} {literal : String} (h : t.literal? = some literal) :
    (Token.mk t layout literal).IsPlain :=
  fun _ _ ha hd => nextToken?_of_literal h ha hd

theorem isPlain_of_isName {name : String} (h : isName name.toList = true) :
    (Token.mk .identifier layout ("_" ++ name)).IsPlain := by
  intro accepted rest ha hd
  have spelled : ("_" ++ name).toList = '_' :: name.toList := by simp
  simp only [spelled, ← String.length_toList]
  exact nextToken?_of_isIdentifier (by simpa [isIdentifier] using h) ha (keyword?_escaped _) hd

/-- A name that no terminal is spelled like may be written as it is. -/
theorem isPlain_of_unreserved {name : String} (h : isName name.toList = true)
    (free : ∀ t : Terminal, t.literal? ≠ some name) :
    (Token.mk .identifier layout name).IsPlain := by
  intro accepted rest ha hd
  rw [← String.length_toList]
  refine nextToken?_of_isIdentifier (isIdentifier_of_isName h) ha
    (keyword?_eq_none fun t literal _ hl spelled => ?_) hd
  have same : literal = name := String.toList_inj.mp spelled
  exact absurd (same ▸ hl) (free t)

theorem isPlain_of_quoted {content : String} (h : '"' ∉ content.toList) :
    (Token.mk .string layout ("\"" ++ content ++ "\"")).IsPlain := by
  intro accepted rest ha _
  have spelled : ("\"" ++ content ++ "\"").toList = '"' :: (content.toList ++ ['"']) := by simp
  have length : ("\"" ++ content ++ "\"").length = content.toList.length + 2 := by
    rw [← String.length_toList, spelled]
    simp
  rw [spelled, length, List.cons_append, List.append_assoc]
  exact nextToken?_of_quoted h ha

theorem isPlain_of_integer {number : String} (h : IsInteger number.toList) :
    (Token.mk .integer layout number).IsPlain :=
  fun _ _ ha hd => nextToken?_of_integer h ha hd

theorem isPlain_of_decimal {number : String} (h : IsDecimal number.toList) :
    (Token.mk .decimal layout number).IsPlain :=
  fun _ _ ha hd => nextToken?_of_decimal h ha hd

end Tokens

end WebSpec.Idl
