import WebSpec.Proofs.Idl.Printing
import WebSpec.Proofs.Idl.Step

/-!
# The texts of tokens

What the text of a token looks like that was found in a text: a name is one, a quoted text has its
quotes, a number begins like one, and every other token is the literal of its terminal
(`isSpelled_of_starts`).
-/

namespace WebSpec.Idl

open ContextFree (TerminalSet)

theorem all_take_takeWhile (p : Char → Bool) (cs : List Char) :
    (cs.take (cs.takeWhile p).length).all p = true := by
  rw [← List.prefix_iff_eq_take.mp (List.takeWhile_prefix p)]
  exact List.all_eq_true.mpr fun c hc => List.mem_takeWhile_imp hc

/-- The name at the start of a text. -/
theorem isIdentifier_take {cs : List Char} {n : Nat} (h : nameLength? cs = some n) :
    isIdentifier (cs.take n) = true := by
  obtain _ | ⟨c, cs⟩ := cs
  · cases h
  simp only [nameLength?] at h
  split_ifs at h with mark alpha
  · obtain ⟨m, hm, rfl⟩ := Option.map_eq_some_iff.mp h
    obtain _ | ⟨c', cs⟩ := cs
    · cases hm
    simp only at hm
    split_ifs at hm with alpha
    obtain rfl := Option.some.inj hm
    simp only [List.take_succ_cons, isIdentifier, isName, all_take_takeWhile, Bool.and_true]
    rw [if_pos (by simpa using mark)]
    exact alpha
  · obtain rfl := Option.some.inj h
    simp only [List.take_succ_cons, isIdentifier, isName, all_take_takeWhile, Bool.and_true]
    rw [if_neg (by simpa using mark)]
    exact alpha

/-- What finds the tokens of a terminal that has no spelling of its own. -/
def Terminal.length? : Terminal → Option (List Char → Option Nat)
  | .identifier => some nameLength?
  | .string => some quotedLength?
  | .integer => some integerLength?
  | .decimal => some decimalLength?
  | _ => none

theorem Terminal.length?_of_literal {t : Terminal} {literal : String}
    (h : t.literal? = some literal) : t.length? = none := by
  cases t <;> first | rfl | cases h

theorem wordToken?_length {accepted : TerminalSet} {cs : List Char} {t : Terminal} {n : Nat}
    (h : wordToken? accepted cs = some (t, n)) {length? : List Char → Option Nat}
    (ht : t.length? = some length?) : length? cs = some n := by
  simp only [wordToken?, Option.orElse_eq_orElse, Option.orElse_eq_or, Option.or_eq_some_iff,
    Option.ite_none_right_eq_some, Option.map_eq_some_iff, Prod.mk.injEq] at h
  rcases h with ⟨-, n, found, rfl, rfl⟩ |
    ⟨-, ⟨-, n, found, rfl, rfl⟩ | ⟨-, -, n, found, kind, rfl⟩⟩
  · obtain rfl := Option.some.inj ht
    exact found
  · obtain rfl := Option.some.inj ht
    exact found
  · cases hk : keyword? accepted (cs.take n) with
    | none =>
      obtain rfl : Terminal.identifier = t := by simpa [hk] using kind
      obtain rfl := Option.some.inj ht
      exact found
    | some keyword =>
      obtain rfl : keyword = t := by simpa [hk] using kind
      obtain ⟨-, literal, hl, -⟩ := keyword?_spec hk
      rw [Terminal.length?_of_literal hl] at ht
      cases ht

theorem nextToken?_length {accepted : TerminalSet} {cs : List Char} {t : Terminal} {n : Nat}
    (h : nextToken? accepted cs = some (t, n)) {length? : List Char → Option Nat}
    (ht : t.length? = some length?) : length? cs = some n := by
  rw [nextToken?_eq_word] at h
  simp only [Option.orElse_eq_orElse, Option.orElse_eq_or, Option.or_eq_some_iff,
    Option.ite_none_right_eq_some, Option.map_eq_some_iff, Prod.mk.injEq] at h
  rcases h with word | ⟨-, ⟨-, n, found, rfl, rfl⟩ | ⟨-, literal⟩⟩
  · exact wordToken?_length word ht
  · obtain rfl := Option.some.inj ht
    exact found
  · obtain ⟨-, -, -, literal, hl, -⟩ := longestLiteral?_spec literal
    rw [Terminal.length?_of_literal hl] at ht
    cases ht
/-! ### Tokens -/

/-- The text of a token is such as its terminal asks for. -/
structure Token.IsSpelled (t : Token) : Prop where
  literal : ∀ literal, t.terminal.literal? = some literal → t.text = literal
  name : t.terminal = .identifier → isIdentifier t.text.toList = true
  string : t.terminal = .string → ∃ content, t.text = quoted content
  number : t.terminal = .integer ∨ t.terminal = .decimal →
    startsNoNumber t.text.toList = false

theorem isSpelled_of_starts {t : Token} {accepted : TerminalSet} {cs rest : List Char}
    (h : t.Starts accepted cs rest) : t.IsSpelled := by
  have taken : (t.text.toList ++ rest).take t.text.length = t.text.toList := by
    rw [← String.length_toList, List.take_left]
  refine ⟨fun _ => h.text_of_literal, fun kind => ?_, fun kind => ?_, fun kind => ?_⟩
  · rw [← taken]
    exact isIdentifier_take (nextToken?_length h.found (by rw [kind]; rfl))
  · have found := nextToken?_length h.found (by rw [kind]; rfl)
    obtain ⟨content, behind, -, split, length⟩ := quotedLength?_eq_some_iff.mp found
    refine ⟨String.ofList content, ?_⟩
    rw [← String.toList_inj, ← taken, split, length]
    simp [quoted, List.take_append]
  · by_contra plain
    have none := numberLength?_eq_none (startsNoNumber_append (by simpa using plain) rest)
    rcases kind with kind | kind
    · have found := nextToken?_length h.found (by rw [kind]; rfl)
      rw [none.2] at found
      cases found
    · have found := nextToken?_length h.found (by rw [kind]; rfl)
      rw [none.1] at found
      cases found

theorem isNameChar_of_isIdentifier {cs : List Char} (h : isIdentifier cs = true) :
    ∀ c ∈ cs, isNameChar c = true := by
  have name (cs : List Char) (h : isName cs = true) : ∀ c ∈ cs, isNameChar c = true := by
    obtain _ | ⟨first, rest⟩ := cs
    · cases h
    · obtain ⟨alpha, all⟩ := Bool.and_eq_true_iff.mp h
      rintro c (_ | ⟨_, hc⟩)
      · simp [isNameChar, Char.isAlphanum, alpha]
      · exact List.all_eq_true.mp all c hc
  obtain _ | ⟨first, rest⟩ := cs
  · cases h
  · simp only [isIdentifier] at h
    split_ifs at h with mark
    · rintro c (_ | ⟨_, hc⟩)
      · rcases (by simpa using mark : first = '_' ∨ first = '-') with rfl | rfl <;> decide
      · exact name rest h c hc
    · exact name _ h

/-- A name is not empty and has no blanks. -/
theorem Token.IsSpelled.name_spec {t : Token} (h : t.IsSpelled)
    (identifier : t.terminal = .identifier) : t.name ≠ "" ∧ ' ' ∉ t.name.toList := by
  have spelled := h.name identifier
  have clean : ' ' ∉ t.text.toList := fun blank =>
    absurd (isNameChar_of_isIdentifier spelled _ blank) (by decide)
  unfold Token.name
  split
  · rename_i rest escaped
    rw [escaped] at spelled clean
    obtain _ | ⟨first, others⟩ := rest
    · cases spelled
    · rw [String.toList_ofList]
      exact ⟨by simp, fun blank => clean (List.mem_cons_of_mem _ blank)⟩
  · refine ⟨fun empty => ?_, clean⟩
    rw [empty] at spelled
    cases spelled

end WebSpec.Idl
