import WebSpec.Proofs.Idl.Bare
import WebSpec.Proofs.Idl.Reading

/-!
# Blanks between words

A text is made of words by putting a blank between two of them, or none where a mark keeps them
apart. A `Spacing` says where; its text is the text of tokens with those words, which are told apart
(`separated_spaced`, `textOf_spaced`).
-/

namespace WebSpec.Idl

/-- Where a blank stands between two words. Without one, the first is a mark or the second starts
with one. -/
structure Spacing where
  isBlank : String → String → Bool
  isMark : ∀ {before word : String}, isBlank before word = false →
    (∃ m ∈ marks, before.toList = [m]) ∨ ∃ m ∈ marks, word.toList.head? = some m

namespace Spacing

/-- A blank between all words. -/
def loose : Spacing where
  isBlank _ _ := true
  isMark h := by cases h

variable (s : Spacing)

/-- What stands between two words. -/
def gap (before word : String) : String :=
  if s.isBlank before word then " " else ""

/-- The text of words behind a word. -/
def textBehind (before : String) : List String → String
  | [] => ""
  | word :: rest => s.gap before word ++ (word ++ textBehind word rest)

/-- The text of words. -/
def text : List String → String
  | [] => ""
  | first :: rest => first ++ s.textBehind first rest

@[simp] theorem textBehind_cons (before word : String) (rest : List String) :
    s.textBehind before (word :: rest) = s.gap before word ++ (word ++ s.textBehind word rest) :=
  rfl

theorem text_loose (words : List String) : loose.text words = " ".intercalate words := by
  cases words with
  | nil => rfl
  | cons first rest =>
    induction rest generalizing first with
    | nil => simp [text, textBehind]
    | cons second rest ih =>
      rw [String.intercalate_cons_cons, ← ih second]
      simp [text, gap, loose, String.append_assoc]

/-! ### Tokens -/

/-- Tokens with what stands between them before each, behind a word. -/
def spacedBehind (before : String) : List Token → List Token
  | [] => []
  | t :: rest => { t with layout := s.gap before t.text } :: spacedBehind t.text rest

/-- Tokens with what stands between them before each but the first. -/
def spaced : List Token → List Token
  | [] => []
  | first :: rest => first.bare :: s.spacedBehind first.text rest

theorem bare_spacedBehind (before : String) (tokens : List Token) :
    (s.spacedBehind before tokens).map Token.bare = tokens.map Token.bare := by
  induction tokens generalizing before with
  | nil => rfl
  | cons t rest ih => simp [spacedBehind, ih, Token.bare]

theorem bare_spaced (tokens : List Token) :
    (s.spaced tokens).map Token.bare = tokens.map Token.bare := by
  cases tokens with
  | nil => rfl
  | cons first rest => simp [spaced, bare_spacedBehind, Token.bare]

theorem isLayout_gap (before word : String) : IsLayout (s.gap before word).toList := by
  unfold gap
  split
  · exact isLayout_space
  · exact isLayout_nil

/-- A token is told apart from the tokens behind it. -/
theorem endsBefore_spacedBehind (t : Token) (tokens : List Token) :
    t.EndsBefore (textOf (s.spacedBehind t.text tokens)) := by
  obtain _ | ⟨next, rest⟩ := tokens
  · exact .inl (by simp [spacedBehind, textOf])
  rw [spacedBehind, textOf_cons, gap]
  cases blank : s.isBlank t.text next.text with
  | true => exact .inl (by simp [separators, delimiters])
  | false =>
    rcases s.isMark blank with mark | ⟨m, hm, first⟩
    · exact .inr mark
    · obtain ⟨behind, hw⟩ := List.head?_eq_some_iff.mp first
      exact .inl (by simp [hw, separators, hm])

theorem separated_spacedBehind (before : String) (tokens : List Token) :
    Separated (s.spacedBehind before tokens) := by
  induction tokens generalizing before with
  | nil => exact .nil
  | cons t rest ih =>
    exact .cons (s.isLayout_gap before t.text) (s.endsBefore_spacedBehind t rest) (ih t.text)

theorem separated_spaced (tokens : List Token) : Separated (s.spaced tokens) := by
  cases tokens with
  | nil => exact .nil
  | cons first rest =>
    exact .cons isLayout_nil (s.endsBefore_spacedBehind first rest)
      (s.separated_spacedBehind first.text rest)

theorem textOf_spacedBehind (before : String) (tokens : List Token) :
    textOf (s.spacedBehind before tokens) =
      (s.textBehind before (tokens.map Token.text)).toList := by
  induction tokens generalizing before with
  | nil => rfl
  | cons t rest ih => simp [spacedBehind, textOf_cons, ih]

theorem textOf_spaced (tokens : List Token) :
    String.ofList (textOf (s.spaced tokens)) = s.text (tokens.map Token.text) := by
  cases tokens with
  | nil => rfl
  | cons first rest =>
    rw [← String.toList_inj]
    simp [spaced, text, textOf_cons, textOf_spacedBehind, Token.bare]

end Spacing

end WebSpec.Idl
