import WebSpec.Proofs.Idl.Attribute
import WebSpec.Proofs.Idl.Passage
import WebSpec.Proofs.Idl.TokenText

/-!
# The tokens of types

A type without extended attributes consists of names, words of primitive types, brackets, commas and
question marks (`isTypeToken_of_derives`). So no token of it has a blank, a semicolon or an equals
sign in it.
-/

namespace WebSpec.Idl

open ContextFree (Derives DerivesAll ParseTree Symbol)

/-! ### Symbols of types -/

/-- The terminals of types without extended attributes. -/
def typeTerminals : List Terminal :=
  [.identifier, .questionMark, .comma, .parenOpen, .parenClose, .lessThan, .moreThan, .kwOr,
    .kwShort, .kwLong, .kwFloat, .kwDouble, .kwUnsigned, .kwUnrestricted]

/-- The rules of types. -/
def typeRules : List Rule :=
  [.annotatedType, .type, .singleType, .namedType, .genericType, .moreTypes, .primitiveType,
    .unionType, .moreAlternatives]

/-- Whether a symbol is of types, or a list of extended attributes. -/
def isTypeSymbol : Symbol → Bool
  | .terminal code => typeTerminals.any fun t => t.code == code
  | .nonterminal code => (Rule.attributeList :: typeRules).any fun r => r.code == code

/-- Productions of types lead to nothing else but behind a bracket. -/
theorem isTypeSymbol_productions : ∀ p ∈ grammar.productions,
    isTypeSymbol (.nonterminal p.left) = true →
      .terminal Terminal.bracketOpen.code ∈ p.right ∨ ∀ s ∈ p.right, isTypeSymbol s = true := by
  decide +kernel

/-- A token that may be in a type without extended attributes. -/
def Token.IsTypeToken (t : Token) : Prop :=
  t.terminal ∈ typeTerminals

mutual

theorem isTypeToken_of_derives : ∀ {tree : ParseTree Token} {symbol : Symbol},
    Derives grammar Token.code symbol tree → isTypeSymbol symbol = true →
      (∀ t ∈ tree.tokens, t.terminal ≠ .bracketOpen) → ∀ t ∈ tree.tokens, t.IsTypeToken
  | .leaf token, _, .leaf _, known, _ => by
    refine List.forall_mem_singleton.mpr ?_
    obtain ⟨terminal, ht, same⟩ := List.any_eq_true.mp known
    rwa [Token.IsTypeToken, ← Terminal.code_inj (eq_of_beq same)]
  | .node number children, _, .node hp derives, known, plain => by
    rcases isTypeSymbol_productions _ (List.mem_of_getElem? hp) known with bracket | within
    · obtain ⟨t, ht, kind⟩ := derives.leaf_mem bracket
      exact absurd (Terminal.code_inj kind) (plain t (ParseTree.mem_tokensOfAll ht))
    · exact isTypeToken_of_derivesAll derives within plain

theorem isTypeToken_of_derivesAll : ∀ {trees : List (ParseTree Token)} {symbols : List Symbol},
    DerivesAll grammar Token.code symbols trees → (∀ s ∈ symbols, isTypeSymbol s = true) →
      (∀ t ∈ ParseTree.tokensOfAll trees, t.terminal ≠ .bracketOpen) →
        ∀ t ∈ ParseTree.tokensOfAll trees, t.IsTypeToken
  | [], _, _, _, _ => by simp [ParseTree.tokensOfAll]
  | tree :: rest, _, .cons first others, known, plain => by
    rw [ParseTree.tokensOfAll] at plain ⊢
    obtain ⟨head, tail⟩ := List.forall_mem_append.mp plain
    obtain ⟨symbol, symbols⟩ := List.forall_mem_cons.mp known
    exact List.forall_mem_append.mpr ⟨isTypeToken_of_derives first symbol head,
      isTypeToken_of_derivesAll others symbols tail⟩

end

/-! ### Characters of types -/

/-- Whether a character may be in a token of a type without extended attributes. -/
def isTypeChar (c : Char) : Bool :=
  isNameChar c || ['?', ',', '(', ')', '<', '>'].contains c

theorem Token.IsTypeToken.isTypeChar {t : Token} (h : t.IsTypeToken) (spelled : t.IsSpelled) :
    ∀ c ∈ t.text.toList, Idl.isTypeChar c = true := by
  have literals : ∀ terminal ∈ typeTerminals, terminal = .identifier ∨
      ∃ literal, terminal.literal? = some literal ∧
        literal.toList.all Idl.isTypeChar = true := by decide
  rcases literals _ h with name | ⟨literal, hl, all⟩
  · intro c hc
    simp [Idl.isTypeChar, isNameChar_of_isIdentifier (spelled.name name) c hc]
  · rw [spelled.literal literal hl]
    exact List.all_eq_true.mp all

/-- Layout without comments is blank. -/
theorem IsGap.isLayoutChar {gap : List Char} (h : IsGap gap) (plain : '/' ∉ gap) :
    ∀ c ∈ gap, Idl.isLayoutChar c = true := by
  induction h with
  | nil => simp
  | blank blank _ ih =>
    exact List.forall_mem_cons.mpr ⟨blank, ih fun slash => plain (List.mem_cons_of_mem _ slash)⟩
  | line | block => exact absurd List.mem_cons_self plain

/-! ### Types in front of a name -/

section Parts

variable {xs ys zs : List Char} {c : Char}

/-- The last part of a text is empty or ends as the text does. -/
theorem append_eq_concat (h : xs ++ ys = zs ++ [c]) :
    ys = [] ∧ xs = zs ++ [c] ∨ ∃ front, ys = front ++ [c] ∧ xs ++ front = zs := by
  rcases List.eq_nil_or_concat ys with rfl | ⟨front, last, rfl⟩
  · exact .inl ⟨rfl, by simpa using h⟩
  · rw [List.concat_eq_append, ← List.append_assoc] at h
    obtain ⟨same, last⟩ := List.append_inj' h rfl
    exact .inr ⟨front, by rw [List.concat_eq_append, last], same⟩

/-- The parts before the first places of a character are the same. -/
theorem eq_of_append_cons_eq {xs' ys' : List Char} (h : c ∉ xs) (h' : c ∉ xs')
    (same : xs ++ c :: ys = xs' ++ c :: ys') : xs = xs' := by
  have run (xs ys : List Char) (h : c ∉ xs) : (xs ++ c :: ys).takeWhile (· ≠ c) = xs := by
    refine takeWhile_run (fun d hd => ?_) (by simp)
    simp only [ne_eq, decide_not, Bool.not_eq_true', decide_eq_false_iff_not]
    rintro rfl
    exact h hd
  rw [← run xs ys h, same, run xs' ys' h']

/-- What ends in a blank and the name `x` are a part that does not end in a blank, layout that does,
and the name. -/
theorem exists_of_eq_append_name {type layout name behind T : List Char}
    (h : type ++ (layout ++ (name ++ behind)) = T ++ [' ', 'x']) (hb : 'x' ∉ behind)
    (filled : name ≠ []) (hn : ' ' ∉ name) (ht : ∀ front, type ≠ front ++ [' ']) :
    name = ['x'] ∧ ∃ blanks, layout = blanks ++ [' '] ∧ T = type ++ blanks := by
  have named : (type ++ (layout ++ name)) ++ behind = (T ++ [' ']) ++ ['x'] := by simpa using h
  rcases append_eq_concat named with ⟨rfl, -⟩ | ⟨front, rfl, -⟩
  case inr => simp at hb
  have spaced : (type ++ layout) ++ name = (T ++ [' ']) ++ ['x'] := by simpa using h
  rcases append_eq_concat spaced with ⟨none, -⟩ | ⟨initial, rfl, typed⟩
  case inl => exact absurd none filled
  rcases append_eq_concat typed with ⟨rfl, whole⟩ | ⟨front, rfl, -⟩
  case inr => simp at hn
  rcases append_eq_concat whole with ⟨-, same⟩ | ⟨blanks, rfl, same⟩
  · exact absurd same (ht T)
  · exact ⟨rfl, blanks, rfl, same.symm⟩

end Parts

/-- Blanks are layout. -/
theorem isGap_of_isLayoutChar {gap : List Char} (h : ∀ c ∈ gap, isLayoutChar c = true) :
    IsGap gap := by
  induction gap with
  | nil => exact .nil
  | cons c rest ih =>
    obtain ⟨blank, others⟩ := List.forall_mem_cons.mp h
    exact .blank blank (ih others)

theorem mem_textOf {tokens : List Token} {t : Token} (ht : t ∈ tokens) {c : Char}
    (hc : c ∈ t.layout.toList ++ t.text.toList) : c ∈ textOf tokens :=
  List.mem_flatMap.mpr ⟨t, ht, hc⟩

/-- Tokens end in a character of one of them. -/
theorem exists_textOf_eq_concat {tokens : List Token} (filled : tokens ≠ [])
    (texts : ∀ t ∈ tokens, t.text.toList ≠ []) :
    ∃ front c, textOf tokens = front ++ [c] ∧ ∃ t ∈ tokens, c ∈ t.text.toList := by
  obtain ⟨others, t, rfl⟩ : ∃ others t, tokens = others ++ [t] :=
    ⟨_, _, (List.dropLast_concat_getLast filled).symm⟩
  have text : t.text.toList ≠ [] := texts t (by simp)
  refine ⟨textOf others ++ (t.layout.toList ++ t.text.toList.dropLast), t.text.toList.getLast text,
    ?_, t, by simp, List.getLast_mem text⟩
  rw [textOf_append, List.append_assoc, List.append_assoc, List.dropLast_concat_getLast text]
  simp [textOf]

/-- A token of a type without extended attributes, with blanks before it. -/
structure Token.IsTypePart (t : Token) : Prop where
  typed : t.IsTypeToken
  spelled : t.IsSpelled
  filled : t.text.toList ≠ []
  blank : ∀ c ∈ t.layout.toList, isLayoutChar c = true

theorem Token.IsTypePart.solid {t : Token} (h : t.IsTypePart) : ' ' ∉ t.text.toList := fun blank =>
  absurd (h.typed.isTypeChar h.spelled _ blank) (by decide)

variable {T rest blanks : List Char} {tokens : List Token} {t s : Token}

/-- Tokens of types have no characters but those of types and blanks. -/
theorem isTypeChar_of_mem_textOf (parts : ∀ u ∈ tokens, u.IsTypePart) {c : Char}
    (hc : c ∈ textOf tokens) : isTypeChar c = true ∨ isLayoutChar c = true := by
  obtain ⟨u, hu, hc⟩ := List.mem_flatMap.mp hc
  rcases List.mem_append.mp hc with hc | hc
  · exact .inr ((parts u hu).blank c hc)
  · exact .inl ((parts u hu).typed.isTypeChar (parts u hu).spelled c hc)

/-- Tokens of types do not end in a blank. -/
theorem textOf_ne_append_space (parts : ∀ u ∈ tokens, u.IsTypePart) (filled : tokens ≠ [])
    (front : List Char) : textOf tokens ≠ front ++ [' '] := by
  intro same
  obtain ⟨front', c, same', u, hu, hc⟩ :=
    exists_textOf_eq_concat filled fun u hu => (parts u hu).filled
  obtain rfl : c = ' ' := by simpa using congrArg List.getLast? (same'.symm.trans same)
  exact (parts u hu).solid hc

/-- The blank in front of a type is layout before its first token. -/
theorem exists_of_textOf_eq_space_cons (parts : ∀ u ∈ tokens, u.IsTypePart) (filled : tokens ≠ [])
    (whole : ' ' :: T = textOf tokens ++ blanks) :
    ∃ first others, tokens = { first with layout := " " ++ first.layout } :: others ∧
      T = textOf (first :: others) ++ blanks ∧ IsGap first.layout.toList := by
  obtain ⟨⟨terminal, gap, spelling⟩, others, rfl⟩ := List.exists_cons_of_ne_nil filled
  have part := parts _ List.mem_cons_self
  simp only [textOf_cons, List.append_assoc] at whole
  rcases List.cons_eq_append_iff.mp whole with ⟨-, same⟩ | ⟨front, same, rfl⟩
  · -- The type does not start with a blank.
    obtain ⟨c, rest, starts⟩ := List.exists_cons_of_ne_nil part.filled
    rw [starts, List.cons_append] at same
    obtain ⟨rfl, -⟩ := List.cons.inj same
    exact absurd (by simp [starts]) part.solid
  · refine ⟨⟨terminal, String.ofList front, spelling⟩, others, ?_, ?_, ?_⟩
    · rw [← String.ofList_toList (s := gap), same]
      simp
    · simp [textOf_cons]
    · rw [String.toList_ofList]
      exact isGap_of_isLayoutChar fun c hc => part.blank c (by simp [same, hc])

/-- The first semicolon is the one behind the name. -/
theorem text_before_semicolon (parts : ∀ u ∈ tokens, u.IsTypePart)
    (name : ∀ c ∈ t.text.toList, isNameChar c = true)
    (blank : ∀ u ∈ [t, s], ∀ c ∈ u.layout.toList, isLayoutChar c = true) (mark : s.text = ";")
    (plain : ';' ∉ T)
    (text : textOf (tokens ++ [t, s]) ++ rest = ' ' :: (T ++ " x; \x7d;".toList)) :
    textOf tokens ++ (t.layout.toList ++ (t.text.toList ++ s.layout.toList)) =
      (' ' :: T) ++ [' ', 'x'] := by
  have split : textOf (tokens ++ [t, s]) ++ rest =
      (textOf tokens ++ (t.layout.toList ++ (t.text.toList ++ s.layout.toList))) ++
        ';' :: rest := by
    simp [textOf, mark]
  have split' : ' ' :: (T ++ " x; \x7d;".toList) =
      ((' ' :: T) ++ [' ', 'x']) ++ ';' :: " \x7d;".toList := by
    simp
  refine eq_of_append_cons_eq ?_ (by simp [plain]) (split.symm.trans (text.trans split'))
  simp only [List.mem_append, not_or]
  refine ⟨fun h => ?_, fun h => ?_, fun h => ?_, fun h => ?_⟩
  · exact absurd (isTypeChar_of_mem_textOf parts h) (by decide)
  · exact absurd (blank t (by simp) _ h) (by decide)
  · exact absurd (name _ h) (by decide)
  · exact absurd (blank s (by simp) _ h) (by decide)

/-- What is read as the tokens of a type, a name and a semicolon, in the place of a type without
comments, is the type, and the name is the one behind it. -/
theorem exists_of_text
    (found : ∀ u ∈ tokens ++ [t, s], ∃ accepted cs rest, u.Starts accepted cs rest)
    (typed : ∀ u ∈ tokens, u.IsTypeToken) (filled : tokens ≠ []) (name : t.terminal = .identifier)
    (ends : s.terminal = .semicolon) (plain : ∀ c ∈ T, c ∉ ['/', ';'])
    (text : textOf (tokens ++ [t, s]) ++ rest = ' ' :: (T ++ " x; \x7d;".toList)) :
    ∃ first others blanks, tokens = { first with layout := " " ++ first.layout } :: others ∧
      T = textOf (first :: others) ++ blanks ∧ IsGap first.layout.toList ∧ IsGap blanks ∧
      ∀ c ∈ T, isTypeChar c = true ∨ isLayoutChar c = true := by
  have known (u : Token) (hu : u ∈ tokens ++ [t, s]) : u.IsSpelled ∧ u.text.toList ≠ [] ∧
      ∀ c ∈ u.layout.toList, isLayoutChar c = true := by
    obtain ⟨accepted, cs, behind, starts⟩ := found u hu
    refine ⟨isSpelled_of_starts starts, starts.filled, starts.isGap.isLayoutChar fun slash => ?_⟩
    -- There are no comments in the text.
    have inside := List.mem_append_left rest (mem_textOf hu (List.mem_append_left _ slash))
    rw [text] at inside
    have none : '/' ∉ T := fun h => plain _ h (by decide)
    simp [none] at inside
  have parts (u : Token) (hu : u ∈ tokens) : u.IsTypePart := by
    obtain ⟨spelled, filled, blank⟩ := known u (List.mem_append_left _ hu)
    exact ⟨typed u hu, spelled, filled, blank⟩
  obtain ⟨spelled, filled', blank⟩ := known t (by simp)
  obtain ⟨marked, -, blank'⟩ := known s (by simp)
  have nameChar := isNameChar_of_isIdentifier (spelled.name name)
  have fronts := text_before_semicolon parts nameChar (by simpa using ⟨blank, blank'⟩)
    (marked.literal ";" (by rw [ends]; rfl)) (fun h => plain _ h (by decide)) text
  obtain ⟨-, blanks, layout, whole⟩ := exists_of_eq_append_name fronts
    (fun h => absurd (blank' _ h) (by decide)) filled'
    (fun h => absurd (nameChar _ h) (by decide)) (textOf_ne_append_space parts filled)
  have behind : ∀ c ∈ blanks, isLayoutChar c = true := fun c hc =>
    blank c (by simp [layout, hc])
  obtain ⟨first, others, rfl, same, isGap⟩ := exists_of_textOf_eq_space_cons parts filled whole
  refine ⟨first, others, blanks, rfl, same, isGap, isGap_of_isLayoutChar behind, fun c hc => ?_⟩
  have inside : c ∈ ' ' :: T := List.mem_cons_of_mem _ hc
  rw [whole] at inside
  exact (List.mem_append.mp inside).elim (isTypeChar_of_mem_textOf parts) fun h =>
    .inr (behind c h)

end WebSpec.Idl
