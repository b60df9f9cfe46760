import WebSpec.Proofs.Value.Scanning

/-!
# How tokens are written

Every kind of token admits some texts, and there is one way to write a token with such a text: its
`lexeme`. A word must not have in it what ends a word, a quoted text has no quote, a type reference
no blanks at its ends, a range has braces around it and nowhere else, and any other token is one of
the symbols of its kind.

Whatever stands before it, a lexeme in front of a blank is read as its token: `Scans.lexeme`. So
tokens that are written one after the other, each with a blank behind it, are read back:
`isReadBack_of_isLexical`.
-/

namespace WebSpec.Value

open Reading (symbolKind?)

/-! ### Texts -/

/-- What may be the text of a range. -/
def IsRangeText (text : String) : Prop :=
  ∃ cs, text.toList = '\x7b' :: (cs ++ ['\x7d']) ∧ ∀ c ∈ cs, c ≠ '\x7b' ∧ c ≠ '\x7d'

namespace TokenKind

/-- The symbols that are tokens of a kind. -/
def symbols : TokenKind → List String
  | .combinator => ["|", "||", "&&"]
  | .bracketOpen => ["["]
  | .bracketClose => ["]"]
  | .parenOpen => ["("]
  | .parenClose => [")"]
  | .multiplier => ["+", "*", "#", "!", "?"]
  | .comma => [","]
  | .slash => ["/"]
  | _ => []

/-- The texts that tokens of a kind may have. -/
def Admits (kind : TokenKind) (text : String) : Prop :=
  match kind with
  | .keyword | .functionStart => IsWord text
  | .string | .propertyRef => '\'' ∉ text.toList
  | .typeRef => IsTypeText text
  | .multiplierRange => IsRangeText text
  | kind => text ∈ kind.symbols

end TokenKind

/-- What a token says, wherever it stands. -/
def Token.content (t : Token) : TokenKind × String :=
  (t.kind, t.text)

/-- Tokens whose text is one that their kind admits. -/
def Token.IsLexical (t : Token) : Prop :=
  t.kind.Admits t.text

/-- How a token is written. -/
def Token.lexeme (t : Token) : List Char :=
  match t.kind with
  | .functionStart => t.text.toList ++ ['(']
  | .string => '\'' :: (t.text.toList ++ ['\''])
  | .typeRef => '<' :: (t.text.toList ++ ['>'])
  | .propertyRef => '<' :: '\'' :: (t.text.toList ++ ['\'', '>'])
  | _ => t.text.toList

/-- Tokens one after the other, each with a space behind it. -/
def render (ts : List Token) : String :=
  String.ofList (ts.flatMap fun t => t.lexeme ++ [' '])

/-- Symbols of one character are what the reader takes them for. -/
theorem TokenKind.exists_of_mem_symbols {kind : TokenKind} {text : String}
    (h : text ∈ kind.symbols) (hk : kind ≠ .combinator) :
    ∃ c, text = c.toString ∧ symbolKind? c = some kind := by
  cases kind with
  | combinator => exact absurd rfl hk
  | bracketOpen => exact ⟨'[', List.mem_singleton.mp h, rfl⟩
  | bracketClose => exact ⟨']', List.mem_singleton.mp h, rfl⟩
  | parenOpen => exact ⟨'(', List.mem_singleton.mp h, rfl⟩
  | parenClose => exact ⟨')', List.mem_singleton.mp h, rfl⟩
  | comma => exact ⟨',', List.mem_singleton.mp h, rfl⟩
  | slash => exact ⟨'/', List.mem_singleton.mp h, rfl⟩
  | multiplier =>
    simp only [symbols, List.mem_cons, List.not_mem_nil, or_false] at h
    rcases h with rfl | rfl | rfl | rfl | rfl
    · exact ⟨'+', rfl, rfl⟩
    · exact ⟨'*', rfl, rfl⟩
    · exact ⟨'#', rfl, rfl⟩
    · exact ⟨'!', rfl, rfl⟩
    · exact ⟨'?', rfl, rfl⟩
  | _ => cases h

theorem TokenKind.exists_combinator {text : String} (h : text ∈ symbols .combinator) :
    ∃ c : Combinator, text = c.symbol := by
  simp only [symbols, List.mem_cons, List.not_mem_nil, or_false] at h
  rcases h with rfl | rfl | rfl
  · exact ⟨.oneOf, rfl⟩
  · exact ⟨.anyOf, rfl⟩
  · exact ⟨.allOf, rfl⟩

/-! ### Reading what is written -/

theorem Scans.of_symbol {kind : TokenKind} {text : String} (h : text ∈ kind.symbols)
    (hk : kind ≠ .combinator) (rest : List Char) (position : Nat) :
    Scans text.toList rest position [⟨kind, text, position⟩] := by
  obtain ⟨c, rfl, hc⟩ := TokenKind.exists_of_mem_symbols h hk
  simpa using Scans.symbol hc rest position

/-- A lexeme in front of a blank is read as its token. -/
theorem Scans.lexeme {t : Token} (h : t.IsLexical) (rest : List Char) (position : Nat) :
    Scans t.lexeme (' ' :: rest) position [{ t with position := position }] := by
  obtain ⟨kind, text, _⟩ := t
  cases kind with
  | keyword =>
    have ends : EndsWord (' ' :: rest) := fun c hc => .inl (by obtain rfl := Option.some.inj hc; rfl)
    exact Scans.word h ends position
  | functionStart => exact Scans.functionStart h _ position
  | string => exact Scans.quoted h _ position
  | propertyRef => exact Scans.propertyRef h _ position
  | typeRef => exact Scans.typeRef h _ position
  | multiplierRange =>
    obtain ⟨cs, ht, plain⟩ := h
    obtain rfl : text = String.ofList ('\x7b' :: (cs ++ ['\x7d'])) :=
      String.toList_inj.mp (by rw [ht, String.toList_ofList])
    simpa [Token.lexeme] using Scans.range plain (' ' :: rest) position
  | combinator =>
    obtain ⟨c, rfl⟩ := TokenKind.exists_combinator h
    exact Scans.combinator c rest position
  | bracketOpen | bracketClose | parenOpen | parenClose | multiplier | comma | slash =>
    exact Scans.of_symbol h TokenKind.noConfusion _ position

/-- Tokens that are written one after the other are read back, in their new places. -/
theorem Scans.render {ts : List Token} (h : ∀ t ∈ ts, t.IsLexical) (rest : List Char)
    (position : Nat) : ∃ ts', Scans (ts.flatMap fun t => t.lexeme ++ [' ']) rest position ts' ∧
      ts'.map Token.content = ts.map Token.content := by
  induction ts generalizing position with
  | nil => exact ⟨[], .nil rest position, rfl⟩
  | cons t ts ih =>
    obtain ⟨lexical, others⟩ := List.forall_mem_cons.mp h
    obtain ⟨ts', scans, same⟩ := ih others (position + (t.lexeme ++ [' ']).length)
    have blank (after : List Char) := Scans.blank (c := ' ') rfl after (position + t.lexeme.length)
    refine ⟨{ t with position := position } :: ts', ?_, ?_⟩
    · exact ((Scans.lexeme lexical _ position).append (blank _)).append scans
    · rw [List.map_cons, List.map_cons, same]
      rfl

theorem Token.isLexical_iff_of_content_eq {ts ts' : List Token}
    (same : ts'.map Token.content = ts.map Token.content) :
    (∀ t ∈ ts', t.IsLexical) ↔ ∀ t ∈ ts, t.IsLexical := by
  have admits (ts : List Token) :
      (∀ t ∈ ts, t.IsLexical) ↔ ∀ p ∈ ts.map Token.content, p.1.Admits p.2 := by
    simp [Token.IsLexical, Token.content]
  rw [admits, admits, same]

/-- Written down and read again, the tokens say the same. -/
def IsReadBack (ts : List Token) : Prop :=
  (tokens (render ts)).map (List.map Token.content) = .ok (ts.map Token.content)

theorem isReadBack_of_isLexical {ts : List Token} (h : ∀ t ∈ ts, t.IsLexical) : IsReadBack ts := by
  obtain ⟨ts', scans, same⟩ := Scans.render h [] 0
  rw [IsReadBack, render, scans.tokens_eq, ← same]
  rfl

end WebSpec.Value
