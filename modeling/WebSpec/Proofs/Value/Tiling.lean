import WebSpec.Proofs.Outcome
import WebSpec.Proofs.Value.Lexeme

/-!
# Tokens in their places

A text that can be read is its tokens, each where its position says, with nothing but blanks
besides: `tiles_of_tokens`. A token is written as its lexeme there, except that a type reference may
have blanks in its brackets.

The reader goes on with a token in two ways, by remembering where it started and by being told where
a symbol stands, and it reads the end of a word twice. What holds all the time is `Reached`: what has
been read is some tokens in their places and, behind them, the beginning of another token, of which
the reading knows the start and the payload (`Holds`). A step keeps this (`Reached.step`), so any
number of them does (`Reached.advance`).

Tokens in their places are lexical. Those of any text are read back from what they are written as:
`tokens_render`.
-/

namespace WebSpec.Value

/-! ### Tokens in their places -/

/-- The characters are the token as it may be written. -/
inductive Token.IsSpelled (t : Token) : List Char → Prop where
  | exact : IsSpelled t t.lexeme
  /-- The text of a type reference may have blanks around it. -/
  | spaced {before behind} (kind : t.kind = .typeRef) (blank : ∀ c ∈ before, Text.isBlank c)
      (blank' : ∀ c ∈ behind, Text.isBlank c) :
      IsSpelled t ('<' :: (before ++ (t.text.toList ++ behind) ++ ['>']))

/-- The characters are the tokens, each in its place, and blanks. -/
inductive Tiles : List Char → List Token → Prop where
  | nil : Tiles [] []
  | blank {cs ts c} (h : Tiles cs ts) (blank : Text.isBlank c) : Tiles (cs ++ [c]) ts
  | token {cs ts cs'} {t : Token} (h : Tiles cs ts) (place : t.position = cs.length)
      (lexical : t.IsLexical) (spelled : t.IsSpelled cs') : Tiles (cs ++ cs') (ts ++ [t])

theorem Token.lexeme_ne_nil {t : Token} (lexical : t.IsLexical) : t.lexeme ≠ [] := by
  obtain ⟨kind, text, _⟩ := t
  have symbols : text ∈ kind.symbols → text.toList ≠ [] := by
    cases kind <;> simp [TokenKind.symbols] <;> grind
  cases kind with
  | keyword => exact mt String.toList_eq_nil_iff.mp lexical.nonempty
  | multiplierRange =>
    obtain ⟨cs, ht, -⟩ := lexical
    simp [lexeme, ht]
  | functionStart | string | typeRef | propertyRef => simp [lexeme]
  | _ => exact symbols lexical

theorem Token.IsSpelled.ne_nil {t : Token} {cs : List Char} (h : t.IsSpelled cs)
    (lexical : t.IsLexical) : cs ≠ [] := by
  cases h with
  | exact => exact lexeme_ne_nil lexical
  | spaced => exact List.cons_ne_nil _ _

theorem Tiles.isLexical {cs : List Char} {ts : List Token} (h : Tiles cs ts) :
    ∀ t ∈ ts, t.IsLexical := by
  induction h with
  | nil => simp
  | blank _ _ ih => exact ih
  | token _ _ lexical _ ih =>
    intro t ht
    rcases List.mem_append.mp ht with ht | ht
    · exact ih t ht
    · rwa [List.mem_singleton.mp ht]

theorem Tiles.position_lt {cs : List Char} {ts : List Token} (h : Tiles cs ts) :
    ∀ t ∈ ts, t.position < cs.length := by
  induction h with
  | nil => simp
  | blank _ _ ih =>
    intro t ht
    have := ih t ht
    simp only [List.length_append]
    omega
  | token _ place lexical spelled ih =>
    have := List.length_pos_iff.mpr (spelled.ne_nil lexical)
    intro t ht
    simp only [List.length_append]
    rcases List.mem_append.mp ht with ht | ht
    · have := ih t ht
      omega
    · rw [List.mem_singleton.mp ht, place]
      omega

/-- Tokens in their places are in order. -/
theorem Tiles.pairwise_position {cs : List Char} {ts : List Token} (h : Tiles cs ts) :
    ts.Pairwise fun t t' => t.position < t'.position := by
  induction h with
  | nil => exact .nil
  | blank _ _ ih => exact ih
  | token before place _ _ ih =>
    refine List.pairwise_append.mpr ⟨ih, List.pairwise_singleton _ _, fun t ht t' ht' => ?_⟩
    rw [List.mem_singleton.mp ht', place]
    exact before.position_lt t ht

theorem Tiles.blank_of_nil {cs : List Char} {ts : List Token} (h : Tiles cs ts) (none : ts = []) :
    ∀ c ∈ cs, Text.isBlank c := by
  induction h with
  | nil => simp
  | blank _ blank ih => exact List.forall_mem_append.mpr ⟨ih none, by simpa using blank⟩
  | token => simp at none

/-- Before the first token there are blanks only. -/
theorem Tiles.exists_head {cs : List Char} {ts : List Token} (h : Tiles cs ts) {t : Token}
    (first : t ∈ ts.head?) :
    ∃ before spelled behind, cs = before ++ (spelled ++ behind) ∧ (∀ c ∈ before, Text.isBlank c) ∧
      t.IsLexical ∧ t.IsSpelled spelled := by
  induction h with
  | nil => cases first
  | @blank cs ts c _ _ ih =>
    obtain ⟨before, spelled, behind, rfl, parts⟩ := ih first
    exact ⟨before, spelled, behind ++ [c], by simp, parts⟩
  | @token cs ts cs' u tiles place lexical spelled ih =>
    cases ts with
    | nil =>
      obtain rfl := Option.some.inj first
      exact ⟨cs, cs', [], by simp, tiles.blank_of_nil rfl, lexical, spelled⟩
    | cons v ts =>
      obtain ⟨before, spelled, behind, rfl, parts⟩ := ih first
      exact ⟨before, spelled, behind ++ cs', by simp, parts⟩

/-- A multiplier ends a word. -/
theorem Token.IsSpelled.endsWord {t : Token} {cs : List Char} (h : t.IsSpelled cs)
    (lexical : t.IsLexical) (ht : t.isMultiplier) (rest : List Char) : EndsWord (cs ++ rest) := by
  obtain ⟨kind, text, position⟩ := t
  cases h with
  | spaced kind_eq => simp_all [Token.isMultiplier]
  | exact =>
    obtain rfl | rfl : kind = .multiplier ∨ kind = .multiplierRange := by
      simpa [Token.isMultiplier] using ht
    · simp only [Token.IsLexical, TokenKind.Admits, TokenKind.symbols, List.mem_cons,
        List.not_mem_nil, or_false] at lexical
      rcases lexical with rfl | rfl | rfl | rfl | rfl <;>
        simp [EndsWord, Token.lexeme, Reading.endsWord]
    · obtain ⟨inside, braced, -⟩ := lexical
      simp only [Token.lexeme, braced]
      exact fun c hc => .inr (by obtain rfl := Option.some.inj hc; decide)

/-! ### What the reader knows -/

namespace Reading

open Text (isBlank strip)

/-- The reader has read the characters, the beginning of a token at the given position. -/
inductive Holds : Reading → Nat → List Char → Prop where
  | between {first} : Holds .between first []
  | word {first text} (word : IsWord text) : Holds (.word first text) first text.toList
  | quoted {first text} (unquoted : '\'' ∉ text.toList) :
      Holds (.quoted first text) first ('\'' :: text.toList)
  | typeRef {first text} (plain : ∀ c ∈ text.toList, c ∉ ['<', '>', '\'']) :
      Holds (.typeRef first text) first ('<' :: text.toList)
  | propertyRef {first text} (unquoted : '\'' ∉ text.toList) :
      Holds (.propertyRef first text) first ('<' :: '\'' :: text.toList)
  | propertyRefEnd {first text} (unquoted : '\'' ∉ text.toList) :
      Holds (.propertyRefEnd first text) first ('<' :: '\'' :: (text.toList ++ ['\'']))
  | range {first text cs} (begins : text.toList = '\x7b' :: cs)
      (plain : ∀ c ∈ cs, c ≠ '\x7b' ∧ c ≠ '\x7d') : Holds (.range first text) first text.toList
  | ampersand {first} : Holds (.ampersand first) first ['&']
  | bar {first} : Holds (.bar first) first ['|']

/-- The reader has read the characters: the tokens, and the beginning of another one. -/
inductive Reached (r : Reading) : List Char → List Token → Prop where
  | intro {done pending ts} (tiles : Tiles done ts) (holds : r.Holds done.length pending) :
      Reached r (done ++ pending) ts

variable {r r' : Reading} {done pending cs : List Char} {ts ts' : List Token} {c : Char}

theorem Reached.exists_holds (h : r.Reached cs ts) :
    ∃ done pending, cs = done ++ pending ∧ Tiles done ts ∧ r.Holds done.length pending := by
  obtain ⟨tiles, holds⟩ := h
  exact ⟨_, _, rfl, tiles, holds⟩

/-- The reader is between two tokens. -/
theorem Reached.of_tiles (h : Tiles cs ts) : Reached .between cs ts := by
  simpa using Reached.intro h .between

/-- The reader has read the first character of a token. -/
theorem Reached.opens (h : Tiles done ts) (holds : r.Holds done.length [c]) :
    r.Reached (done ++ [c]) (ts ++ []) := by
  rw [List.append_nil]
  exact .intro h holds

/-- The reader has read another character of its token. -/
theorem Reached.extend (h : Tiles done ts) (holds : r.Holds done.length (pending ++ [c])) :
    r.Reached (done ++ pending ++ [c]) (ts ++ []) := by
  rw [List.append_nil, List.append_assoc]
  exact .intro h holds

/-- The reader has read the last character of its token. -/
theorem Reached.complete {t : Token} (h : Tiles done ts) (place : t.position = done.length)
    (lexical : t.IsLexical) (spelled : t.IsSpelled (pending ++ [c])) :
    Reached .between (done ++ pending ++ [c]) (ts ++ [t]) := by
  rw [List.append_assoc]
  exact .of_tiles (h.token place lexical spelled)

/-! ### Reading one character -/

theorem admits_of_symbolKind? {kind : TokenKind} (h : symbolKind? c = some kind) :
    kind.Admits c.toString ∧ ∀ position, Token.lexeme ⟨kind, c.toString, position⟩ = [c] := by
  unfold symbolKind? at h
  split at h <;> cases h <;>
    exact ⟨by simp [TokenKind.Admits, TokenKind.symbols, Char.toString],
      fun _ => by simp [Token.lexeme]⟩

theorem not_mem_of_symbolKind? (h : symbolKind? c = none) : c ∉ "[]+*#!?/,()".toList := by
  intro hc
  simp only [String.reduceToList, List.mem_cons, List.not_mem_nil, or_false] at hc
  rcases hc with rfl | rfl | rfl | rfl | rfl | rfl | rfl | rfl | rfl | rfl | rfl <;>
    simp [symbolKind?] at h

/-- What a character between two tokens is: a blank, a token, or the beginning of one. -/
theorem start_cases {position : Nat} (h : start position c = .ok (ts, r)) :
    isBlank c ∧ ts = [] ∧ r = .between ∨
      (∃ kind, symbolKind? c = some kind ∧ ts = [⟨kind, c.toString, position⟩] ∧ r = .between) ∨
      ts = [] ∧ r.Holds position [c] := by
  cases hk : symbolKind? c with
  | some kind =>
    rw [start_of_symbolKind? hk] at h
    cases h
    exact .inr (.inl ⟨kind, rfl, rfl, rfl⟩)
  | none =>
    simp only [start, hk, refuse] at h
    split_ifs at h with blank typeRef quoted range ampersand bar refused <;> cases h
    · exact .inl ⟨blank, rfl, rfl⟩
    · exact .inr (.inr ⟨rfl, typeRef ▸ @Holds.typeRef position "" (by simp)⟩)
    · exact .inr (.inr ⟨rfl, quoted ▸ @Holds.quoted position "" (by simp)⟩)
    · exact .inr (.inr ⟨rfl, range ▸ @Holds.range position "\x7b" [] rfl (by simp)⟩)
    · exact .inr (.inr ⟨rfl, ampersand ▸ .ampersand⟩)
    · exact .inr (.inr ⟨rfl, bar ▸ .bar⟩)
    · have symbol := not_mem_of_symbolKind? hk
      have plain : IsWordChar c := ⟨blank, by simp_all⟩
      have word : IsWord c.toString := ⟨by simp [Char.toString], by simp [Char.toString, plain]⟩
      exact .inr (.inr ⟨rfl, by simpa using @Holds.word position _ word⟩)

theorem Reached.start (h : Tiles cs ts) (hs : start cs.length c = .ok (ts', r')) :
    r'.Reached (cs ++ [c]) (ts ++ ts') := by
  rcases start_cases hs with ⟨blank, rfl, rfl⟩ | ⟨kind, hk, rfl, rfl⟩ | ⟨rfl, holds⟩
  · rw [List.append_nil]
    exact .of_tiles (h.blank blank)
  · obtain ⟨admitted, hl⟩ := admits_of_symbolKind? hk
    exact .of_tiles (h.token rfl admitted (hl cs.length ▸ .exact))
  · exact .opens h holds

theorem Reached.endBefore {t : Token} (h : Tiles done ts) (place : t.position = done.length)
    (lexical : t.IsLexical) (spelled : t.IsSpelled pending)
    (hs : endBefore t (done ++ pending).length c = .ok (ts', r')) :
    r'.Reached (done ++ pending ++ [c]) (ts ++ ts') := by
  obtain ⟨others, started, rfl⟩ := endBefore_eq_ok.mp hs
  have tiles : Tiles (done ++ pending) (ts ++ [t]) := h.token place lexical spelled
  rw [List.append_cons ts]
  exact .start tiles started

/-- The text of a type reference is what is between its brackets, without blanks at the ends. -/
theorem isSpelled_typeRef (text : String) (position : Int) :
    Token.IsSpelled ⟨.typeRef, strip text, position⟩ ('<' :: (text.toList ++ ['>'])) := by
  obtain ⟨before, behind, blank, blank', h⟩ := exists_strip text
  rw [h]
  exact .spaced rfl blank blank'

theorem isTypeText_strip {text : String} (plain : ∀ c ∈ text.toList, c ∉ ['<', '>', '\''])
    (nonblank : strip text ≠ "") : IsTypeText (strip text) where
  nonempty := nonblank
  trimmed := trimmed_strip text
  plain c hc := by
    obtain ⟨before, behind, -, -, h⟩ := exists_strip text
    exact plain c (by simp [h, hc])

theorem isLexical_combinator (combinator : Combinator) (position : Int) :
    Token.IsLexical ⟨.combinator, combinator.symbol, position⟩ := by
  cases combinator <;>
    simp [Token.IsLexical, TokenKind.Admits, TokenKind.symbols, Combinator.symbol]

theorem isSpelled_combinator (combinator : Combinator) (position : Int) {cs : List Char}
    (h : combinator.symbol.toList = cs) :
    Token.IsSpelled ⟨.combinator, combinator.symbol, position⟩ cs :=
  h ▸ .exact

theorem forall_mem_push {P : Char → Prop} {text : String} (h : ∀ c ∈ text.toList, P c) (hc : P c) :
    ∀ c' ∈ (text.push c).toList, P c' := by
  simpa [or_imp, forall_and] using ⟨h, hc⟩

theorem Reached.step_word {text : String} (tiles : Tiles done ts) (word : IsWord text)
    (hs : (Reading.word done.length text).step (done ++ text.toList).length c = .ok (ts', r')) :
    r'.Reached (done ++ text.toList ++ [c]) (ts ++ ts') := by
  have keyword : Token.IsLexical ⟨.keyword, text, done.length⟩ := word
  simp only [Reading.step, refuse] at hs
  split_ifs at hs with blank opens refused ends
  · -- A blank ends the word and means nothing.
    cases hs
    exact .of_tiles ((tiles.token rfl keyword .exact).blank blank)
  · cases hs
    subst opens
    exact .complete tiles rfl word .exact
  · exact .endBefore tiles rfl keyword .exact hs
  · cases hs
    have wordChar : IsWordChar c := ⟨blank, by simp_all [endsWord]⟩
    have longer : IsWord (text.push c) := ⟨by simp, forall_mem_push word.plain wordChar⟩
    exact .extend tiles (by simpa using Holds.word longer)

theorem Reached.step_typeRef {text : String} (tiles : Tiles done ts)
    (plain : ∀ c ∈ text.toList, c ∉ ['<', '>', '\''])
    (hs : (Reading.typeRef done.length text).step (done ++ '<' :: text.toList).length c =
      .ok (ts', r')) :
    r'.Reached (done ++ '<' :: text.toList ++ [c]) (ts ++ ts') := by
  simp only [Reading.step, refuse] at hs
  split_ifs at hs with quote closes blank refused
  · cases hs
    obtain ⟨rfl, rfl⟩ : c = '\'' ∧ text = "" := by simpa using quote
    exact .extend tiles (@Holds.propertyRef _ "" (by simp))
  · cases hs
    subst closes
    exact .complete tiles rfl (isTypeText_strip plain blank) (isSpelled_typeRef text _)
  · cases hs
    have longer := forall_mem_push (c := c) plain (by simp_all)
    exact .extend tiles (by simpa using Holds.typeRef longer)

theorem Reached.step_range {text : String} (tiles : Tiles done ts)
    (begins : text.toList = '\x7b' :: cs) (plain : ∀ c ∈ cs, c ≠ '\x7b' ∧ c ≠ '\x7d')
    (hs : (Reading.range done.length text).step (done ++ text.toList).length c = .ok (ts', r')) :
    r'.Reached (done ++ text.toList ++ [c]) (ts ++ ts') := by
  simp only [Reading.step, refuse] at hs
  split_ifs at hs with opens closes
  · cases hs
    subst closes
    have lexical : IsRangeText (text.push '\x7d') := ⟨cs, by simp [begins], plain⟩
    have spelled : Token.IsSpelled ⟨.multiplierRange, text.push '\x7d', done.length⟩
      (text.push '\x7d').toList := .exact
    exact .complete tiles rfl lexical (by simpa using spelled)
  · cases hs
    have longer : ∀ c' ∈ cs ++ [c], c' ≠ '\x7b' ∧ c' ≠ '\x7d' := by
      simpa [or_imp, forall_and, opens, closes] using plain
    have begins' : (text.push c).toList = '\x7b' :: (cs ++ [c]) := by simp [begins]
    exact .extend tiles (by simpa using Holds.range begins' longer)

/-- A character is read: what has been read before it is longer by this character. -/
theorem Reached.step (h : r.Reached cs ts) (hs : r.step cs.length c = .ok (ts', r')) :
    r'.Reached (cs ++ [c]) (ts ++ ts') := by
  obtain @⟨done, pending, ts, tiles, holds⟩ := h
  cases holds with
  | between =>
    rw [List.append_nil] at hs ⊢
    exact .start tiles hs
  | word word => exact .step_word tiles word hs
  | @quoted _ text unquoted =>
    simp only [Reading.step] at hs
    split_ifs at hs with quote
    · cases hs
      subst quote
      exact .complete tiles rfl unquoted .exact
    · cases hs
      have longer : '\'' ∉ (text.push c).toList := by simp [unquoted, Ne.symm quote]
      exact .extend tiles (by simpa using Holds.quoted longer)
  | typeRef plain => exact .step_typeRef tiles plain hs
  | @propertyRef _ text unquoted =>
    simp only [Reading.step] at hs
    split_ifs at hs with quote
    · cases hs
      subst quote
      exact .extend tiles (.propertyRefEnd unquoted)
    · cases hs
      have longer : '\'' ∉ (text.push c).toList := by simp [unquoted, Ne.symm quote]
      exact .extend tiles (by simpa using Holds.propertyRef longer)
  | @propertyRefEnd _ text unquoted =>
    simp only [Reading.step, refuse] at hs
    split_ifs at hs with closes
    cases hs
    subst closes
    have spelled : Token.IsSpelled ⟨.propertyRef, text, done.length⟩
        ('<' :: '\'' :: (text.toList ++ ['\'', '>'])) := .exact
    exact .complete tiles rfl unquoted (by simpa using spelled)
  | range begins plain => exact .step_range tiles begins plain hs
  | ampersand =>
    simp only [Reading.step, refuse] at hs
    split_ifs at hs with closes
    cases hs
    subst closes
    exact .complete tiles rfl (isLexical_combinator .allOf _) (isSpelled_combinator .allOf _ rfl)
  | bar =>
    simp only [Reading.step] at hs
    split_ifs at hs with closes
    · cases hs
      subst closes
      exact .complete tiles rfl (isLexical_combinator .anyOf _) (isSpelled_combinator .anyOf _ rfl)
    · have spelled := isSpelled_combinator .oneOf done.length rfl
      exact .endBefore tiles rfl (isLexical_combinator .oneOf _) spelled hs

/-! ### Reading many characters -/

/-- Reads the characters from `position` on: the tokens that they complete, and how the reader goes
on. -/
def advance (position : Nat) (r : Reading) : List Char → Except Fault (List Token × Reading)
  | [] => .ok ([], r)
  | c :: rest => do
    let (ts, r') ← r.step position c
    let (others, r') ← advance (position + 1) r' rest
    pure (ts ++ others, r')

/-- The characters are read up to some point, and the others from there on. -/
theorem run_of_advance {position : Nat} (h : advance position r cs = .ok (ts, r'))
    (source rest : List Char) :
    run source position r (cs ++ rest) =
      (run source (position + cs.length) r' rest).map (ts ++ ·) := by
  induction cs generalizing position r ts with
  | nil =>
    cases h
    simp only [List.nil_append, List.length_nil, Nat.add_zero]
    cases run source position r' rest <;> rfl
  | cons c cs ih =>
    obtain ⟨⟨first, r₁⟩, hs, h⟩ := bind_eq_ok.mp h
    obtain ⟨⟨others, r₂⟩, hr, h⟩ := bind_eq_ok.mp h
    cases h
    rw [List.cons_append, run_cons_of_step hs, ih hr, List.length_cons, Nat.add_assoc,
      Nat.add_comm 1]
    cases run source (position + (cs.length + 1)) r' rest <;> simp [Except.map]

/-- Characters that cannot all be read: up to some point they can, and not from there on. -/
theorem exists_of_advance_eq_error {position : Nat} {fault : Fault}
    (h : advance position r cs = .error fault) :
    ∃ before c behind ts r', cs = before ++ c :: behind ∧
      advance position r before = .ok (ts, r') ∧
        r'.step (position + before.length) c = .error fault := by
  induction cs generalizing position r with
  | nil => cases h
  | cons c cs ih =>
    cases hs : r.step position c with
    | error =>
      rw [advance, hs] at h
      cases h
      exact ⟨[], c, cs, [], r, rfl, rfl, hs⟩
    | ok read =>
      cases hr : advance (position + 1) read.2 cs with
      | ok =>
        rw [advance, hs] at h
        simp only [bind, Except.bind, hr] at h
        cases h
      | error =>
        rw [advance, hs] at h
        simp only [bind, Except.bind, hr] at h
        cases h
        obtain ⟨before, c', behind, ts, r', rfl, hb, refused⟩ := ih hr
        refine ⟨c :: before, c', behind, read.1 ++ ts, r', rfl, ?_, ?_⟩
        · simp only [advance, hs, bind, Except.bind, hb]
          rfl
        · rwa [List.length_cons, Nat.add_comm before.length, ← Nat.add_assoc]

/-- A refused character is refused whatever is behind it. -/
theorem run_of_step_eq_error {position : Nat} {fault : Fault}
    (h : advance position r cs = .ok (ts, r'))
    (refused : r'.step (position + cs.length) c = .error fault) (source rest : List Char) :
    run source position r (cs ++ c :: rest) = .error fault := by
  rw [run_of_advance h, run, refused]
  rfl

/-- A text that is read is one whose characters are, and that may end there. -/
theorem exists_of_run {source : List Char} {position : Nat} (h : run source position r cs = .ok ts) :
    ∃ first r' last, advance position r cs = .ok (first, r') ∧ r'.finish source = .ok last ∧
      ts = first ++ last := by
  cases ha : advance position r cs with
  | error =>
    obtain ⟨before, c, behind, first, r', rfl, hb, refused⟩ := exists_of_advance_eq_error ha
    rw [run_of_step_eq_error hb refused] at h
    cases h
  | ok read =>
    have hr := run_of_advance ha source []
    rw [List.append_nil, h, run] at hr
    cases hf : read.2.finish source with
    | error =>
      rw [hf] at hr
      cases hr
    | ok last =>
      rw [hf] at hr
      exact ⟨read.1, read.2, last, rfl, hf, Except.ok.inj hr⟩

/-- What holds between two characters holds from beginning to end. -/
theorem Reached.advance {more : List Char} (h : r.Reached cs ts)
    (hr : r.advance cs.length more = .ok (ts', r')) : r'.Reached (cs ++ more) (ts ++ ts') := by
  induction more generalizing cs ts r ts' with
  | nil =>
    cases hr
    simpa using h
  | cons c more ih =>
    obtain ⟨⟨first, r₁⟩, hs, hr⟩ := bind_eq_ok.mp hr
    obtain ⟨⟨others, r₂⟩, hr, last⟩ := bind_eq_ok.mp hr
    cases last
    have one := h.step hs
    rw [List.append_cons, ← List.append_assoc]
    exact ih one (by simpa using hr)

theorem reached_of_advance (h : advance 0 .between cs = .ok (ts, r)) : r.Reached cs ts :=
  Reached.advance (.of_tiles .nil) h

/-- Where a text may end, it ends with its last token. -/
theorem Reached.finish {source : List Char} (h : r.Reached cs ts) (hf : r.finish source = .ok ts') :
    Tiles cs (ts ++ ts') := by
  obtain ⟨tiles, holds⟩ := h
  cases holds with
  | between =>
    cases hf
    simpa using tiles
  | word word =>
    cases hf
    exact tiles.token (t := ⟨.keyword, _, _⟩) rfl word .exact
  | _ => cases hf

end Reading

/-- The tokens of a text are in their places, with nothing but blanks besides. -/
theorem Tiles.of_tokens {source : String} {ts : List Token} (h : tokens source = .ok ts) :
    Tiles source.toList ts := by
  obtain ⟨first, r, last, ha, hf, rfl⟩ := Reading.exists_of_run h
  exact (Reading.reached_of_advance ha).finish hf

/-- Multipliers end a word that is before them. -/
theorem endsWord_of_multipliers {text : String} {t : Token} {ts : List Token}
    (h : tokens text = .ok (t :: ts)) (ht : t.isMultiplier) : EndsWord text.toList := by
  obtain ⟨before, spelled, behind, split, blank, lexical, spells⟩ :=
    (Tiles.of_tokens h).exists_head rfl
  rw [split]
  exact (spells.endsWord lexical ht behind).after_blanks blank

/-- A text that can be read is its tokens, each in its place and one behind the other, with nothing
but blanks besides. -/
theorem tiles_of_tokens {source : String} {ts : List Token} (h : tokens source = .ok ts) :
    Tiles source.toList ts ∧ ts.Pairwise fun t t' => t.position < t'.position :=
  ⟨.of_tokens h, (Tiles.of_tokens h).pairwise_position⟩

/-- The tokens of ` <\tlength ><'a b'>|fit(` -/
def fitTokens : List Token :=
  [⟨.typeRef, "length", 1⟩, ⟨.propertyRef, "a b", 11⟩, ⟨.combinator, "|", 18⟩,
   ⟨.functionStart, "fit", 19⟩]

theorem tiles_of_tokens_fit : tokens " <\tlength ><'a b'>|fit(" = .ok fitTokens ∧
    Tiles " <\tlength ><'a b'>|fit(".toList fitTokens ∧
      fitTokens.Pairwise fun t t' => t.position < t'.position :=
  ⟨rfl, tiles_of_tokens rfl⟩

/-! ### Reading back -/

/-- Tokens are read back from what they are written as if they are lexical and only then. Those of
any text are. -/
theorem tokens_render {ts : List Token} :
    ((∀ t ∈ ts, t.IsLexical) ↔ IsReadBack ts) ∧
      ∀ source, tokens source = .ok ts → (∀ t ∈ ts, t.IsLexical) ∧ IsReadBack ts := by
  have readBack : (∀ t ∈ ts, t.IsLexical) → IsReadBack ts := isReadBack_of_isLexical
  refine ⟨⟨readBack, fun same => ?_⟩, fun source h => ?_⟩
  · cases ht : tokens (render ts) with
    | error => simp [IsReadBack, ht, Except.map] at same
    | ok ts' =>
      have contents : ts'.map Token.content = ts.map Token.content := by
        simpa [IsReadBack, ht, Except.map] using same
      exact (Token.isLexical_iff_of_content_eq contents).mp (Tiles.of_tokens ht).isLexical
  · have lexical := (Tiles.of_tokens h).isLexical
    exact ⟨lexical, readBack lexical⟩

theorem tokens_render_fit : tokens " <\tlength ><'a b'>|fit(" = .ok fitTokens ∧
    (∀ t ∈ fitTokens, t.IsLexical) ∧ IsReadBack fitTokens :=
  ⟨rfl, tokens_render.2 " <\tlength ><'a b'>|fit(" rfl⟩

end WebSpec.Value
