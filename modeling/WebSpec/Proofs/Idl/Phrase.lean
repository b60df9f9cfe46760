import Mathlib.Data.List.Basic
import Mathlib.Data.List.Induction
import WebSpec.Proofs.Idl.Printing
import WebSpec.Proofs.Idl.Reading

/-!
# Phrases

`Spells parts words ps` says that the words are a way to write some parts of the right side of an
alternative, and that what is written means the pieces, up to layout and fragments. It composes as
alternatives do: word by word, part by part, with parts left out and parts repeated, and from the
right side of an alternative to its rule (`SpellsAt.combine`), where the construct combines the
pieces.

Behind a phrase stand derivation trees whose tokens may stand at any place. Only a name as it is
written needs a place where its rule begins: `SpellsAt` asks for such a place at the start of the
phrase, and where the rule itself is written, it is there (`SpellsAt.combine_begin`).
-/

namespace WebSpec.Idl

open ContextFree (Derives DerivesAll ParseTree Pattern Symbol)

/-! ### Trees of a phrase -/

theorem meaningOfAll_append {trees others : List (ParseTree Token)} {ps qs : Pieces}
    (h : meaningOfAll trees = some ps) (ho : meaningOfAll others = some qs) :
    meaningOfAll (trees ++ others) = some (ps ++ qs) := by
  induction trees generalizing ps with
  | nil =>
    obtain rfl := Option.some.inj h
    exact ho
  | cons tree rest ih =>
    obtain ⟨first, hf, h⟩ := Option.bind_eq_some_iff.mp h
    obtain ⟨behind, hb, h⟩ := Option.bind_eq_some_iff.mp h
    obtain rfl := Option.some.inj h
    rw [List.cons_append, meaningOfAll, hf, ih hb, List.append_assoc]
    rfl

/-- Trees derive symbols, are written with words and mean pieces. -/
structure Phrase (symbols : List Symbol) (words : List String) (ps : Pieces)
    (trees : List (ParseTree Token)) : Prop where
  derives : DerivesAll grammar Token.code symbols trees
  words_eq : (ParseTree.tokensOfAll trees).map Token.text = words
  means : ∃ found, meaningOfAll trees = some found ∧ found.map Piece.bare = ps.map Piece.bare

theorem Phrase.append {first second : List Symbol} {words more : List String} {ps qs : Pieces}
    {trees others : List (ParseTree Token)} (h : Phrase first words ps trees)
    (ho : Phrase second more qs others) :
    Phrase (first ++ second) (words ++ more) (ps ++ qs) (trees ++ others) := by
  obtain ⟨found, means, same⟩ := h.means
  obtain ⟨found', means', same'⟩ := ho.means
  refine ⟨h.derives.append ho.derives, ?_, found ++ found', meaningOfAll_append means means', ?_⟩
  · rw [ParseTree.tokensOfAll_append, List.map_append, h.words_eq, ho.words_eq]
  · rw [List.map_append, List.map_append, same, same']

/-- The token of a terminal with the given text. -/
theorem phrase_token (t : Token) :
    Phrase [.terminal t.code] [t.text] [.token t] [.leaf t] :=
  ⟨.cons (.leaf t) .nil, rfl, _, rfl, rfl⟩

/-! ### Places of a phrase -/

/-- The tokens of trees fit their places wherever the rule begins, or anywhere if none is given. -/
def FitWhere (front : Option Rule) (trees : List (ParseTree Token)) : Prop :=
  ∀ begun, (∀ r ∈ front, r.IsBegun begun) → ParseTree.AllFit Fits begun trees

section Places

variable {front : Option Rule} {trees others : List (ParseTree Token)} {number : Nat}

theorem Rule.IsBegun.cons {r : Rule} {begun : List Nat} (h : r.IsBegun begun) (number : Nat) :
    r.IsBegun (number :: begun) := by
  obtain ⟨found, hf, p, hp, left⟩ := h
  exact ⟨found, List.mem_cons_of_mem number hf, p, hp, left⟩

theorem fitWhere_nil : FitWhere front [] :=
  fun _ _ => trivial

theorem FitWhere.anywhere (h : FitWhere none trees) : FitWhere front trees :=
  fun begun _ => h begun (by simp)

/-- Only the first tree stands where the rule has to begin. -/
theorem FitWhere.append (h : FitWhere front trees) (ho : FitWhere none others) :
    FitWhere front (trees ++ others) := by
  intro begun there
  have fit := h begun there
  clear h there
  induction trees generalizing begun with
  | nil => exact ho begun (by simp)
  | cons tree rest ih => exact ⟨fit.1, ih [] fit.2⟩

/-- A production keeps the place, -/
theorem FitWhere.node (h : FitWhere front trees) : FitWhere front [.node number trees] :=
  fun begun there => ⟨h (number :: begun) fun r hr => (there r hr).cons number, trivial⟩

/-- and a production of the rule provides it. -/
theorem FitWhere.node_begin {r : Rule} {right : List Symbol} (h : FitWhere (some r) trees)
    (hp : grammar.productions[number]? = some ⟨r.code, right⟩) :
    FitWhere none [.node number trees] := by
  refine fun begun _ => ⟨h (number :: begun) ?_, trivial⟩
  rintro _ ⟨⟩
  exact ⟨number, List.mem_cons_self, _, hp, rfl⟩

end Places

/-! ### Phrases of parts -/

/-- The words are a way to write the parts where the rule begins, and what is written means the
pieces. -/
def SpellsAt (front : Option Rule) (parts : List Pattern) (words : List String) (ps : Pieces) :
    Prop :=
  ∃ right ∈ (Pattern.ofList parts).expand, ∃ trees, Phrase right words ps trees ∧
    FitWhere front trees

/-- The words are a way to write the parts at any place. -/
abbrev Spells :=
  SpellsAt none

section Parts

variable {front : Option Rule} {parts rest : List Pattern} {words more : List String}
  {ps qs : Pieces}

theorem spells_nil : Spells [] [] [] :=
  ⟨[], List.mem_singleton_self _, [], ⟨.nil, rfl, [], rfl, rfl⟩, fitWhere_nil⟩

theorem SpellsAt.anywhere (h : Spells parts words ps) : SpellsAt front parts words ps := by
  obtain ⟨right, hs, trees, phrase, fit⟩ := h
  exact ⟨right, hs, trees, phrase, fit.anywhere⟩

theorem append_mem_expand {right right' : List Symbol} (h : right ∈ (Pattern.ofList parts).expand)
    (hr : right' ∈ (Pattern.ofList rest).expand) :
    right ++ right' ∈ (Pattern.ofList (parts ++ rest)).expand := by
  induction parts generalizing right with
  | nil =>
    obtain rfl := List.mem_singleton.mp h
    exact hr
  | cons pattern parts ih =>
    obtain ⟨head, hh, h⟩ := List.mem_flatMap.mp h
    obtain ⟨tail, ht, rfl⟩ := List.mem_map.mp h
    rw [List.append_assoc]
    exact List.mem_flatMap.mpr ⟨head, hh, List.mem_map.mpr ⟨tail ++ right', ih ht, rfl⟩⟩

theorem SpellsAt.append (h : SpellsAt front parts words ps) (hr : Spells rest more qs) :
    SpellsAt front (parts ++ rest) (words ++ more) (ps ++ qs) := by
  obtain ⟨right, hs, trees, phrase, fit⟩ := h
  obtain ⟨right', hs', trees', phrase', fit'⟩ := hr
  exact ⟨_, append_mem_expand hs hs', _, phrase.append phrase', fit.append fit'⟩

theorem SpellsAt.cons {pattern : Pattern} (h : SpellsAt front [pattern] words ps)
    (hr : Spells rest more qs) : SpellsAt front (pattern :: rest) (words ++ more) (ps ++ qs) :=
  h.append hr

/-- What a pattern describes. -/
theorem spellsAt_of_expand {pattern : Pattern} {right : List Symbol} (hr : right ∈ pattern.expand)
    {trees : List (ParseTree Token)} (phrase : Phrase right words ps trees)
    (fit : FitWhere front trees) : SpellsAt front [pattern] words ps :=
  ⟨right, by simpa [Pattern.ofList, Pattern.expand] using hr, trees, phrase, fit⟩

/-- A part that may be left out is written, -/
theorem SpellsAt.written (h : SpellsAt front parts words ps) (hr : Spells rest more qs) :
    SpellsAt front (maybe parts :: rest) (words ++ more) (ps ++ qs) := by
  obtain ⟨right, hs, trees, phrase, fit⟩ := h
  exact (spellsAt_of_expand (List.mem_append_left _ hs) phrase fit).cons hr

/-- or it is left out. -/
theorem SpellsAt.leftOut (hr : SpellsAt front rest more qs) :
    SpellsAt front (maybe parts :: rest) more qs := by
  obtain ⟨right, hs, trees, phrase, fit⟩ := hr
  have none : [] ∈ (Pattern.ofList [maybe parts]).expand := by
    simp [Pattern.ofList, Pattern.expand, maybe]
  exact ⟨right, append_mem_expand none hs, trees, phrase, fit⟩

/-! ### Phrases of tokens -/

/-- A token that may stand at any place. -/
theorem SpellsAt.plain {t : Token} (ht : t.IsPlain) (hr : Spells rest more qs) :
    Spells (token t.terminal :: rest) (t.text :: more) (.token t :: qs) :=
  (spellsAt_of_expand (List.mem_singleton_self _) (phrase_token t)
    fun _ _ => ⟨.inl ht, trivial⟩).cons hr

/-- The piece of a literal. -/
abbrev literalPiece (t : Terminal) (literal : String) : Piece :=
  .token ⟨t, "", literal⟩

theorem SpellsAt.literal {t : Terminal} {literal : String} (hl : t.literal? = some literal)
    (hr : Spells rest more qs) :
    Spells (token t :: rest) (literal :: more) (literalPiece t literal :: qs) :=
  .plain (isPlain_of_literal hl) hr

/-- The piece of a name that is no name of an extended attribute. -/
abbrev namePiece (name : String) : Piece :=
  .token ⟨.identifier, "", escape name⟩

theorem SpellsAt.name {name : String} (hn : isName name.toList) (hr : Spells rest more qs) :
    Spells (token .identifier :: rest) (escape name :: more) (namePiece name :: qs) :=
  .plain (isPlain_of_isName hn) hr

theorem SpellsAt.quoted {content : String} (unquoted : '"' ∉ content.toList)
    (hr : Spells rest more qs) :
    Spells (token .string :: rest) (quoted content :: more)
      (literalPiece .string (Idl.quoted content) :: qs) :=
  .plain (isPlain_of_quoted unquoted) hr

theorem SpellsAt.integer {number : String} (hn : IsInteger number.toList)
    (hr : Spells rest more qs) :
    Spells (token .integer :: rest) (number :: more) (literalPiece .integer number :: qs) :=
  .plain (isPlain_of_integer hn) hr

theorem SpellsAt.decimal {number : String} (hn : IsDecimal number.toList)
    (hr : Spells rest more qs) :
    Spells (token .decimal :: rest) (number :: more) (literalPiece .decimal number :: qs) :=
  .plain (isPlain_of_decimal hn) hr

/-- The pieces of a literal that may be left out. -/
def flagPieces (isSet : Bool) (t : Terminal) (literal : String) : Pieces :=
  if isSet then [literalPiece t literal] else []

theorem SpellsAt.flag {t : Terminal} {literal : String} (isSet : Bool)
    (hl : t.literal? = some literal) (hr : Spells rest more qs) :
    Spells (maybe [token t] :: rest) (flag isSet literal ++ more)
      (flagPieces isSet t literal ++ qs) := by
  cases isSet with
  | true => exact .written (.literal hl spells_nil) hr
  | false => exact .leftOut hr

end Parts

/-! ### Phrases of rules -/

deriving instance DecidableEq for ContextFree.Pattern, Alternative

section Rules

variable {front : Option Rule} {r : Rule} {construct : Construct} {parts rest : List Pattern}
  {right : List Symbol} {words more : List String} {ps qs : Pieces} {piece : Piece}
  {trees : List (ParseTree Token)}

/-- The right sides of an alternative are those of productions with its construct. -/
theorem exists_number (ha : ⟨r, construct, parts⟩ ∈ alternatives)
    (hr : right ∈ (Pattern.ofList parts).expand) :
    ∃ number : Nat, grammar.productions[number]? = some ⟨r.code, right⟩ ∧
      constructs[number]? = some construct := by
  have mem : (construct, ⟨r.code, right⟩) ∈ productions :=
    List.mem_flatMap.mpr ⟨_, ha, List.mem_map.mpr ⟨right, hr, rfl⟩⟩
  obtain ⟨number, found⟩ := List.mem_iff_getElem?.mp mem
  exact ⟨number, by simp [grammar, found], by simp [constructs, found]⟩

/-- A construct combines the pieces of the right side, -/
theorem Phrase.combine {number : Nat} (hp : grammar.productions[number]? = some ⟨r.code, right⟩)
    (hc : constructs[number]? = some construct) (h : Phrase right words ps trees)
    (combined : construct.combine ps = some piece) :
    Phrase [.nonterminal r.code] words [piece] [.node number trees] := by
  obtain ⟨found, means, same⟩ := h.means
  obtain ⟨piece', combined', same⟩ := exists_combine_eq same combined
  refine ⟨.cons (.node hp h.derives) .nil, ?_, ?_⟩
  · simpa [ParseTree.tokensOfAll, ParseTree.tokens] using h.words_eq
  · rw [meaningOfAll, meaning, means, hc]
    cases construct with
    | part => cases combined
    | definition =>
      refine ⟨[piece'.withFragment _], by simp [combined', meaningOfAll]; rfl, ?_⟩
      simp [Piece.bare_withFragment, same]
    | _ => exact ⟨[piece'], by simp [combined', meaningOfAll], by simp [same]⟩

/-- and a part passes them on. -/
theorem Phrase.group {number : Nat} (hp : grammar.productions[number]? = some ⟨r.code, right⟩)
    (hc : constructs[number]? = some .part) (h : Phrase right words ps trees) :
    Phrase [.nonterminal r.code] words ps [.node number trees] := by
  obtain ⟨found, means, same⟩ := h.means
  refine ⟨.cons (.node hp h.derives) .nil, ?_, found, ?_, same⟩
  · simpa [ParseTree.tokensOfAll, ParseTree.tokens] using h.words_eq
  · simp [meaningOfAll, meaning, means, hc]

theorem SpellsAt.combine (ha : ⟨r, construct, parts⟩ ∈ alternatives)
    (h : SpellsAt front parts words ps) (combined : construct.combine ps = some piece) :
    SpellsAt front [rule r] words [piece] := by
  obtain ⟨right, hr, trees, phrase, fit⟩ := h
  obtain ⟨number, hp, hc⟩ := exists_number ha hr
  exact spellsAt_of_expand (List.mem_singleton_self _) (phrase.combine hp hc combined) fit.node

theorem SpellsAt.group (ha : ⟨r, .part, parts⟩ ∈ alternatives) (h : SpellsAt front parts words ps) :
    SpellsAt front [rule r] words ps := by
  obtain ⟨right, hr, trees, phrase, fit⟩ := h
  obtain ⟨number, hp, hc⟩ := exists_number ha hr
  exact spellsAt_of_expand (List.mem_singleton_self _) (phrase.group hp hc) fit.node

/-- Where a rule is written, it begins. -/
theorem SpellsAt.combine_begin (ha : ⟨r, construct, parts⟩ ∈ alternatives)
    (h : SpellsAt (some r) parts words ps) (combined : construct.combine ps = some piece) :
    Spells [rule r] words [piece] := by
  obtain ⟨right, hr, trees, phrase, fit⟩ := h
  obtain ⟨number, hp, hc⟩ := exists_number ha hr
  exact spellsAt_of_expand (List.mem_singleton_self _) (phrase.combine hp hc combined)
    (fit.node_begin hp)

/-- A name as it is written, where its rule begins. -/
theorem SpellsAt.asWritten {name : String}
    (hn : Token.IsNameAt ⟨.identifier, "", name⟩ r) (hr : Spells rest more qs) :
    SpellsAt (some r) (token .identifier :: rest) (name :: more)
      (literalPiece .identifier name :: qs) :=
  (spellsAt_of_expand (List.mem_singleton_self _) (phrase_token ⟨.identifier, "", name⟩)
    fun _ there => ⟨.inr ⟨r, hn, there r rfl⟩, trivial⟩).cons hr

/-- An extended attribute starts with its name, which may be any. -/
theorem SpellsAt.ownName {name : String}
    (ha : ⟨.extendedAttribute, construct, token .identifier :: parts⟩ ∈ alternatives)
    (hn : isIdentifier name.toList) (h : Spells parts words ps)
    (combined : construct.combine (literalPiece .identifier name :: ps) = some piece) :
    Spells [rule .extendedAttribute] (name :: words) [piece] := by
  have any : Token.IsNameAt ⟨.identifier, "", name⟩ .extendedAttribute :=
    ⟨rfl, hn, [], by simp [nameRules], by simp⟩
  exact .combine_begin ha (.asWritten any h) combined

/-! ### Phrases of what is repeated -/

section Repeated

variable {α : Type} {xs : List α} {f : α → List String} {pieces : α → Pieces}

/-- Something is repeated once or more. -/
theorem spells_repeated (ha : ∀ a ∈ repeated r parts, a ∈ alternatives) (filled : xs ≠ [])
    (h : ∀ x ∈ xs, Spells parts (f x) (pieces x)) :
    Spells [rule r] (xs.flatMap f) (xs.flatMap pieces) := by
  induction xs using List.reverseRecOn with
  | nil => exact absurd rfl filled
  | append_singleton xs x ih =>
    have once : ⟨r, .part, parts⟩ ∈ alternatives := ha _ List.mem_cons_self
    have again : ⟨r, .part, rule r :: parts⟩ ∈ alternatives := ha _ (by simp [repeated])
    have last := h x (by simp)
    by_cases empty : xs = []
    · subst empty
      simpa using SpellsAt.group once last
    · have before := ih empty fun y hy => h y (by simp [hy])
      simpa using SpellsAt.group again (.cons before last)

/-- Something is repeated, perhaps not at all. -/
theorem SpellsAt.many (ha : ∀ a ∈ repeated r parts, a ∈ alternatives)
    (h : ∀ x ∈ xs, Spells parts (f x) (pieces x)) (hr : Spells rest more qs) :
    Spells (maybe [rule r] :: rest) (xs.flatMap f ++ more) (xs.flatMap pieces ++ qs) := by
  by_cases filled : xs = []
  · subst filled
    exact .leftOut hr
  · exact .written (spells_repeated ha filled h) hr

/-- Pieces with those of a separator between two of them. -/
def separatedPieces (separator : Piece) : Pieces → Pieces
  | [] => []
  | first :: rest => first :: rest.flatMap fun piece => [separator, piece]

/-- What is looked for among pieces and is no separator is found between separators. -/
theorem filterMap_separatedPieces {β : Type} {select : Piece → Option β} {separator : Piece}
    (hs : select separator = none) (ps : Pieces) :
    (separatedPieces separator ps).filterMap select = ps.filterMap select := by
  cases ps with
  | nil => rfl
  | cons first rest =>
    have behind : (rest.flatMap fun piece => [separator, piece]).filterMap select =
        rest.filterMap select := by
      induction rest with
      | nil => rfl
      | cons piece rest ih => simp [List.filterMap_cons, hs, ih]
    rw [separatedPieces, List.filterMap_cons, List.filterMap_cons, behind]

variable {part : Pattern} {literal : String} {piece : α → Piece}

/-- Parts with a separator between two of them, -/
theorem SpellsAt.listed (t : Terminal) (ha : ∀ a ∈ repeated r [token t, part], a ∈ alternatives)
    (hl : t.literal? = some literal) (filled : xs ≠ [])
    (h : ∀ x ∈ xs, Spells [part] (f x) [piece x]) (hr : Spells rest more qs) :
    Spells (part :: maybe [rule r] :: rest) (separated literal (xs.map f) ++ more)
      (separatedPieces (literalPiece t literal) (xs.map piece) ++ qs) := by
  obtain ⟨first, others, rfl⟩ := List.exists_cons_of_ne_nil filled
  have behind : ∀ x ∈ others, Spells [token t, part] (literal :: f x)
      [literalPiece t literal, piece x] :=
    fun x hx => .literal hl (h x (List.mem_cons_of_mem first hx))
  have whole := (h first List.mem_cons_self).cons (.many ha behind hr)
  simpa [separated, separatedPieces, List.flatMap_map] using whole

/-- and at least two such parts. -/
theorem SpellsAt.listedSeveral (t : Terminal)
    (ha : ∀ a ∈ repeated r [token t, part], a ∈ alternatives)
    (hl : t.literal? = some literal) (several : 2 ≤ xs.length)
    (h : ∀ x ∈ xs, Spells [part] (f x) [piece x]) (hr : Spells rest more qs) :
    Spells (part :: rule r :: rest) (separated literal (xs.map f) ++ more)
      (separatedPieces (literalPiece t literal) (xs.map piece) ++ qs) := by
  obtain _ | ⟨first, others⟩ := xs
  · cases several
  have filled : others ≠ [] := by
    rintro rfl
    simp at several
  have behind : ∀ x ∈ others, Spells [token t, part] (literal :: f x)
      [literalPiece t literal, piece x] :=
    fun x hx => .literal hl (h x (List.mem_cons_of_mem first hx))
  have whole := (h first List.mem_cons_self).cons ((spells_repeated ha filled behind).cons hr)
  simpa [separated, separatedPieces, List.flatMap_map] using whole

end Repeated

end Rules

end WebSpec.Idl
