import WebSpec.Proofs.Idl.Step
import WebSpec.Proofs.Idl.TableCheck

/-!
# Reading the text of a tree

The text of a derivation tree, which is its tokens with the layout before them, is read as that
tree. A token is read where it `Fits`: a plain token anywhere, and a name as it is written, perhaps
like a keyword, where an extended attribute or a type begins and that keyword is not accepted.

The tokens are told apart by layout or by a mark between them (`Separated`), and each of them is
found as if it stood alone (`Token.EndsBefore.nextToken?`).
-/

namespace WebSpec.Idl

open ContextFree (Derives Grammar Lead Moves ParseTree Stack State TerminalSet)
open Relation

/-! ### Layout -/

/-- Layout that ends where a token starts. -/
def IsLayout (layout : List Char) : Prop :=
  ∀ cs : List Char, (∀ c ∈ cs.head?, c ∉ delimiters) → layoutLength (layout ++ cs) = layout.length

theorem isLayout_nil : IsLayout [] := by
  intro cs h
  rw [List.nil_append, layoutLength, layoutLength?_eq_zero h]
  rfl

theorem isLayout_space : IsLayout [' '] := by
  intro cs h
  rw [List.singleton_append, layoutLength, layoutLength?_space, layoutLength?_eq_zero h]
  rfl

/-- The text of tokens with the layout before them. -/
def textOf (tokens : List Token) : List Char :=
  tokens.flatMap fun t => t.layout.toList ++ t.text.toList

theorem textOf_cons (t : Token) (tokens : List Token) :
    textOf (t :: tokens) = t.layout.toList ++ (t.text.toList ++ textOf tokens) := by
  rw [textOf, List.flatMap_cons, List.append_assoc]
  rfl

/-- A token is told apart from what is behind it, which starts with a separator, or the token is a
mark. -/
def Token.EndsBefore (t : Token) (rest : List Char) : Prop :=
  (∀ c ∈ rest.head?, c ∈ separators) ∨ ∃ m ∈ marks, t.text.toList = [m]

/-- A token that is found alone is found before what it is told apart from. -/
theorem Token.EndsBefore.nextToken? {t : Token} {rest : List Char} (h : t.EndsBefore rest)
    {accepted : TerminalSet}
    (alone : Idl.nextToken? accepted t.text.toList = some (t.terminal, t.text.length)) :
    Idl.nextToken? accepted (t.text.toList ++ rest) = some (t.terminal, t.text.length) := by
  rcases h with separator | ⟨m, hm, mark⟩
  · cases rest with
    | nil => rwa [List.append_nil]
    | cons s more => exact nextToken?_append (separator s rfl) alone
  · rw [mark] at alone ⊢
    rwa [List.singleton_append, nextToken?_mark hm]

/-- Tokens with layout before them that are told apart. -/
inductive Separated : List Token → Prop where
  | nil : Separated []
  | cons {t : Token} {rest : List Token} (isLayout : IsLayout t.layout.toList)
      (ends : t.EndsBefore (textOf rest)) (others : Separated rest) : Separated (t :: rest)

/-! ### Places of tokens -/

/-- A name that is read as it is written where the rule begins, since it is spelled like none of the
keywords that may come there. -/
structure Token.IsNameAt (t : Token) (r : Rule) : Prop where
  terminal : t.terminal = .identifier
  name : isIdentifier t.text.toList = true
  apart : ∃ known, (r, known) ∈ nameRules ∧ ∀ k ∈ known, k.literal? ≠ some t.text

/-- One of the productions is of the rule. -/
def Rule.IsBegun (r : Rule) (begun : List Nat) : Prop :=
  ∃ number ∈ begun, ∃ p, grammar.productions[number]? = some p ∧ p.left = r.code

/-- A token may stand where productions begin: a plain one anywhere, and a name as it is written
where its rule begins. -/
def Fits (begun : List Nat) (t : Token) : Prop :=
  t.IsPlain ∨ ∃ r : Rule, t.IsNameAt r ∧ r.IsBegun begun

/-- A token may be read onto a stack. -/
def Reads (stack : Stack Token) (t : Token) : Prop :=
  t.IsPlain ∨ ∃ r : Rule, t.IsNameAt r ∧ ∃ s, grammar.states[stack.state]? = some s ∧
    grammar.Begins r.code s

theorem reads_of_fits {stack : Stack Token} {s : State} {begun : List Nat} {t : Token}
    (hs : grammar.states[stack.state]? = some s) (hb : s.HasBegun grammar begun)
    (h : Fits begun t) : Reads stack t := by
  rcases h with plain | ⟨r, name, number, hn, p, hp, left⟩
  · exact .inl plain
  · exact .inr ⟨r, name, s, hs, left ▸ hb.begins hn hp⟩

/-- A name is found where its rule may begin. -/
theorem nextToken?_of_begins {stack : Stack Token} {s : State} {t : Token} {r : Rule}
    (hs : grammar.states[stack.state]? = some s) (begins : grammar.Begins r.code s)
    (name : t.IsNameAt r) (accepted : (table.accepted stack).has t.code = true) :
    nextToken? (table.accepted stack) t.text.toList = some (t.terminal, t.text.length) := by
  obtain ⟨identifier, name, known, hr, apart⟩ := name
  rw [Token.code, identifier] at accepted
  have free : keyword? (table.accepted stack) t.text.toList = none := by
    refine keyword?_eq_none fun k literal hk hl spelled => ?_
    have other : k ∉ known := fun hk => apart k hk (by rw [hl, String.toList_inj.mp spelled])
    rw [madeOf_states.accepted hs]
    exact Grammar.accepted_of_secludes (secludes_keywords hr) (List.mem_of_getElem? hs) begins
      (has_keywordsBut hk other)
  have found := nextToken?_of_isIdentifier name accepted free delimits_nil
  rwa [List.append_nil, String.length_toList, ← identifier] at found

/-- The next token is found where it may be read, before replacements as after them. -/
theorem nextToken?_of_reads {stack settled : Stack Token} {t : Token}
    (replaced : ReflTransGen (table.Replaces t.code) stack settled) (h : Reads settled t)
    (accepted : (table.accepted stack).has t.code = true) :
    nextToken? (table.accepted stack) t.text.toList = some (t.terminal, t.text.length) := by
  rcases h with plain | ⟨r, name, s, hs, begins⟩
  · simpa using plain _ [] accepted delimits_nil
  · rcases ContextFree.Table.eq_or_top_of_replaces replaced with rfl | ⟨state, code, goto⟩
    · exact nextToken?_of_begins hs begins name accepted
    · -- No replacement ends where the rule begins.
      obtain ⟨before, hb, lookup⟩ := madeOf_states.exists_of_goto? goto
      obtain ⟨known, hr, -⟩ := name.apart
      exact absurd lookup (Grammar.lookup_ne_of_secludes (secludes_keywords hr)
        (List.mem_of_getElem? hb) hs begins code)

/-! ### Texts -/

variable {parser : ContextFree.Table} {source : List Char} {stack stack' : Stack Token}
  {last offset : Nat}

/-- A token with its layout goes onto the stack. -/
theorem parseFrom_append {t : Token} {rest : List Char} (filled : t.text.toList ≠ [])
    (layout : layoutLength (t.layout.toList ++ (t.text.toList ++ rest)) = t.layout.toList.length)
    (found : nextToken? (parser.accepted stack) (t.text.toList ++ rest) =
      some (t.terminal, t.text.length))
    (pushed : parser.push stack t.code t = some stack') :
    ∃ last' offset', parseFrom parser source stack last offset
        (t.layout.toList ++ (t.text.toList ++ rest)) =
      parseFrom parser source stack' last' offset' rest := by
  refine ⟨offset + t.layout.toList.length,
    offset + t.layout.toList.length + t.text.toList.length, ?_⟩
  rw [parseFrom_eq, layout, List.drop_left, List.take_left, String.ofList_toList,
    parseBehind_token filled found pushed]

theorem parseFrom_nil {tree : ParseTree Token} (finished : parser.finish stack = some tree) :
    parseFrom parser source stack last offset [] = .ok tree := by
  rw [parseFrom]
  split
  · simp only [finished]
  · rename_i same
    simp at same

/-- Moves that read tokens and find a tree in the end read their text. -/
theorem parseFrom_textOf {tokens : List Token} {state : Nat} {tree : ParseTree Token}
    (moves : ReflTransGen (Moves table Token.code Reads) (stack, tokens)
      ([⟨state, .nonterminal table.start, tree⟩], []))
    (done : table.reduction? state table.endMark = none) (separated : Separated tokens) :
    parseFrom table source stack last offset (textOf tokens) = .ok tree := by
  induction tokens generalizing stack last offset with
  | nil =>
    exact parseFrom_nil
      (ContextFree.Table.finish_of_moves complete_states madeOf_states moves done)
  | cons t tokens ih =>
    obtain ⟨settled, stack', replaced, reads, accepted, pushed, rest⟩ :=
      ContextFree.Table.push_of_moves complete_states madeOf_states moves
    obtain _ | ⟨isLayout, ends, others⟩ := separated
    have alone := nextToken?_of_reads replaced reads accepted
    obtain ⟨c, behind, hc, clean⟩ := exists_of_nextToken? alone
    have filled : t.text.toList ≠ [] := by simp [hc]
    have layout := isLayout (t.text.toList ++ textOf tokens) (by simpa [hc] using clean)
    obtain ⟨last', offset', next⟩ := parseFrom_append filled layout (ends.nextToken? alone) pushed
    rw [textOf_cons]
    exact next.trans (ih rest others)

/-- The text of a tree that derives the start symbol is read as this tree. -/
theorem parseTree_textOf {tree : ParseTree Token}
    (derives : Derives grammar Token.code (.nonterminal Rule.start.code) tree)
    (fit : tree.FitsAt Fits []) (separated : Separated tree.tokens) :
    parseTree (String.ofList (textOf tree.tokens)) = .ok tree := by
  obtain ⟨number, -, children, rfl, -⟩ := derives.exists_children
  have reads : ∀ (stack : Stack Token) (s : State) (begun : List Nat) (t : Token),
      grammar.states[stack.state]? = some s → s.HasBegun grammar begun → Fits begun t →
      Reads stack t := fun _ _ _ _ => reads_of_fits
  obtain ⟨state, moves, done⟩ := ContextFree.Table.moves_of_derives_start complete_states
    madeOf_states (fun t => t.terminal.code_lt_width) endMark_lt_width reads derives fit
  rw [parseTree, String.toList_ofList]
  rw [← madeOf_states.start] at moves
  exact parseFrom_textOf moves done separated

end WebSpec.Idl
