import Mathlib.Tactic.Common
import WebSpec.ContextFree.First

/-!
# What derivations start with

A table of starts that is closed under the productions knows every derivation: a list of symbols
that derives no tokens is nullable in the table, and otherwise the table has the first token among
the starts of the list. So `StartTable.first` with what follows a list has the next token, whether
it belongs to a derivation of the list or stands behind it (`first_has_nextKind`).
-/

namespace WebSpec.ContextFree

variable {τ : Type} {g : Grammar} {kind : τ → Nat}

/-! ### Sets of terminals -/

/-- Whether every terminal of one set is in another. -/
def TerminalSet.isSubset (small large : TerminalSet) : Bool :=
  Nat.beq (Nat.land small large) small

/-- Whether two sets have no terminal in common. -/
def TerminalSet.isDisjoint (first second : TerminalSet) : Bool :=
  Nat.beq (Nat.land first second) 0

theorem TerminalSet.has_of_isSubset {small large : TerminalSet} {code : Nat}
    (h : small.isSubset large = true) (hc : small.has code = true) : large.has code = true := by
  have meet : small &&& large = small := Nat.eq_of_beq_eq_true h
  have both : (small &&& large).testBit code = true := by rw [meet]; exact hc
  rw [Nat.testBit_and, Bool.and_eq_true] at both
  exact both.2

theorem TerminalSet.not_has_of_isDisjoint {first second : TerminalSet} {code : Nat}
    (h : first.isDisjoint second = true) (hc : first.has code = true) :
    second.has code = false := by
  have meet : first &&& second = 0 := Nat.eq_of_beq_eq_true h
  have none : (first &&& second).testBit code = false := by rw [meet, Nat.zero_testBit]
  rw [Nat.testBit_and, Bool.and_eq_false_iff] at none
  exact none.resolve_left (by rw [show first.testBit code = true from hc]; decide)

theorem TerminalSet.has_single {code other : Nat} :
    (TerminalSet.single code).has other = true ↔ code = other := by
  simp [TerminalSet.single, TerminalSet.has, Nat.one_shiftLeft, Nat.testBit_two_pow]

theorem TerminalSet.has_or {first second : TerminalSet} {code : Nat} :
    TerminalSet.has (first ||| second) code = true ↔
      first.has code = true ∨ second.has code = true := by
  simp [TerminalSet.has, Nat.testBit_or]

/-! ### Starts -/

/-- Whether a table of starts is closed under productions. -/
def StartTable.isClosed (table : StartTable) (productions : List Production) : Bool :=
  productions.all fun p =>
    (!allNullable table.nullable p.right || table.nullable.testBit p.left) &&
      TerminalSet.isSubset (table.first 0 p.right) (SetFamily.get table.firsts table.width p.left)

namespace StartTable

variable {table : StartTable} {symbols : List Symbol} {follow : TerminalSet} {code : Nat}

theorem nullable_of_isClosed (closed : table.isClosed g.productions = true) {p : Production}
    (hp : p ∈ g.productions) (h : allNullable table.nullable p.right = true) :
    table.nullable.testBit p.left = true := by
  have holds := List.all_eq_true.mp closed p hp
  simpa [h] using (Bool.and_eq_true_iff.mp holds).1

theorem firsts_of_isClosed (closed : table.isClosed g.productions = true) {p : Production}
    (hp : p ∈ g.productions) (h : TerminalSet.has (table.first 0 p.right) code = true) :
    TerminalSet.has (SetFamily.get table.firsts table.width p.left) code = true :=
  TerminalSet.has_of_isSubset (Bool.and_eq_true_iff.mp (List.all_eq_true.mp closed p hp)).2 h

/-- More may follow where more follows. -/
theorem first_mono (hc : TerminalSet.has (table.first 0 symbols) code = true) :
    TerminalSet.has (table.first follow symbols) code = true := by
  induction symbols with
  | nil => simp [first, TerminalSet.has] at hc
  | cons symbol rest ih =>
    cases symbol with
    | terminal => exact hc
    | nonterminal next =>
      simp only [first, TerminalSet.has_or] at hc ⊢
      refine hc.imp_right fun hr => ?_
      split_ifs at hr ⊢
      · exact ih hr
      · exact hr

theorem first_of_allNullable (h : allNullable table.nullable symbols = true)
    (hc : follow.has code = true) : TerminalSet.has (table.first follow symbols) code = true := by
  induction symbols with
  | nil => exact hc
  | cons symbol rest ih =>
    cases symbol with
    | terminal => cases h
    | nonterminal next =>
      obtain ⟨hn, hr⟩ := Bool.and_eq_true_iff.mp h
      simp only [first, hn, if_true, TerminalSet.has_or]
      exact .inr (ih hr)

/-- The table allows symbols to derive tokens, as far as it goes: it looks at the first one. -/
def Allows (table : StartTable) (kind : τ → Nat) (symbols : List Symbol) : List τ → Prop
  | [] => allNullable table.nullable symbols = true
  | token :: _ => TerminalSet.has (table.first 0 symbols) (kind token) = true

theorem Allows.cons {symbol : Symbol} {tokens others : List τ}
    (h : table.Allows kind [symbol] tokens) (hs : table.Allows kind symbols others) :
    table.Allows kind (symbol :: symbols) (tokens ++ others) := by
  cases symbol with
  | terminal next =>
    cases tokens with
    | nil => cases h
    | cons token rest => exact h
  | nonterminal next =>
    cases tokens with
    | nil =>
      have hn : table.nullable.testBit next = true := (Bool.and_eq_true_iff.mp h).1
      cases others with
      | nil => exact Bool.and_eq_true_iff.mpr ⟨hn, hs⟩
      | cons token rest =>
        simp only [List.nil_append, Allows, first, hn, if_true, TerminalSet.has_or]
        exact .inr hs
    | cons token rest =>
      have starts : TerminalSet.has (SetFamily.get table.firsts table.width next) (kind token) =
          true := by
        simpa [Allows, first] using h
      simp only [List.cons_append, Allows, first, TerminalSet.has_or]
      exact .inl starts

theorem Allows.nonterminal (closed : table.isClosed g.productions = true) {p : Production}
    {tokens : List τ} (hp : p ∈ g.productions) (h : table.Allows kind p.right tokens) :
    table.Allows kind [.nonterminal p.left] tokens := by
  cases tokens with
  | nil => simpa [Allows, allNullable] using nullable_of_isClosed closed hp h
  | cons token rest => simpa [Allows, first] using firsts_of_isClosed closed hp h

mutual

theorem allows_of_derives (closed : table.isClosed g.productions = true) :
    ∀ {symbol : Symbol} {tree : ParseTree τ},
      Derives g kind symbol tree → table.Allows kind [symbol] tree.tokens
  | _, _, .leaf token => TerminalSet.has_single.mpr rfl
  | _, _, .node hp children =>
    (allows_of_derivesAll closed children).nonterminal closed (List.mem_of_getElem? hp)

theorem allows_of_derivesAll (closed : table.isClosed g.productions = true) :
    ∀ {symbols : List Symbol} {trees : List (ParseTree τ)},
      DerivesAll g kind symbols trees → table.Allows kind symbols (ParseTree.tokensOfAll trees)
  | _, _, .nil => rfl
  | _, _, .cons tree trees =>
    (allows_of_derives closed tree).cons (allows_of_derivesAll closed trees)

end

end StartTable

/-- The terminal of the first token, or the given one where there is none. -/
def nextKind (kind : τ → Nat) (follow : Nat) : List τ → Nat
  | [] => follow
  | token :: _ => kind token

theorem nextKind_append (follow : Nat) (tokens others : List τ) :
    nextKind kind follow (tokens ++ others) =
      nextKind kind (nextKind kind follow others) tokens := by
  cases tokens <;> rfl

/-- Behind a derivation of symbols that something may follow, the next token is among the starts of
the symbols with what may follow. -/
theorem StartTable.first_has_nextKind {table : StartTable}
    (closed : table.isClosed g.productions = true) {symbols : List Symbol}
    {trees : List (ParseTree τ)} (derives : DerivesAll g kind symbols trees) {set : TerminalSet}
    {follow : Nat} (hf : set.has follow = true) :
    TerminalSet.has (table.first set symbols)
      (nextKind kind follow (ParseTree.tokensOfAll trees)) = true := by
  have allows := allows_of_derivesAll closed derives
  cases ht : ParseTree.tokensOfAll trees with
  | nil =>
    rw [ht] at allows
    exact first_of_allNullable allows hf
  | cons token rest =>
    rw [ht] at allows
    exact first_mono allows

end WebSpec.ContextFree
