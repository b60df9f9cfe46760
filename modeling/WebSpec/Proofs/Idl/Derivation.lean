import WebSpec.Idl.Parse
import WebSpec.Proofs.ContextFree.Soundness

/-!
# Parse trees are derivations

The tree of a text derives the start symbol of the grammar.
-/

namespace WebSpec.Idl

open ContextFree (Derives ParseTree Stack)

/-- The number of a token's terminal. -/
def Token.code (t : Token) : Nat :=
  t.terminal.code

theorem table_productions : table.productions = grammar.productions.toArray := by
  rw [table]
  rfl

theorem table_start : table.start = Rule.start.code := by
  rw [table]
  rfl

theorem derives_of_parseFrom {source : List Char} {stack : Stack Token} {last offset : Nat}
    {cs : List Char} {tree : ParseTree Token} (sound : stack.Sound grammar Token.code)
    (h : parseFrom table source stack last offset cs = .ok tree) :
    Derives grammar Token.code (.nonterminal Rule.start.code) tree := by
  fun_induction parseFrom table source stack last offset cs with
  | case1 stack last offset cs skipped _ tree finished =>
    obtain rfl := Except.ok.inj h
    rw [← table_start]
    exact ContextFree.Table.finish_sound table_productions sound finished
  | case3 stack last offset cs skipped start c rest _ terminal length _ text token stack' pushed
      ih =>
    have hc : terminal.code = token.code := rfl
    rw [hc] at pushed
    exact ih (ContextFree.Table.push_sound table_productions sound pushed) h
  | _ => simp only [reduceCtorEq] at h

/-- The tree of a text derives the start symbol. -/
theorem derives_of_parseTree {text : String} {tree : ParseTree Token}
    (h : parseTree text = .ok tree) :
    Derives grammar Token.code (.nonterminal Rule.start.code) tree :=
  derives_of_parseFrom Stack.sound_nil h

end WebSpec.Idl
