import WebSpec.Proofs.ContextFree.Frame
import WebSpec.Proofs.Idl.Transcript

/-!
# Passages of a text

A `Passage` is a part of a text that a parser reads, one token after the other, with more text
behind it. Passages follow each other (`Passage.append`), and one that is all of a text makes its
tree (`parseTree_of_passage`).

What tokens are in a passage can be known from their own texts, if they are plain
(`passage_of_plain`), or from another passage: what a parser reads as a nonterminal on one frame, it
reads in the same tokens on another frame, whatever is behind it there (`exists_passage`).
-/

namespace WebSpec.Idl

open ContextFree (Derives ParseTree Stack TerminalSet)

/-! ### Layout -/

theorem isGap_space : IsGap " ".toList :=
  .blank (by decide) .nil

theorem IsGap.append {gap more : List Char} (h : IsGap gap) (hm : IsGap more) :
    IsGap (gap ++ more) := by
  induction h with
  | nil => exact hm
  | blank blank _ ih => exact .blank blank ih
  | line clean _ ih =>
    simp only [List.cons_append, List.append_assoc]
    exact .line clean ih
  | block clean _ ih =>
    simp only [List.cons_append, List.append_assoc]
    exact .block clean ih

/-- Layout before a separator starts with a separator. -/
theorem IsGap.separated {gap rest : List Char} (h : IsGap gap)
    (separated : ∀ c ∈ rest.head?, c ∈ separators) :
    ∀ c ∈ (gap ++ rest).head?, c ∈ separators := by
  cases gap with
  | nil => exact separated
  | cons c gap =>
    rintro _ ⟨⟩
    exact List.mem_append_right marks (h.delimits c rfl)

/-! ### Passages -/

/-- Between two stacks a parser reads these tokens, with more text behind them. -/
inductive Passage (behind : List Char) : Stack Token → List Token → Stack Token → Prop where
  | nil {stack : Stack Token} : Passage behind stack [] stack
  | cons {stack next final : Stack Token} {t : Token} {tokens : List Token}
      (starts : t.Starts (table.accepted stack) (textOf (t :: tokens) ++ behind)
        (textOf tokens ++ behind))
      (pushed : table.push stack t.code t = some next) (others : Passage behind next tokens final) :
      Passage behind stack (t :: tokens) final

variable {behind gap : List Char} {stack stack' mid next final : Stack Token}
  {tokens more : List Token} {t : Token}

theorem textOf_append (tokens more : List Token) :
    textOf (tokens ++ more) = textOf tokens ++ textOf more :=
  List.flatMap_append

theorem pushAll_append {stack : Stack Token} :
    table.pushAll Token.code stack (tokens ++ more) =
      (table.pushAll Token.code stack tokens).bind fun next =>
        table.pushAll Token.code next more :=
  List.foldlM_append

namespace Passage

theorem append (h : Passage (textOf more ++ behind) stack tokens mid)
    (hm : Passage behind mid more final) : Passage behind stack (tokens ++ more) final := by
  induction h with
  | nil => exact hm
  | cons starts pushed _ ih =>
    refine .cons ?_ pushed (ih hm)
    rw [List.append_eq, ← List.cons_append, textOf_append, textOf_append, List.append_assoc,
      List.append_assoc]
    exact starts

theorem pushAll (h : Passage behind stack tokens final) :
    table.pushAll Token.code stack tokens = some final := by
  induction h with
  | nil => rfl
  | cons _ pushed _ ih => rw [ContextFree.Table.pushAll_cons, pushed, Option.bind_some, ih]

/-- A passage with nothing but layout behind it. -/
theorem transcript (h : Passage gap stack tokens final) (closes : IsGap (gap ++ ['\n'])) :
    Transcript gap stack tokens final := by
  induction h with
  | nil => exact .nil closes
  | cons starts pushed _ ih => exact .cons starts pushed ih

/-- A passage is read before what is behind it. -/
theorem parseFrom_eq (h : Passage behind stack tokens final) {source : List Char}
    {last offset : Nat} : ∃ last' offset',
      parseFrom table source stack last offset (textOf tokens ++ behind) =
        parseFrom table source final last' offset' behind := by
  induction h generalizing last offset with
  | nil => exact ⟨last, offset, rfl⟩
  | cons starts pushed _ ih =>
    obtain ⟨last', offset', same⟩ := ih
    exact ⟨last', offset', (parseFrom_token starts pushed).trans same⟩

end Passage

/-- A text whose tokens are those of a derivation is read as this derivation. -/
theorem parseTree_of_passage {tree : ParseTree Token}
    (derives : Derives grammar Token.code (.nonterminal Rule.start.code) tree)
    (h : Passage [] [] tree.tokens final) :
    parseTree (String.ofList (textOf tree.tokens)) = .ok tree := by
  have read := ContextFree.Table.parse?_of_derives complete_states madeOf_states
    (fun t => t.terminal.code_lt_width) endMark_lt_width derives
  rw [ContextFree.Table.parse?, h.pushAll, Option.bind_eq_bind, Option.bind_some] at read
  refine parseTree_eq_ok_iff.mpr ⟨[], final, ?_, h.transcript (.blank (by decide) .nil), read⟩
  rw [String.toList_ofList, List.append_nil]

/-! ### Plain tokens -/

/-- Plain tokens that are told apart from what is behind them. -/
inductive PlainBefore (behind : List Char) : List Token → Prop where
  | nil : PlainBefore behind []
  | cons {t : Token} {tokens : List Token} (plain : t.IsPlain) (isGap : IsGap t.layout.toList)
      (ends : t.EndsBefore (textOf tokens ++ behind)) (others : PlainBefore behind tokens) :
      PlainBefore behind (t :: tokens)

theorem PlainBefore.append (h : PlainBefore (textOf more ++ behind) tokens)
    (hm : PlainBefore behind more) : PlainBefore behind (tokens ++ more) := by
  induction h with
  | nil => exact hm
  | cons plain isGap ends _ ih =>
    refine .cons plain isGap ?_ ih
    rwa [List.append_eq, textOf_append, List.append_assoc]

/-- A token that goes onto the stack is accepted. -/
theorem accepted_of_push {terminal : Nat} (pushed : table.push stack terminal t = some next) :
    (table.accepted stack).has terminal = true := by
  obtain ⟨settled, hs, pushed⟩ := Option.bind_eq_some_iff.mp pushed
  obtain ⟨state, goto, -⟩ := Option.bind_eq_some_iff.mp pushed
  exact ContextFree.Table.accepted_of_replaces madeOf_states
    (ContextFree.Table.replaces_of_settle hs).1 goto

/-- Plain tokens that go onto the stack are read. -/
theorem passage_of_plain (h : PlainBefore behind tokens)
    (pushed : table.pushAll Token.code stack tokens = some final) :
    Passage behind stack tokens final := by
  induction h generalizing stack with
  | nil =>
    obtain rfl := Option.some.inj pushed
    exact .nil
  | @cons t tokens plain isGap ends _ ih =>
    rw [ContextFree.Table.pushAll_cons] at pushed
    obtain ⟨next, first, others⟩ := Option.bind_eq_some_iff.mp pushed
    have alone : nextToken? (table.accepted stack) t.text.toList =
        some (t.terminal, t.text.length) := by
      simpa using plain _ [] (accepted_of_push first) delimits_nil
    exact .cons ⟨by simp only [textOf_cons, List.append_assoc], isGap, ends.nextToken? alone⟩ first
      (ih others)

/-- A text of plain tokens that are those of a derivation is read as this derivation. -/
theorem parseTree_of_plain {tree : ParseTree Token}
    (derives : Derives grammar Token.code (.nonterminal Rule.start.code) tree)
    (plain : PlainBefore [] tree.tokens) :
    parseTree (String.ofList (textOf tree.tokens)) = .ok tree := by
  have read := ContextFree.Table.parse?_of_derives complete_states madeOf_states
    (fun t => t.terminal.code_lt_width) endMark_lt_width derives
  obtain ⟨final, pushed, -⟩ := Option.bind_eq_some_iff.mp read
  exact parseTree_of_passage derives (passage_of_plain plain pushed)

/-! ### The same tokens on another frame -/

/-- A token is found before other text as well, if that starts with a separator. -/
theorem Token.Starts.exchange {accepted : TerminalSet} {cs kept rest : List Char}
    (h : t.Starts accepted cs (kept ++ rest)) (separated : ∀ c ∈ behind.head?, c ∈ separators) :
    t.Starts accepted (t.layout.toList ++ (t.text.toList ++ (kept ++ behind)))
      (kept ++ behind) := by
  refine ⟨rfl, h.isGap, ?_⟩
  have found := h.truncate.found
  rw [← List.append_assoc]
  cases behind with
  | nil => rwa [List.append_nil]
  | cons s behind => exact nextToken?_append (separated s rfl) found

variable {code target : Nat} {frame frame' : Stack Token} {tree : ParseTree Token}

/-- On stacks that a parser does not tell apart the same terminals are accepted. -/
theorem accepted_of_above (frames : table.Reframes code target frame frame')
    (above : ContextFree.Above code frame frame' stack stack') :
    table.accepted stack' = table.accepted stack := by
  rcases above.state with ⟨rfl, rfl⟩ | same
  · exact frames.accepted
  · rw [ContextFree.Table.accepted_eq, ContextFree.Table.accepted_eq, same]

/-- What is behind a nonterminal that a parser reads on a frame. -/
structure ReadsBehind (gap : List Char) (code target : Nat) (frame : Stack Token)
    (found : ParseTree Token) (t : Token) (rest : List Token) (final : Stack Token) : Prop where
  derives : Derives grammar Token.code (.nonterminal code) found
  starts : ∃ accepted, t.Starts accepted (textOf (t :: rest) ++ gap) (textOf rest ++ gap)
  pushed : ∃ next, table.push (ContextFree.topWith code target frame found) t.code t = some next ∧
    Transcript gap next rest final

section

variable (frames : table.Reframes code target frame frame) (deep : 2 ≤ frame.length)
  (finished : table.finish final = some tree)
include frames deep finished

/-- On a frame a parser reads the tokens of a derivation, which it reads as well on other frames,
whatever is behind them. -/
theorem exists_inner (above : ContextFree.Above code frame frame stack stack)
    (sound : stack.Sound grammar Token.code) (h : Transcript gap stack tokens final) :
    ∃ inner t rest found, tokens = inner ++ t :: rest ∧
      stack.tokens ++ inner = frame.tokens ++ found.tokens ∧
      ReadsBehind gap code target frame found t rest final ∧
      ∀ {frame' stack' : Stack Token} {behind : List Char},
        table.Reframes code target frame frame' →
        ContextFree.Above code frame frame' stack stack' →
        (∀ c ∈ behind.head?, c ∈ separators) → ∃ mid, Passage behind stack' inner mid := by
  induction h with
  | nil =>
    rw [ContextFree.Table.finish_above frames above deep] at finished
    cases finished
  | @cons stack next final t tokens starts pushed others ih =>
    have sound' := ContextFree.Table.push_sound madeOf_states.productions sound pushed
    rcases ContextFree.Table.push_above complete_states madeOf_states frames.whole sound pushed with
      step | ⟨found, derives, same, pushed'⟩
    · obtain ⟨next₁, pushed₁, above₁⟩ := step frames above t
      obtain rfl := Option.some.inj (pushed.symm.trans pushed₁)
      obtain ⟨inner, t', rest, found, rfl, same, reads, passage⟩ := ih finished above₁ sound'
      refine ⟨t :: inner, t', rest, found, rfl, ?_, reads,
        fun {_ _ _} frames' above' separated => ?_⟩
      · rw [← same, ContextFree.Table.push_tokens pushed, List.append_assoc, List.singleton_append]
      · obtain ⟨next', pushed', above''⟩ := step frames' above' t
        obtain ⟨mid, inside⟩ := passage frames' above'' separated
        rw [textOf_append, List.append_assoc] at starts
        have starts' := starts.exchange separated
        rw [← accepted_of_above frames' above'] at starts'
        exact ⟨mid, .cons (by simpa only [textOf_cons, List.append_assoc] using starts') pushed'
          inside⟩
    · exact ⟨[], t, tokens, found, rfl, by rw [← same, List.append_nil],
        ⟨derives, ⟨_, starts⟩, next, pushed', others⟩, fun {_ _ _} _ _ _ => ⟨_, .nil⟩⟩

end

/-- What a text has in a place of a nonterminal are the tokens of a derivation of it. On other
frames the same tokens are read, with any layout before the first one. -/
theorem exists_passage (frames : table.Reframes code target frame frame) (deep : 2 ≤ frame.length)
    (sound : frame.Sound grammar Token.code) (h : Transcript gap frame tokens final)
    (finished : table.finish final = some tree) :
    ∃ first inner t rest found, tokens = first :: inner ++ t :: rest ∧
      found.tokens = first :: inner ∧ ReadsBehind gap code target frame found t rest final ∧
      ∀ {frame' : Stack Token} {layout : String} {behind : List Char},
        table.Reframes code target frame frame' → IsGap layout.toList →
        (∀ c ∈ behind.head?, c ∈ separators) →
        ∃ mid, Passage behind frame' ({ first with layout := layout } :: inner) mid := by
  cases h with
  | nil =>
    rw [ContextFree.Table.finish_above frames ContextFree.above_frame deep] at finished
    cases finished
  | @cons _ next _ first tokens starts pushed others =>
    have sound' := ContextFree.Table.push_sound madeOf_states.productions sound pushed
    obtain ⟨next', pushed', above⟩ := ContextFree.Table.push_frame frames pushed first
    obtain rfl := Option.some.inj (pushed.symm.trans pushed')
    obtain ⟨inner, t, rest, found, rfl, same, reads, passage⟩ :=
      exists_inner frames deep finished above sound' others
    refine ⟨first, inner, t, rest, found, rfl, ?_, reads,
      fun {frame' layout behind} frames' isGap separated => ?_⟩
    · rw [ContextFree.Table.push_tokens pushed, List.append_assoc] at same
      exact (List.append_cancel_left same).symm
    · obtain ⟨next', pushed', above'⟩ :=
        ContextFree.Table.push_frame frames' pushed { first with layout := layout }
      obtain ⟨mid, inside⟩ := passage frames' above' separated
      rw [textOf_append, List.append_assoc] at starts
      have starts' := (starts.exchange separated).withLayout layout isGap
      rw [← frames'.accepted] at starts'
      exact ⟨mid, .cons (by simpa only [textOf_cons, List.append_assoc] using starts') pushed'
        inside⟩

end WebSpec.Idl
