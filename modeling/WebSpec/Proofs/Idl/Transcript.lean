import WebSpec.Proofs.ContextFree.Acceptance
import WebSpec.Proofs.ContextFree.Relabeling
import WebSpec.Proofs.Idl.Reading

/-!
# What a text is read as

A text that has a tree is a list of tokens, each with its layout, and layout behind the last one
(`parseTree_eq_ok_iff`). `Transcript` says how a parser reads it, one token after the other. The
tokens are those of the tree, so a tree holds all of its text but for what is behind its last token.
Other tokens of the same terminals are read in their places if they are found there
(`Transcript.exchange`).
-/

namespace WebSpec.Idl

open ContextFree (Entry ParseTree Stack)

/-- Between two stacks a parser reads these tokens of a text, and the layout at its end. -/
inductive Transcript (gap : List Char) : Stack Token → List Token → Stack Token → Prop where
  | nil {stack : Stack Token} (closes : IsGap (gap ++ ['\n'])) : Transcript gap stack [] stack
  | cons {stack next final : Stack Token} {t : Token} {tokens : List Token}
      (starts : t.Starts (table.accepted stack) (textOf (t :: tokens) ++ gap)
        (textOf tokens ++ gap))
      (pushed : table.push stack t.code t = some next) (others : Transcript gap next tokens final) :
      Transcript gap stack (t :: tokens) final

variable {gap source cs : List Char} {stack final : Stack Token} {tokens : List Token}
  {last offset : Nat} {tree : ParseTree Token}

namespace Transcript

theorem closes (h : Transcript gap stack tokens final) : IsGap (gap ++ ['\n']) := by
  induction h with
  | nil closes => exact closes
  | cons _ _ _ ih => exact ih

/-- Each token is found where it stands. -/
theorem exists_starts (h : Transcript gap stack tokens final) {t : Token} (ht : t ∈ tokens) :
    ∃ accepted cs rest, t.Starts accepted cs rest := by
  induction h with
  | nil => cases ht
  | cons starts _ _ ih =>
    rcases List.mem_cons.mp ht with rfl | ht
    · exact ⟨_, _, _, starts⟩
    · exact ih ht

/-- The tokens are put behind those of the stack. -/
theorem tokens_eq (h : Transcript gap stack tokens final) :
    final.tokens = stack.tokens ++ tokens := by
  induction h with
  | nil => rw [List.append_nil]
  | cons _ pushed _ ih =>
    rw [ih, ContextFree.Table.push_tokens pushed, List.append_assoc, List.singleton_append]

/-- The text of the tokens is read as the tree that they lead to. -/
theorem parseFrom_eq (h : Transcript gap stack tokens final)
    (finished : table.finish final = some tree) :
    parseFrom table source stack last offset (textOf tokens ++ gap) = .ok tree := by
  induction h generalizing last offset with
  | nil closes =>
    have all : gap.drop (layoutLength gap) = [] := by
      rw [layoutLength_of_isGap_newline closes, List.drop_length]
    rw [textOf, List.flatMap_nil, List.nil_append, Idl.parseFrom_eq, all, parseBehind, finished]
  | cons starts pushed _ ih => exact (parseFrom_token starts pushed).trans (ih finished)

section

variable {gap' : List Char} {tokens' : List Token} {stack' : Stack Token} {f : Token → Token}
  {R : Token → Token → Prop} (same : ∀ {t t' : Token}, R t t' → f t' = f t ∧ t'.code = t.code)
  (found : ∀ {t t' : Token} {tokens tokens' : List Token} {accepted : ContextFree.TerminalSet},
    R t t' → List.Forall₂ R tokens tokens' →
    t.Starts accepted (textOf (t :: tokens) ++ gap) (textOf tokens ++ gap) →
    t'.Starts accepted (textOf (t' :: tokens') ++ gap') (textOf tokens' ++ gap'))
  (closes : IsGap (gap' ++ ['\n']))
include same found closes

/-- Tokens that are found in the places of others are read there. The stacks of both parsers have in
common what the tokens have. -/
theorem exchange (h : Transcript gap stack tokens final) (related : List.Forall₂ R tokens tokens')
    (alike : stack'.map (Entry.map f) = stack.map (Entry.map f)) :
    ∃ final', Transcript gap' stack' tokens' final' ∧
      final'.map (Entry.map f) = final.map (Entry.map f) := by
  induction h generalizing tokens' stack' with
  | nil =>
    cases related
    exact ⟨stack', .nil closes, alike⟩
  | cons starts pushed _ ih =>
    obtain _ | ⟨first, others⟩ := related
    obtain ⟨common, code⟩ := same first
    obtain ⟨next', pushed', alike'⟩ := ContextFree.Table.push_of_map_eq alike common pushed
    obtain ⟨final', read, alike'⟩ := ih others alike'
    have starts' := found first others starts
    rw [← ContextFree.Table.accepted_of_map_eq alike] at starts'
    exact ⟨final', .cons starts' (code ▸ pushed') read, alike'⟩

/-- They make a tree that has in common with the other one what the tokens have. -/
theorem exists_parseTree (h : Transcript gap [] tree.tokens final)
    (finished : table.finish final = some tree) (related : List.Forall₂ R tree.tokens tokens') :
    ∃ tree', parseTree (String.ofList (textOf tokens' ++ gap')) = .ok tree' ∧
      tree'.map f = tree.map f ∧ tree'.tokens = tokens' := by
  obtain ⟨final', read, alike⟩ := h.exchange same found closes related rfl
  obtain ⟨tree', finished', same'⟩ := ContextFree.Table.finish_of_map_eq alike finished
  refine ⟨tree', ?_, same', ?_⟩
  · rw [parseTree, String.toList_ofList]
    exact read.parseFrom_eq finished'
  · rw [ContextFree.Table.finish_tokens finished', read.tokens_eq]
    rfl

end

end Transcript

/-- A text that has a tree is tokens and layout. -/
theorem exists_transcript_of_parseFrom
    (h : parseFrom table source stack last offset cs = .ok tree) :
    ∃ tokens gap final, cs = textOf tokens ++ gap ∧ Transcript gap stack tokens final ∧
      table.finish final = some tree := by
  induction hn : cs.length using Nat.strong_induction_on generalizing stack last offset cs with
  | _ n ih =>
    rcases end_or_token_of_parseFrom h with ⟨empty, finished⟩ | ⟨t, rest, next, starts, pushed⟩
    · exact ⟨[], cs, stack, rfl, .nil (isGap_of_drop_layoutLength empty), finished⟩
    · rw [parseFrom_token starts pushed] at h
      obtain ⟨tokens, gap, final, rfl, others, finished⟩ := ih _ (hn ▸ starts.length_lt) h rfl
      have split : cs = textOf (t :: tokens) ++ gap := by
        rw [starts.split, textOf_cons]
        simp only [List.append_assoc]
      exact ⟨t :: tokens, gap, final, split, .cons (split ▸ starts) pushed others, finished⟩

/-- A text has a tree just if its tokens and its layout are read to it. -/
theorem parseTree_eq_ok_iff {text : String} :
    parseTree text = .ok tree ↔ ∃ gap final, text.toList = textOf tree.tokens ++ gap ∧
      Transcript gap [] tree.tokens final ∧ table.finish final = some tree := by
  constructor
  · intro h
    obtain ⟨tokens, gap, final, split, read, finished⟩ := exists_transcript_of_parseFrom h
    have same : tree.tokens = tokens := by
      rw [ContextFree.Table.finish_tokens finished, read.tokens_eq]
      rfl
    exact ⟨gap, final, same ▸ split, same ▸ read, finished⟩
  · rintro ⟨gap, final, split, read, finished⟩
    rw [parseTree, split]
    exact read.parseFrom_eq finished

end WebSpec.Idl
