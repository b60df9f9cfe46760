import WebSpec.Proofs.Idl.Derivation
import WebSpec.Proofs.Idl.Layout
import WebSpec.Proofs.Idl.Truncation

/-!
# One token at a time

Reading a text is reading layout and then what is behind it (`parseFrom_eq`). So a token goes onto
the stack wherever its layout and the token itself are found (`parseFrom_token`), and an accepted
text is either at its end or starts with such a token (`end_or_token_of_parseFrom`).
-/

namespace WebSpec.Idl

open ContextFree (ParseTree Stack TerminalSet)

variable {table : ContextFree.Table} {source : List Char} {stack stack' : Stack Token}
  {last offset : Nat} {cs : List Char} {tree : ParseTree Token}

/-- Reads what is behind the layout before a token. -/
def parseBehind (table : ContextFree.Table) (source : List Char) (stack : Stack Token)
    (last start : Nat) (layout : String) : List Char → Except SyntaxError (ParseTree Token)
  | [] =>
    match table.finish stack with
    | some tree => .ok tree
    | none => .error (.located source last (.unexpectedToken .endOfInput ""))
  | c :: rest =>
    match nextToken? (table.accepted stack) (c :: rest) with
    | some (terminal, length) =>
      let text := String.ofList ((c :: rest).take length)
      match table.push stack terminal.code ⟨terminal, layout, text⟩ with
      | some stack =>
        parseFrom table source stack start (start + length) (rest.drop (length - 1))
      | none => .error (.located source start (.unexpectedToken terminal text))
    | none =>
      match nextToken? allTerminals (c :: rest) with
      | some (terminal, length) =>
        .error (.located source start
          (.unexpectedToken terminal (String.ofList ((c :: rest).take length))))
      | none => .error (.located source start (.unexpectedCharacter c))

/-- Layout is read before what is behind it. -/
theorem parseFrom_eq (table : ContextFree.Table) (source : List Char) (stack : Stack Token)
    (last offset : Nat) (cs : List Char) :
    parseFrom table source stack last offset cs =
      parseBehind table source stack last (offset + layoutLength cs)
        (String.ofList (cs.take (layoutLength cs))) (cs.drop (layoutLength cs)) := by
  rw [parseFrom]
  split
  · rename_i empty
    rw [empty]
    rfl
  · rename_i c rest filled
    rw [filled]
    rfl

/-- Stacks that do the same with every token lead to the same. -/
theorem parseFrom_congr (accepted : table.accepted stack' = table.accepted stack)
    (finish : table.finish stack' = table.finish stack)
    (push : ∀ terminal : Terminal, (table.accepted stack).has terminal.code = true →
      terminal ≠ .endOfInput → ∀ token,
      table.push stack' terminal.code token = table.push stack terminal.code token) :
    parseFrom table source stack' last offset cs = parseFrom table source stack last offset cs := by
  rw [parseFrom_eq, parseFrom_eq]
  cases cs.drop (layoutLength cs) with
  | nil => rw [parseBehind, parseBehind, finish]
  | cons c rest =>
    simp only [parseBehind, accepted]
    cases found : nextToken? (table.accepted stack) (c :: rest) with
    | none => rfl
    | some token =>
      simp only [push _ (nextToken?_spec found).1 (nextToken?_ne_endOfInput found)]

/-- A token behind its layout goes onto the stack. -/
theorem parseBehind_token {start : Nat} {t : Token} {rest : List Char} (filled : t.text.toList ≠ [])
    (found : nextToken? (table.accepted stack) (t.text.toList ++ rest) =
      some (t.terminal, t.text.length))
    (pushed : table.push stack t.code t = some stack') :
    parseBehind table source stack last start t.layout (t.text.toList ++ rest) =
      parseFrom table source stack' start (start + t.text.toList.length) rest := by
  obtain ⟨c, others, filled⟩ := List.exists_cons_of_ne_nil filled
  have length : t.text.length = others.length + 1 := by
    rw [← String.length_toList, filled, List.length_cons]
  have text : (c :: (others ++ rest)).take t.text.length = t.text.toList := by
    rw [← List.cons_append, ← filled, ← String.length_toList, List.take_left]
  have token : table.push stack t.terminal.code ⟨t.terminal, t.layout, t.text⟩ = some stack' :=
    pushed
  rw [filled, List.cons_append] at found ⊢
  simp only [parseBehind, found, text, String.ofList_toList, token]
  simp only [length, List.length_cons, Nat.add_sub_cancel, List.drop_left]

/-! ### Tokens at the start of a text -/

/-- A text starts with a token and the layout before it, where some terminals are accepted. -/
structure Token.Starts (t : Token) (accepted : TerminalSet) (cs rest : List Char) : Prop where
  split : cs = t.layout.toList ++ (t.text.toList ++ rest)
  isGap : IsGap t.layout.toList
  found : nextToken? accepted (t.text.toList ++ rest) = some (t.terminal, t.text.length)

namespace Token.Starts

variable {t : Token} {accepted : TerminalSet} {rest : List Char}

theorem accepts (h : t.Starts accepted cs rest) : accepted.has t.code = true :=
  (nextToken?_spec h.found).1

theorem filled (h : t.Starts accepted cs rest) : t.text.toList ≠ [] := by
  have positive := (nextToken?_spec h.found).2.1
  rw [← String.length_toList] at positive
  exact List.ne_nil_of_length_pos positive

theorem length_lt (h : t.Starts accepted cs rest) : rest.length < cs.length := by
  have positive := List.length_pos_iff.mpr h.filled
  rw [h.split, List.length_append, List.length_append]
  omega

theorem ne_endOfInput (h : t.Starts accepted cs rest) : t.terminal ≠ .endOfInput :=
  nextToken?_ne_endOfInput h.found

theorem text_of_literal (h : t.Starts accepted cs rest) {literal : String}
    (hl : t.terminal.literal? = some literal) : t.text = literal := by
  obtain ⟨-, -, -, plain | ⟨literal', hl', taken⟩⟩ := nextToken?_spec h.found
  · rcases (by simpa using plain : _ ∨ _ ∨ _ ∨ _) with same | same | same | same <;>
      (rw [same] at hl; cases hl)
  · rw [hl] at hl'
    obtain rfl := Option.some.inj hl'
    rw [← String.toList_inj, ← taken, ← String.length_toList, List.take_left]

theorem layoutLength (h : t.Starts accepted cs rest) :
    layoutLength cs = t.layout.toList.length := by
  obtain ⟨c, others, same, clean⟩ := exists_of_nextToken? h.found
  have none : layoutLength? .between (t.text.toList ++ rest) = some 0 :=
    layoutLength?_eq_zero (by simpa [same] using clean)
  rw [h.split, layoutLength_append h.isGap, Idl.layoutLength, none, Option.getD_some, Nat.add_zero]

/-- A token with other layout before it. -/
theorem withLayout (h : t.Starts accepted cs rest) (layout : String) (gap : IsGap layout.toList) :
    Token.Starts { t with layout := layout } accepted (layout.toList ++ (t.text.toList ++ rest))
      rest :=
  ⟨rfl, gap, h.found⟩

/-- What stands behind a delimiter does not matter. -/
theorem append (h : t.Starts accepted cs rest) {s : Char} (hs : s ∈ delimiters)
    (more : List Char) : t.Starts accepted (cs ++ s :: more) (rest ++ s :: more) where
  split := by rw [h.split, List.append_assoc, List.append_assoc]
  isGap := h.isGap
  found := by
    rw [← List.append_assoc]
    exact nextToken?_append (List.mem_append_right marks hs) h.found

/-- What stands behind the token does not matter. -/
theorem truncate {kept more : List Char} (h : t.Starts accepted cs (kept ++ more)) :
    t.Starts accepted (t.layout.toList ++ (t.text.toList ++ kept)) kept where
  split := rfl
  isGap := h.isGap
  found := by
    have found := h.found
    rw [← List.append_assoc] at found
    refine nextToken?_of_append found ?_
    rw [List.length_append, String.length_toList]
    exact Nat.le_add_right _ _

end Token.Starts

/-- A token that a text starts with goes onto the stack. -/
theorem parseFrom_token {t : Token} {rest : List Char}
    (starts : t.Starts (table.accepted stack) cs rest)
    (pushed : table.push stack t.code t = some stack') :
    parseFrom table source stack last offset cs =
      parseFrom table source stack' (offset + t.layout.toList.length)
        (offset + t.layout.toList.length + t.text.toList.length) rest := by
  rw [parseFrom_eq, starts.layoutLength, starts.split, List.drop_left, List.take_left,
    String.ofList_toList, parseBehind_token starts.filled starts.found pushed]

/-- An accepted text is at its end or starts with a token that can come next. -/
theorem end_or_token_of_parseFrom (h : parseFrom table source stack last offset cs = .ok tree) :
    cs.drop (layoutLength cs) = [] ∧ table.finish stack = some tree ∨
      ∃ (t : Token) (rest : List Char) (stack' : Stack Token),
        t.Starts (table.accepted stack) cs rest ∧ table.push stack t.code t = some stack' := by
  rw [parseFrom_eq] at h
  cases behind : cs.drop (layoutLength cs) with
  | nil =>
    left
    rw [behind, parseBehind] at h
    cases finished : table.finish stack with
    | none => simp [finished] at h
    | some found => simpa [finished] using h
  | cons c rest =>
    right
    rw [behind, parseBehind] at h
    cases found : nextToken? (table.accepted stack) (c :: rest) with
    | none =>
      rw [found] at h
      simp only at h
      split at h <;> cases h
    | some next =>
      obtain ⟨terminal, length⟩ := next
      have bound := (nextToken?_spec found).2.2.1
      let t : Token := ⟨terminal, String.ofList (cs.take (layoutLength cs)),
        String.ofList ((c :: rest).take length)⟩
      have starts : t.Starts (table.accepted stack) cs ((c :: rest).drop length) := by
        refine ⟨?_, ?_, ?_⟩
        · simp only [t, String.toList_ofList]
          rw [List.take_append_drop, ← behind, List.take_append_drop]
        · simp only [t, String.toList_ofList]
          exact isGap_take_layoutLength (by simp [behind])
        · simp only [t, String.toList_ofList]
          rw [List.take_append_drop, found, String.length_ofList, List.length_take,
            Nat.min_eq_left bound]
      cases pushed : table.push stack t.code t with
      | none =>
        have pushed : table.push stack terminal.code t = none := pushed
        simp only [found, t] at h pushed
        rw [pushed] at h
        cases h
      | some stack' => exact ⟨t, _, stack', starts, pushed⟩

end WebSpec.Idl
