import WebSpec.Proofs.Idl.RoundTrip
import WebSpec.Proofs.Idl.Transcript
import WebSpec.Proofs.Outcome

/-!
# Layout does not matter

Other layout between the tokens of an accepted text, or layout where there was none, leaves its
definitions as they are, up to their fragments: `parse_relaid`.

A parser that reads the text with the other layout finds the same tokens. Where the texts behind a
token begin to differ, the second one goes on with layout or is at its end (`exists_seam`); what the
next token is does not depend on what stands there in the first text, and layout there does not
change it. The stacks of both parsers differ in the layout of their tokens only.
-/

namespace WebSpec.Idl

open ContextFree (Entry ParseTree Stack)

/-- The token with the layout that it has, or with any layout that is not empty. -/
inductive Token.Relaid (t : Token) : Token → Prop where
  | kept : t.Relaid t
  | laid {layout : String} (filled : layout ≠ "") (isGap : IsGap layout.toList) :
      t.Relaid { t with layout := layout }

theorem Token.Relaid.bare_eq {t t' : Token} (h : t.Relaid t') : t'.bare = t.bare := by
  cases h <;> rfl

variable {gap gap' : List Char} {tokens tokens' : List Token} {stack stack' final : Stack Token}

/-- Behind a part that they have in common, the text with other layout goes on with layout or is at
its end. -/
theorem exists_seam (gap : List Char) (h : List.Forall₂ Token.Relaid tokens tokens')
    (closes : IsGap (gap' ++ ['\n'])) : ∃ common rest rest', textOf tokens ++ gap = common ++ rest ∧
      textOf tokens' ++ gap' = common ++ rest' ∧ Delimits rest' := by
  induction h with
  | nil =>
    refine ⟨[], gap, gap', rfl, rfl, fun c hc => closes.delimits c ?_⟩
    rw [Option.mem_def] at hc ⊢
    rw [List.head?_append, hc, Option.some_or]
  | @cons t t' tokens tokens' relaid _ ih =>
    cases relaid with
    | kept =>
      obtain ⟨common, rest, rest', same, same', delimits⟩ := ih
      refine ⟨t.layout.toList ++ (t.text.toList ++ common), rest, rest', ?_, ?_, delimits⟩
      · simp only [textOf_cons, List.append_assoc, same]
      · simp only [textOf_cons, List.append_assoc, same']
    | @laid layout filled isGap =>
      refine ⟨[], _, _, rfl, rfl, fun c hc => isGap.delimits c ?_⟩
      have filled : layout.toList ≠ [] := by simpa using filled
      obtain ⟨first, others, hl⟩ := List.exists_cons_of_ne_nil filled
      simpa [textOf_cons, hl] using hc

/-- A token is found with other layout before it and between those behind it. -/
theorem Token.Starts.relaid {t t' : Token} {accepted : ContextFree.TerminalSet}
    (starts : t.Starts accepted (textOf (t :: tokens) ++ gap) (textOf tokens ++ gap))
    (first : t.Relaid t') (others : List.Forall₂ Token.Relaid tokens tokens')
    (closes : IsGap (gap' ++ ['\n'])) :
    t'.Starts accepted (textOf (t' :: tokens') ++ gap') (textOf tokens' ++ gap') := by
  refine ⟨?_, ?_, ?_⟩
  · simp only [textOf_cons, List.append_assoc]
  · cases first with
    | kept => exact starts.isGap
    | laid _ isGap => exact isGap
  · -- The text of the token is the same, and what is behind it differs from a seam on.
    obtain ⟨common, rest, rest', same, same', delimits⟩ := exists_seam gap others closes
    have found := starts.found
    rw [same, ← List.append_assoc] at found
    have bound : t.text.length ≤ (t.text.toList ++ common).length := by
      rw [List.length_append, String.length_toList]
      exact Nat.le_add_right _ _
    have found' := nextToken?_exchange found bound delimits
    rw [same', ← List.append_assoc]
    cases first <;> exact found'

/-- The tokens of a text are found with other layout. -/
theorem Transcript.relaid (h : Transcript gap stack tokens final)
    (relaid : List.Forall₂ Token.Relaid tokens tokens') (closes : IsGap (gap' ++ ['\n']))
    (alike : stack'.map (Entry.map Token.bare) = stack.map (Entry.map Token.bare)) :
    ∃ final', Transcript gap' stack' tokens' final' ∧
      final'.map (Entry.map Token.bare) = final.map (Entry.map Token.bare) :=
  h.exchange (fun first => ⟨first.bare_eq, congrArg (·.terminal.code) first.bare_eq⟩)
    (fun first others starts => starts.relaid first others closes) closes relaid alike

/-- An accepted text consists of tokens with layout before each of them and behind the last one. It
is accepted with any layout in their places instead, and with layout where there was none, and has
the same definitions then, up to their fragments. -/
theorem parse_relaid {text : String} {definitions : List Node} (h : parse text = .ok definitions) :
    ∃ tree gap, parseTree text = .ok tree ∧ text.toList = textOf tree.tokens ++ gap ∧
      (∀ t ∈ tree.tokens, IsGap t.layout.toList) ∧ IsGap (gap ++ ['\n']) ∧
      ∀ tokens' gap', List.Forall₂ Token.Relaid tree.tokens tokens' → IsGap (gap' ++ ['\n']) →
        ∃ definitions', parse (String.ofList (textOf tokens' ++ gap')) = .ok definitions' ∧
          definitions'.map Node.bare = definitions.map Node.bare := by
  obtain ⟨tree, ht, h⟩ := bind_eq_ok.mp h
  obtain rfl := Except.ok.inj h
  obtain ⟨gap, final, split, read, finished⟩ := parseTree_eq_ok_iff.mp ht
  refine ⟨tree, gap, ht, split, fun t member => ?_, read.closes,
    fun tokens' gap' relaid closes => ?_⟩
  · obtain ⟨accepted, cs, rest, starts⟩ := read.exists_starts member
    exact starts.isGap
  · obtain ⟨final', read', alike⟩ := read.relaid relaid closes rfl
    obtain ⟨tree', finished', same⟩ := ContextFree.Table.finish_of_map_eq alike finished
    have tree_read : parseTree (String.ofList (textOf tokens' ++ gap')) = .ok tree' := by
      rw [parseTree, String.toList_ofList]
      exact read'.parseFrom_eq finished'
    refine ⟨(definitionsOf tree').getD [], ?_, definitionsOf_of_map_eq same⟩
    rw [parse, tree_read]
    rfl

/-- A statement with comments in it and behind it. -/
theorem parse_relaid_includes :
    ∃ definitions definitions', parse "_Window includes _Lens ;" = .ok definitions ∧
      parse "/*/ 1 */_Window// 2\nincludes\t_Lens ;// 3" = .ok definitions' ∧
      definitions'.map Node.bare = definitions.map Node.bare := by
  let statement : Node := { kind := .known .includes, target := "Window", includes := "Lens" }
  have formed : ∀ d ∈ [statement], d.IsDefinition :=
    List.forall_mem_singleton.mpr ⟨.includes (by decide) (by decide), by simp [statement]⟩
  obtain ⟨tree, read, texts, -⟩ := Spacing.loose.parseTree_of_spells (spells_definitions formed)
  rw [Spacing.text_loose] at read
  rw [show [statement].flatMap Node.words = ["_Window", "includes", "_Lens", ";"] by
    decide] at read texts
  have parsed : parse "_Window includes _Lens ;" = .ok ((definitionsOf tree).getD []) := by
    rw [parse, show "_Window includes _Lens ;" =
      " ".intercalate ["_Window", "includes", "_Lens", ";"] by decide, read]
    rfl
  obtain ⟨tree', gap, read', -, -, -, relaid⟩ := parse_relaid parsed
  obtain rfl : tree' = tree := Except.ok.inj (read'.symm.trans read)
  obtain ⟨window, _, tokens, hw, texts⟩ := List.map_eq_cons_iff.mp texts
  obtain ⟨includes, _, rfl, hi, texts⟩ := List.map_eq_cons_iff.mp texts
  obtain ⟨lens, _, rfl, hl, texts⟩ := List.map_eq_cons_iff.mp texts
  obtain ⟨semicolon, rfl, hs⟩ := List.map_eq_singleton_iff.mp texts
  have block : IsGap "/*/ 1 */".toList := @IsGap.block ['/', ' ', '1', ' '] _ (by decide) .nil
  have line : IsGap "// 2\n".toList := @IsGap.line [' ', '2'] _ (by decide) .nil
  have closes : IsGap ("// 3".toList ++ ['\n']) := @IsGap.line [' ', '3'] _ (by decide) .nil
  obtain ⟨definitions', parsed', same⟩ := relaid
    [{ window with layout := "/*/ 1 */" }, { includes with layout := "// 2\n" },
      { lens with layout := "\t" }, { semicolon with layout := " " }] "// 3".toList
    (by
      rw [tokens]
      exact .cons (.laid (by decide) block) <| .cons (.laid (by decide) line) <|
        .cons (.laid (by decide) (.blank (by decide) .nil)) <|
        .cons (.laid (by decide) (.blank (by decide) .nil)) .nil)
    closes
  refine ⟨_, definitions', parsed, ?_, same⟩
  rw [← parsed']
  simp only [textOf, List.flatMap_cons, List.flatMap_nil, hw, hi, hl, hs]
  rfl

end WebSpec.Idl
