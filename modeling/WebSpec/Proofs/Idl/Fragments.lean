import WebSpec.Proofs.Idl.Boundary
import WebSpec.Proofs.Idl.DefinitionTree
import WebSpec.Proofs.Idl.RoundTrip

/-!
# Fragments of a text

The fragments of the definitions in a text are parts of it, in order, with nothing but blanks and
comments around them, and each of them read alone gives its definition back.

While a definition is read, a second parser reads its tokens alone, with no definitions below. The
text that it reads ends behind the definition, where in the whole text other definitions may follow;
both see the same tokens because no token depends on what is behind it
(`exists_definition_of_parseFrom`).
-/

namespace WebSpec.Idl

open ContextFree (Leftward ParseTree Stack)

/-- A text consists of fragments, one after the other, with blanks and comments around them. Behind
the last one a comment may go on to the end of the text. -/
inductive Fragmented : List String → List Char → Prop where
  | last {gap : List Char} : IsGap (gap ++ ['\n']) → Fragmented [] gap
  | cons {gap rest : List Char} {fragment : String} {fragments : List String} :
    IsGap gap → Fragmented fragments rest →
      Fragmented (fragment :: fragments) (gap ++ (fragment.toList ++ rest))

variable {source : List Char} {stack stack' next : Stack Token} {last offset : Nat}
  {cs : List Char} {tree : ParseTree Token} {elements : List (ParseTree Token)}

/-! ### One definition -/

/-- What is read of a text until the definition on top of the stack is whole. -/
structure Completes (stack stack' : Stack Token) (elements : List (ParseTree Token))
    (source cs : List Char) (tree : ParseTree Token) (tokens : List Token) (rest : List Char)
    (definition : ParseTree Token) : Prop where
  text : cs = textOf tokens ++ rest
  isGap : ∀ t ∈ tokens, IsGap t.layout.toList
  tokens_eq : stack.tokens ++ tokens = ParseTree.tokensOfAll elements ++ definition.tokens
  /-- Behind the definition the text goes on as behind any definitions. -/
  continues : ∃ last offset, parseFrom table source
    (definitionList.base (elements ++ [definition])) last offset rest = .ok tree
  /-- The tokens alone are accepted. -/
  alone : ∃ definition', Leftward Token.Like definition definition' ∧ ∀ source last offset,
    parseFrom table source stack' last offset (textOf tokens) =
      .ok (definitionList.whole [definition'])

/-- Nothing is read where the definition is whole already. -/
theorem completes_of_hasWhole {definition definition' : ParseTree Token}
    (whole : table.HasWhole definitionList elements definition stack)
    (whole' : table.HasWhole definitionList [] definition' stack')
    (leftward : Leftward Token.Like definition definition')
    (h : parseFrom table source stack last offset cs = .ok tree) :
    Completes stack stack' elements source cs tree [] cs definition where
  text := rfl
  isGap := by simp
  tokens_eq := by rw [List.append_nil, repeats_definitions.tokens_of_hasWhole whole]
  continues := by
    rw [parseFrom_of_between
      (repeats_definitions.between_of_hasWhole complete_states madeOf_states whole)] at h
    exact ⟨last, offset, h⟩
  alone := ⟨definition', leftward, fun _ _ _ => parseFrom_nil
    (repeats_definitions.between_of_hasWhole complete_states madeOf_states whole').finish⟩

/-- One more token is read before the others. -/
theorem Completes.cons {next next' : Stack Token} {t : Token} {rest behind : List Char}
    {tokens : List Token} {definition : ParseTree Token}
    (h : Completes next next' elements source rest tree tokens behind definition)
    (starts : t.Starts (table.accepted stack) cs rest)
    (accepted : table.accepted stack' = table.accepted stack)
    (pushed : table.push stack t.code t = some next)
    (pushed' : table.push stack' t.code t = some next') :
    Completes stack stack' elements source cs tree (t :: tokens) behind definition := by
  obtain ⟨definition', leftward, alone⟩ := h.alone
  have truncated := (h.text ▸ starts).truncate
  rw [← accepted] at truncated
  refine ⟨?_, ?_, ?_, h.continues, definition', leftward, fun source last offset => ?_⟩
  · rw [starts.split, h.text, textOf_cons]
    simp only [List.append_assoc]
  · exact List.forall_mem_cons.mpr ⟨starts.isGap, h.isGap⟩
  · rw [← h.tokens_eq, ContextFree.Table.push_tokens pushed, List.append_assoc]
    rfl
  · rw [textOf_cons, parseFrom_token truncated pushed', alone]

/-- The definition on top of a stack is read to its end, and read alone with the same result. -/
theorem exists_definition_of_parseFrom
    (alongside : definitionList.Alongside Token.Like elements [] stack stack')
    (h : parseFrom table source stack last offset cs = .ok tree) :
    ∃ tokens rest definition,
      Completes stack stack' elements source cs tree tokens rest definition := by
  induction hn : cs.length using Nat.strong_induction_on generalizing stack stack' last offset cs
    with
  | _ n ih =>
    rcases end_or_token_of_parseFrom h with ⟨-, finished⟩ | ⟨t, rest, next, starts, pushed⟩
    · obtain ⟨definition, definition', leftward, whole, whole'⟩ :=
        repeats_definitions.finish_alongside alongside finished
      exact ⟨[], cs, definition, completes_of_hasWhole whole whole' leftward h⟩
    · rcases repeats_definitions.push_alongside complete_states madeOf_states alongside pushed with
        ⟨next', pushed', result⟩ | ⟨definition, definition', leftward, whole, whole'⟩
      · rw [parseFrom_token starts pushed] at h
        obtain ⟨tokens, behind, definition, completes⟩ :=
          ih rest.length (hn ▸ starts.length_lt) result h rfl
        have accepted : table.accepted stack' = table.accepted stack := by
          rw [ContextFree.Table.accepted_eq, ContextFree.Table.accepted_eq, alongside.state.1]
        exact ⟨t :: tokens, behind, definition, completes.cons starts accepted pushed pushed'⟩
      · exact ⟨[], cs, definition, completes_of_hasWhole whole whole' leftward h⟩

/-! ### Texts -/

theorem toList_fragmentOf (t : Token) (tokens : List Token) :
    (fragmentOf (t :: tokens)).toList = t.text.toList ++ textOf tokens := by
  simp [fragmentOf, textOf, String.toList_append, String.toList_join, List.flatMap_map]

/-- A text is read as definitions whose fragments make it up, and each of them alone as its
definition. -/
theorem exists_definitions_of_parseFrom
    (h : parseFrom table source (definitionList.base elements) last offset cs = .ok tree) :
    ∃ definitions, tree = definitionList.whole (elements ++ definitions) ∧
      Fragmented (definitions.map fun d => fragmentOf d.tokens) cs ∧
      ∀ d ∈ definitions, ∃ d', Leftward Token.Like d d' ∧
        parseTree (fragmentOf d.tokens) = .ok (definitionList.whole [d']) := by
  induction hn : cs.length using Nat.strong_induction_on generalizing elements last offset cs with
  | _ n ih =>
    rcases end_or_token_of_parseFrom h with ⟨empty, finished⟩ | ⟨t, rest, next, starts, pushed⟩
    · rw [(between_base elements).finish] at finished
      refine ⟨[], ?_, .last (isGap_of_drop_layoutLength empty), by simp⟩
      rw [List.append_nil, Option.some.inj finished]
    · -- Alone, the first token has no layout before it.
      have like : t.Like { t with layout := "" } := rfl
      obtain ⟨next', pushed', alongside⟩ := repeats_definitions.push_first complete_states
        madeOf_states [] (code_ne_endMark starts.ne_endOfInput) (.leaf like) pushed
      rw [parseFrom_token starts pushed] at h
      obtain ⟨tokens, behind, d, completes⟩ := exists_definition_of_parseFrom alongside h
      obtain ⟨last', offset', continues⟩ := completes.continues
      obtain ⟨d', leftward, alone⟩ := completes.alone
      have shorter : behind.length < n := by
        have length := congrArg List.length completes.text
        have less := starts.length_lt
        rw [List.length_append] at length
        omega
      obtain ⟨definitions, rfl, fragmented, each⟩ := ih _ shorter continues rfl
      have all : d.tokens = t :: tokens := by
        have same := completes.tokens_eq
        rw [ContextFree.Table.push_tokens pushed, ContextFree.Repetition.tokens_base,
          List.append_assoc] at same
        exact (List.append_cancel_left same).symm
      refine ⟨d :: definitions, by simp, ?_, List.forall_mem_cons.mpr ⟨⟨d', leftward, ?_⟩, each⟩⟩
      · rw [starts.split, completes.text, List.map_cons, ← List.append_assoc t.text.toList, all,
          ← toList_fragmentOf]
        exact .cons starts.isGap fragmented
      · have bare := ((completes.text ▸ starts).truncate).withLayout "" .nil
        rw [(between_base elements).accepted, ← (between_base []).accepted] at bare
        rw [parseTree, all, toList_fragmentOf]
        exact (parseFrom_token bare pushed').trans (alone _ _ _)

/-- The fragments of the definitions in a text make it up, but for blanks and comments, and each of
them alone is its definition. -/
theorem fragments_of_parse {text : String} {definitions : List Node}
    (h : parse text = .ok definitions) :
    Fragmented (definitions.map Node.fragment) text.toList ∧
      ∀ d ∈ definitions, parse d.fragment = .ok [d] := by
  obtain ⟨tree, ht, -⟩ := bind_eq_ok.mp h
  have read : parseFrom table text.toList (definitionList.base []) 0 0 text.toList = .ok tree := ht
  obtain ⟨trees, rfl, fragmented, alone⟩ := exists_definitions_of_parseFrom read
  rw [List.nil_append] at ht
  rw [parse_of_whole ht] at h
  obtain rfl := Except.ok.inj h
  have formed := isDefinitionTree_of_whole (derives_of_parseTree ht)
  have fragments : (trees.map definitionOf).map Node.fragment =
      trees.map fun d => fragmentOf d.tokens := by
    rw [List.map_map]
    exact List.map_congr_left fun d hd => fragment_definitionOf (formed d hd)
  refine ⟨fragments ▸ fragmented, fun d hd => ?_⟩
  obtain ⟨tree, mem, rfl⟩ := List.mem_map.mp hd
  obtain ⟨tree', leftward, read⟩ := alone tree mem
  rw [fragment_definitionOf (formed tree mem), parse_of_whole read, List.map_singleton,
    definitionOf_leftward (formed tree mem) leftward]

/-- An enumeration and a statement. -/
theorem fragments_of_parse_kind :
    let text := "enum _Kind \x7b \"low\" , \"high\" \x7d ; _Window includes _Lens ;"
    let kind : Node :=
      { kind := .known .enumeration, name := "Kind",
        members :=
          [{ kind := .known .enumValue, value := some "low" },
           { kind := .known .enumValue, value := some "high" }] }
    let statement : Node := { kind := .known .includes, target := "Window", includes := "Lens" }
    ∃ definitions, parse text = .ok definitions ∧
      definitions.map Node.bare = [kind.bare, statement.bare] ∧
      Fragmented (definitions.map Node.fragment) text.toList ∧
      ∀ d ∈ definitions, parse d.fragment = .ok [d] := by
  intro text kind statement
  have formed : ∀ d ∈ [kind, statement], d.IsDefinition := by
    refine List.forall_mem_cons.mpr ⟨⟨?_, by simp [kind]⟩, List.forall_mem_singleton.mpr
      ⟨.includes (by decide) (by decide), by simp [statement]⟩⟩
    exact @Node.DefinitionBody.enumeration _ ["low", "high"] (by decide) (by simp) (by decide)
  obtain ⟨definitions, read, same⟩ := parse_of_spells (spells_definitions formed)
  have spelled : " ".intercalate ([kind, statement].flatMap Node.words) = text := by
    decide
  rw [spelled] at read
  have bare : definitions.map Node.bare = [kind.bare, statement.bare] := by
    rw [same]
    rfl
  exact ⟨definitions, read, bare, fragments_of_parse read⟩

end WebSpec.Idl
