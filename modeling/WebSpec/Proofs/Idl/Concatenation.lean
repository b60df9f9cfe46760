import WebSpec.Proofs.Idl.Boundary
import WebSpec.Proofs.Idl.DefinitionTree
import WebSpec.Proofs.Idl.RoundTrip

/-!
# One text after another

Where an accepted text ends on a line of its own, another text behind it is read as it is alone.

An accepted text is read in the same way whatever follows on the next line, up to the point where
its definitions are on the stack and what follows is next (`exists_boundary_of_parseFrom`). From
there on the parser stays beside the one that reads what follows alone (`outcome_of_beside`).
-/

namespace WebSpec.Idl

open ContextFree (Leftward ParseTree Stack)
open Text (Place)

variable {source source' : List Char} {shift : Nat} {stack stack' : Stack Token}
  {last offset : Nat} {cs : List Char} {tree : ParseTree Token}
  {elements others : List (ParseTree Token)}

/-! ### The first text -/

/-- An accepted text is definitions, and they are read before anything that follows on the next
line. -/
theorem exists_boundary_of_parseFrom
    (beside : definitionList.Beside Token.Like [] [] stack stack)
    (h : parseFrom table source stack last offset cs = .ok tree) :
    ∃ definitions, tree = definitionList.whole definitions ∧
      ∀ source' last offset more, ∃ last' layout,
        parseFrom table source' stack last offset (cs ++ '\n' :: more) =
          parseBehind table source' (definitionList.base definitions) last'
            (offset + cs.length + 1 + layoutLength more) layout
            (more.drop (layoutLength more)) := by
  induction hn : cs.length using Nat.strong_induction_on generalizing stack last offset cs with
  | _ n ih =>
    rcases end_or_token_of_parseFrom h with ⟨empty, finished⟩ | ⟨t, rest, next, starts, pushed⟩
    · obtain ⟨definitions, -, -, between, -⟩ :=
        repeats_definitions.finish_beside complete_states madeOf_states beside finished
      rw [between.finish] at finished
      refine ⟨definitions, (Option.some.inj finished).symm, fun source' last offset more => ?_⟩
      have layout : layoutLength (cs ++ '\n' :: more) = cs.length + 1 + layoutLength more := by
        rw [List.append_cons, layoutLength_append (isGap_of_drop_layoutLength empty)]
        simp
      have left : (cs ++ '\n' :: more).drop (cs.length + 1 + layoutLength more) =
          more.drop (layoutLength more) := by
        rw [List.append_cons, ← List.drop_drop, List.drop_left' (by simp)]
      rw [parseFrom_of_between between, parseFrom_eq, layout, left, ← hn, ← Nat.add_assoc,
        ← Nat.add_assoc]
      exact ⟨last, _, rfl⟩
    · obtain ⟨next', pushed', result⟩ := repeats_definitions.push_beside complete_states
        madeOf_states beside starts.accepts (code_ne_endMark starts.ne_endOfInput) pushed
      obtain rfl := Option.some.inj (pushed.symm.trans pushed')
      rw [parseFrom_token starts pushed] at h
      obtain ⟨definitions, same, reads⟩ := ih _ (hn ▸ starts.length_lt) result h rfl
      refine ⟨definitions, same, fun source' last offset more => ?_⟩
      have newline : '\n' ∈ delimiters := by decide
      obtain ⟨last', layout, reads⟩ := reads source' (offset + t.layout.toList.length)
        (offset + t.layout.toList.length + t.text.toList.length) more
      refine ⟨last', layout, ?_⟩
      rw [parseFrom_token (starts.append newline more) pushed, reads, ← hn, starts.split]
      simp only [List.length_append, Nat.add_assoc]

/-! ### The second text -/

/-- What becomes of the same text on top of different definitions, where it stands in texts of its
own: definitions that differ in the layout in front at most, or the same fault at the same place. -/
inductive SameOutcome (elements others : List (ParseTree Token)) (source source' : List Char)
    (shift : Nat) :
    Except SyntaxError (ParseTree Token) → Except SyntaxError (ParseTree Token) → Prop where
  | ok {more more' : List (ParseTree Token)} : List.Forall₂ (Leftward Token.Like) more more' →
    SameOutcome elements others source source' shift
      (.ok (definitionList.whole (elements ++ more))) (.ok (definitionList.whole (others ++ more')))
  | error (offset : Nat) (fault : SyntaxFault) :
    SameOutcome elements others source source' shift
      (.error (.located source offset fault)) (.error (.located source' (shift + offset) fault))

theorem rel_of_exists {α β : Type} {related : α → β → Prop} {x : Option α} {y : Option β}
    (forth : ∀ a, x = some a → ∃ b, y = some b ∧ related a b)
    (back : ∀ b, y = some b → ∃ a, x = some a) : Option.Rel related x y := by
  cases hx : x with
  | some a =>
    obtain ⟨b, hy, rel⟩ := forth a hx
    rw [hy]
    exact .some rel
  | none =>
    cases hy : y with
    | none => exact .none
    | some b =>
      obtain ⟨a, ha⟩ := back b hy
      rw [hx] at ha
      cases ha

/-- A token goes onto both stacks or onto none. -/
theorem rel_push_beside (beside : definitionList.Beside Token.Like elements others stack stack')
    {terminal : Terminal} (accepts : (table.accepted stack).has terminal.code = true)
    (ht : terminal ≠ .endOfInput) (token : Token) :
    Option.Rel (definitionList.Beside Token.Like elements others)
      (table.push stack terminal.code token) (table.push stack' terminal.code token) := by
  refine rel_of_exists (fun next pushed => ?_) fun next' pushed => ?_
  · exact repeats_definitions.push_beside complete_states madeOf_states beside accepts
      (code_ne_endMark ht) pushed
  · rw [← repeats_definitions.accepted_beside beside] at accepts
    obtain ⟨next, found, -⟩ := repeats_definitions.push_beside complete_states madeOf_states
      (beside.symm Token.Like.symm) accepts (code_ne_endMark ht) pushed
    exact ⟨next, found⟩

/-- The first token of a definition may have any layout before it. -/
theorem rel_push_first (elements others : List (ParseTree Token)) {terminal : Terminal}
    (ht : terminal ≠ .endOfInput) (layout layout' text : String) :
    Option.Rel (definitionList.Beside Token.Like elements others)
      (table.push (definitionList.base elements) terminal.code ⟨terminal, layout, text⟩)
      (table.push (definitionList.base others) terminal.code ⟨terminal, layout', text⟩) := by
  have like (layout layout' : String) :
      Leftward Token.Like (.leaf ⟨terminal, layout, text⟩) (.leaf ⟨terminal, layout', text⟩) :=
    .leaf rfl
  refine rel_of_exists (fun next pushed => ?_) fun next' pushed => ?_
  · obtain ⟨next', pushed', alongside⟩ := repeats_definitions.push_first complete_states
      madeOf_states others (code_ne_endMark ht) (like layout layout') pushed
    exact ⟨next', pushed', alongside.beside⟩
  · obtain ⟨next, found, -⟩ := repeats_definitions.push_first complete_states madeOf_states
      elements (code_ne_endMark ht) (like layout' layout) pushed
    exact ⟨next, found⟩

/-- Where a token goes onto both stacks or onto none, what becomes of the text depends on what
becomes of it behind the token. -/
theorem outcome_of_pushes {parser : ContextFree.Table} {c : Char} {rest : List Char}
    {last' start : Nat} {layout layout' : String}
    (accepted : parser.accepted stack' = parser.accepted stack)
    (pushes : ∀ terminal text, (parser.accepted stack).has terminal.code = true →
      terminal ≠ .endOfInput →
      Option.Rel (definitionList.Beside Token.Like elements others)
        (parser.push stack terminal.code ⟨terminal, layout, text⟩)
        (parser.push stack' terminal.code ⟨terminal, layout', text⟩))
    (behind : ∀ cs : List Char, cs.length ≤ rest.length → ∀ next next' last offset,
      definitionList.Beside Token.Like elements others next next' →
      SameOutcome elements others source source' shift (parseFrom parser source next last offset cs)
        (parseFrom parser source' next' (shift + last) (shift + offset) cs)) :
    SameOutcome elements others source source' shift
      (parseBehind parser source stack last start layout (c :: rest))
      (parseBehind parser source' stack' last' (shift + start) layout' (c :: rest)) := by
  simp only [parseBehind, accepted]
  cases found : nextToken? (parser.accepted stack) (c :: rest) with
  | none =>
    cases nextToken? allTerminals (c :: rest) <;> exact .error start _
  | some token =>
    obtain ⟨terminal, length⟩ := token
    have rel := pushes terminal (String.ofList ((c :: rest).take length))
      (nextToken?_spec found).1 (nextToken?_ne_endOfInput found)
    simp only
    generalize parser.push stack terminal.code _ = first at rel ⊢
    generalize parser.push stack' terminal.code _ = second at rel ⊢
    cases rel with
    | none => exact .error start _
    | some beside =>
      simp only [Nat.add_assoc]
      exact behind _ (by simp) _ _ _ _ beside

/-- A text is read beside the same text on top of other definitions. -/
theorem outcome_of_beside (beside : definitionList.Beside Token.Like elements others stack stack') :
    SameOutcome elements others source source' shift (parseFrom table source stack last offset cs)
      (parseFrom table source' stack' (shift + last) (shift + offset) cs) := by
  induction hn : cs.length using Nat.strong_induction_on generalizing stack stack' last offset cs
    with
  | _ n ih =>
    rw [parseFrom_eq, parseFrom_eq _ _ _ _ (shift + offset)]
    cases left : cs.drop (layoutLength cs) with
    | nil =>
      rw [parseBehind, parseBehind]
      cases finished : table.finish stack with
      | some tree =>
        obtain ⟨more, more', same, between, between'⟩ :=
          repeats_definitions.finish_beside complete_states madeOf_states beside finished
        rw [← finished, between.finish, between'.finish]
        exact .ok same
      | none =>
        cases finished' : table.finish stack' with
        | none => exact .error last _
        | some tree =>
          obtain ⟨more', more, -, -, between⟩ := repeats_definitions.finish_beside complete_states
            madeOf_states (beside.symm Token.Like.symm) finished'
          rw [between.finish] at finished
          cases finished
    | cons c rest =>
      have shorter : rest.length < n := by
        have length := congrArg List.length left
        rw [List.length_drop, List.length_cons] at length
        omega
      rw [Nat.add_assoc]
      exact outcome_of_pushes (repeats_definitions.accepted_beside beside)
        (fun _ _ accepts ht => rel_push_beside beside accepts ht _)
        fun cs hc next next' last offset result => ih _ (Nat.lt_of_le_of_lt hc shorter) result rfl

/-- Behind definitions a text is read as it is alone. -/
theorem outcome_of_parseBehind (definitions : List (ParseTree Token)) (last : Nat)
    (layout : String) :
    SameOutcome [] definitions cs source' shift (parseFrom table cs [] 0 0 cs)
      (parseBehind table source' (definitionList.base definitions) last
        (shift + layoutLength cs) layout (cs.drop (layoutLength cs))) := by
  rw [parseFrom_eq, Nat.zero_add]
  cases cs.drop (layoutLength cs) with
  | nil =>
    rw [parseBehind, parseBehind, (between_base definitions).finish,
      show table.finish ([] : Stack Token) = some (definitionList.whole []) from
        (between_base []).finish]
    have none : List.Forall₂ (Leftward Token.Like) [] [] := .nil
    have outcome : SameOutcome [] definitions cs source' shift
        (.ok (definitionList.whole ([] ++ []))) (.ok (definitionList.whole (definitions ++ []))) :=
      .ok none
    simpa using outcome
  | cons c rest =>
    have accepted : table.accepted (definitionList.base definitions) =
        table.accepted ([] : Stack Token) := by
      rw [(between_base definitions).accepted]
      exact (between_base []).accepted.symm
    exact outcome_of_pushes accepted
      (fun _ text _ ht => rel_push_first [] definitions ht _ _ text)
      fun _ _ _ _ _ _ result => outcome_of_beside result

/-! ### Places -/

/-- The place behind some lines and a text has the column of the place behind the text. -/
theorem after_append_newline (before cs : List Char) :
    Place.after (before ++ '\n' :: cs) =
      ⟨(Place.after cs).line + 1 + before.count '\n', (Place.after cs).column⟩ := by
  have last : Text.afterLastNewline (before ++ '\n' :: cs) = Text.afterLastNewline cs := by
    rw [Text.afterLastNewline, List.reverse_append, List.reverse_cons, List.append_assoc,
      List.singleton_append, takeWhile_separator (by decide), Text.afterLastNewline]
  simp only [Place.after, last, List.count_append, List.count_cons_self, Place.mk.injEq, and_true]
  omega

theorem place_located_append (before cs : List Char) (offset : Nat) (fault : SyntaxFault) :
    (SyntaxError.located (before ++ '\n' :: cs) (before.length + 1 + offset) fault).place =
      ⟨(SyntaxError.located cs offset fault).place.line + 1 + before.count '\n',
        (SyntaxError.located cs offset fault).place.column⟩ := by
  have taken : (before ++ '\n' :: cs).take (before.length + 1 + offset) =
      before ++ '\n' :: cs.take offset := by
    rw [Nat.add_assoc, List.take_length_add_append, Nat.add_comm 1, List.take_succ_cons]
  rw [SyntaxError.located, taken, after_append_newline]
  rfl

/-! ### Texts -/

theorem parse_of_error {text : String} {e : SyntaxError} (h : parseTree text = .error e) :
    parse text = .error e := by
  simp [parse, h, bind, Except.bind]

/-- Where an accepted text ends on a line of its own, a text that follows is accepted just if it is
accepted alone. Its definitions follow, or it is refused for the same fault at the same column, as
many lines further as the first text takes. -/
theorem parse_append {a b : String} {definitions : List Node} (h : parse a = .ok definitions) :
    (parse (a ++ "\n" ++ b)).isOk = (parse b).isOk ∧
      (∀ more, parse b = .ok more → parse (a ++ "\n" ++ b) = .ok (definitions ++ more)) ∧
      ∀ e, parse b = .error e → ∃ e', parse (a ++ "\n" ++ b) = .error e' ∧ e'.fault = e.fault ∧
        e'.place.line = e.place.line + 1 + a.toList.count '\n' ∧
        e'.place.column = e.place.column := by
  obtain ⟨tree, ha, -⟩ := bind_eq_ok.mp h
  have start : definitionList.Beside Token.Like [] [] [] [] :=
    ContextFree.Repetition.beside_base [] []
  obtain ⟨trees, rfl, reads⟩ := exists_boundary_of_parseFrom start ha
  rw [parse_of_whole ha] at h
  obtain rfl := Except.ok.inj h
  have text : (a ++ "\n" ++ b).toList = a.toList ++ '\n' :: b.toList := by simp
  obtain ⟨last, layout, reads⟩ := reads (a ++ "\n" ++ b).toList 0 0 b.toList
  rw [Nat.zero_add, ← text] at reads
  have outcome : SameOutcome [] trees b.toList (a ++ "\n" ++ b).toList (a.toList.length + 1)
      (parseTree b) (parseTree (a ++ "\n" ++ b)) := by
    rw [parseTree, parseTree, reads]
    exact outcome_of_parseBehind trees last layout
  generalize hb : parseTree b = first at outcome
  generalize hab : parseTree (a ++ "\n" ++ b) = second at outcome
  cases outcome with
  | @ok more more' same =>
    rw [List.nil_append] at hb
    have alone := isDefinitionTree_of_whole (derives_of_parseTree hb)
    have all : parse (a ++ "\n" ++ b) =
        .ok (trees.map definitionOf ++ more.map definitionOf) := by
      rw [parse_of_whole hab, List.map_append, map_definitionOf_leftward alone same]
    rw [parse_of_whole hb, all]
    refine ⟨rfl, fun rest hr => ?_, fun e he => by cases he⟩
    rw [Except.ok.inj hr]
  | error offset fault =>
    rw [parse_of_error hb, parse_of_error hab]
    refine ⟨rfl, fun more hr => (by cases hr), fun e he => ⟨_, rfl, ?_⟩⟩
    rw [← Except.error.inj he, text, place_located_append]
    exact ⟨rfl, rfl, rfl⟩

/-- An enumeration behind a comment, and then a statement or a text that is refused. -/
theorem parse_append_kind :
    let kinds := "// kinds" ++ "\n" ++ "enum _Kind \x7b \"low\" , \"high\" \x7d ;"
    let kind : Node :=
      { kind := .known .enumeration, name := "Kind",
        members :=
          [{ kind := .known .enumValue, value := some "low" },
           { kind := .known .enumValue, value := some "high" }] }
    let statement : Node := { kind := .known .includes, target := "Window", includes := "Lens" }
    (∃ definitions more, definitions.map Node.bare = [kind.bare] ∧
      more.map Node.bare = [statement.bare] ∧ parse kinds = .ok definitions ∧
      parse "_Window includes _Lens ;" = .ok more ∧
      parse (kinds ++ "\n" ++ "_Window includes _Lens ;") = .ok (definitions ++ more)) ∧
    ∃ e, parse (kinds ++ "\n" ++ "\n  /") = .error e ∧ e.fault = .unexpectedCharacter '/' ∧
      e.place = ⟨4, 3⟩ := by
  intro kinds kind statement
  have comment : parse "// kinds" = .ok [] := by
    have all : "// kinds".toList.drop (layoutLength "// kinds".toList) = [] := by decide +kernel
    have read : parseTree "// kinds" = .ok (definitionList.whole []) := by
      rw [parseTree, parseFrom_eq, all, parseBehind,
        show table.finish ([] : Stack Token) = some (definitionList.whole []) from
          (between_base []).finish]
    exact parse_of_whole read
  have refused : parse "\n  /" = .error (.located "\n  /".toList 3 (.unexpectedCharacter '/')) := by
    have layout : layoutLength "\n  /".toList = 3 := by decide +kernel
    have slash : '/' ∈ delimiters := by decide
    refine parse_of_error ?_
    rw [parseTree, parseFrom_eq, layout, show "\n  /".toList.drop 3 = ['/'] from rfl, parseBehind,
      nextToken?_delimiter slash, nextToken?_delimiter slash]
  have kindFormed : ∀ d ∈ [kind], d.IsDefinition := by
    refine List.forall_mem_singleton.mpr ⟨?_, by simp [kind]⟩
    exact @Node.DefinitionBody.enumeration _ ["low", "high"] (by decide) (by simp) (by decide)
  have statementFormed : ∀ d ∈ [statement], d.IsDefinition :=
    List.forall_mem_singleton.mpr ⟨.includes (by decide) (by decide), by simp [statement]⟩
  obtain ⟨definitions, read, same⟩ := parse_of_spells (spells_definitions kindFormed)
  obtain ⟨more, readMore, sameMore⟩ := parse_of_spells (spells_definitions statementFormed)
  rw [show " ".intercalate ([kind].flatMap Node.words) =
    "enum _Kind \x7b \"low\" , \"high\" \x7d ;" by decide +kernel] at read
  rw [show " ".intercalate ([statement].flatMap Node.words) = "_Window includes _Lens ;" by
    decide +kernel] at readMore
  have whole : parse kinds = .ok definitions := (parse_append comment).2.1 _ read
  refine ⟨⟨definitions, more, same, sameMore, whole, readMore,
    (parse_append whole).2.1 _ readMore⟩, ?_⟩
  obtain ⟨e, found, fault, line, column⟩ := (parse_append whole).2.2 _ refused
  refine ⟨e, found, fault, ?_⟩
  have place : e.place = ⟨e.place.line, e.place.column⟩ := rfl
  rw [place, line, column]
  decide +kernel

end WebSpec.Idl
