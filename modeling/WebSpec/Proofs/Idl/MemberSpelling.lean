import WebSpec.Proofs.Idl.Spelling

/-!
# Spellings of members

The words of a member of an interface and of a field of a dictionary are a phrase of the grammar
that means it (`Node.IsMember.spells`, `Node.IsField.spells`). Operations and attributes are spelled
once for all of their special forms, which only put a word in front.
-/

namespace WebSpec.Idl

open ContextFree (Pattern)

variable {name : String} {type : TypeExpr} {list : List Argument}

/-! ### Members without extended attributes -/

theorem spells_constMember {value : String} (hn : isName name.toList) (ht : type.WellFormed)
    (plain : type.attributes = []) (hv : IsConstValue value) :
    Spells [rule .const] ("const" :: (type.words ++ escape name :: "=" :: [value, ";"]))
      [.node { kind := .known .const, name, type := some type, value := some value }] := by
  have alternative : ⟨.const, .const,
      [token .kwConst, rule .type, token .identifier, token .equals, rule .constValue,
       token .semicolon]⟩ ∈ alternatives := by decide
  refine .combine alternative (.literal rfl ((ht.spelled.2 plain).cons (.name hn (.literal rfl
    ((spells_const hv).cons (.literal rfl spells_nil)))))) ?_
  simp [Construct.combine, Pieces.name?, Pieces.names, Pieces.tokensOf, Pieces.tokens, Pieces.types,
    Pieces.literal?]

theorem spells_attributeMember (isReadonly : Bool) (hn : isName name.toList)
    (ht : type.WellFormed) :
    Spells [rule .attributeMember]
      (flag isReadonly "readonly" ++ "attribute" :: (type.words ++ [escape name, ";"]))
      [.node { kind := .known .attributeMember, name, type := some type, isReadonly }] := by
  have alternative : ⟨.attributeMember, .attributeMember,
      [maybe [token .kwInherit], maybe [token .kwReadonly], token .kwAttribute,
       rule .annotatedType, token .identifier, token .semicolon]⟩ ∈ alternatives := by decide
  refine .combine alternative (.leftOut (.flag isReadonly rfl (.literal rfl
    (ht.spelled.1.cons (.name hn (.literal rfl spells_nil)))))) ?_
  cases isReadonly <;> simp [Construct.combine, flagPieces, Pieces.name?, Pieces.names,
    Pieces.tokensOf, Pieces.tokens, Pieces.types, Pieces.has]

theorem spells_operation (hn : name = "" ∨ isName name.toList) (ht : type.WellFormed)
    (plain : type.attributes = []) (ha : ∀ argument ∈ list, argument.WellFormed) :
    Spells [rule .operation]
      (type.words ++ (flag (name != "") (escape name) ++
        (argumentWords (list.map Argument.words) ++ [";"])))
      [.node { kind := .known .operation, name, type := some type, arguments := list }] := by
  have alternative : ⟨.operation, .operation,
      rule .type :: maybe [token .identifier] :: (arguments ++ [token .semicolon])⟩ ∈
      alternatives := by decide
  have called : Spells (arguments ++ [token .semicolon]) _ _ :=
    .arguments (fun argument h => (ha argument h).spells) (.literal rfl spells_nil)
  by_cases empty : name = ""
  · subst empty
    refine .combine alternative ((ht.spelled.2 plain).cons (.leftOut called)) ?_
    cases list <;> simp [Construct.combine, argumentPieces, Pieces.name?, Pieces.names,
      Pieces.tokensOf, Pieces.tokens, Pieces.types, Pieces.arguments]
  · have words : flag (name != "") (escape name) = [escape name] := by simp [flag, empty]
    rw [words]
    refine .combine alternative ((ht.spelled.2 plain).cons
      (.written (.name (hn.resolve_left empty) spells_nil) called)) ?_
    cases list <;> simp [Construct.combine, argumentPieces, Pieces.name?, Pieces.names,
      Pieces.tokensOf, Pieces.tokens, Pieces.types, Pieces.arguments]

theorem spells_constructorMember (ha : ∀ argument ∈ list, argument.WellFormed) :
    Spells [rule .constructorMember]
      ("constructor" :: (argumentWords (list.map Argument.words) ++ [";"]))
      [.node { kind := .known .constructorMember, arguments := list }] := by
  have alternative : ⟨.constructorMember, .constructorMember,
      token .kwConstructor :: (arguments ++ [token .semicolon])⟩ ∈ alternatives := by decide
  refine .combine alternative (.literal rfl (.arguments (fun argument h => (ha argument h).spells)
    (.literal rfl spells_nil))) ?_
  cases list <;> rfl

/-! ### Members that hold values -/

/-- The pieces of the types between `<` and `>`. -/
def elementPieces (types : List TypeExpr) : Pieces :=
  literalPiece .lessThan "<" ::
    (separatedPieces (literalPiece .comma ",") (types.map .type) ++ [literalPiece .moreThan ">"])

/-- One type or two. -/
theorem SpellsAt.elements {types : List TypeExpr} {rest : List Pattern} {more : List String}
    {qs : Pieces} (filled : types ≠ []) (most : types.length ≤ 2)
    (ht : ∀ type ∈ types, type.WellFormed) (hr : Spells rest more qs) :
    Spells (token .lessThan :: rule .annotatedType :: maybe [token .comma, rule .annotatedType] ::
        token .moreThan :: rest)
      (elementWords types ++ more) (elementPieces types ++ qs) := by
  match types, filled, most with
  | [first], _, _ =>
    have hf := (ht first (by simp)).spelled.1
    have whole : Spells (token .lessThan :: rule .annotatedType ::
        maybe [token .comma, rule .annotatedType] :: token .moreThan :: rest) _ _ :=
      .literal rfl (hf.cons (.leftOut (.literal rfl hr)))
    simpa [elementWords, elementPieces, separated, separatedPieces] using whole
  | [first, second], _, _ =>
    have hf := (ht first (by simp)).spelled.1
    have hs := (ht second (by simp)).spelled.1
    have whole : Spells (token .lessThan :: rule .annotatedType ::
        maybe [token .comma, rule .annotatedType] :: token .moreThan :: rest) _ _ :=
      .literal rfl (hf.cons (.written (.literal rfl hs) (.literal rfl hr)))
    simpa [elementWords, elementPieces, separated, separatedPieces] using whole

section Collections

variable {types : List TypeExpr}

theorem spells_iterable (filled : types ≠ []) (most : types.length ≤ 2)
    (ht : ∀ type ∈ types, type.WellFormed) :
    Spells [rule .iterable] ("iterable" :: (elementWords types ++ [";"]))
      [.node { kind := .known .iterable, typeArguments := types }] := by
  have alternative : ⟨.iterable, .iterable,
      [token .kwIterable, token .lessThan, rule .annotatedType,
       maybe [token .comma, rule .annotatedType], token .moreThan, token .semicolon]⟩ ∈
      alternatives := by decide
  refine .combine alternative (.literal rfl (.elements filled most ht (.literal rfl spells_nil))) ?_
  match types, filled, most with
  | [_], _, _ | [_, _], _, _ => rfl

theorem spells_asyncIterable (filled : types ≠ []) (most : types.length ≤ 2)
    (ht : ∀ type ∈ types, type.WellFormed) (ha : ∀ argument ∈ list, argument.WellFormed) :
    Spells [rule .asyncIterable]
      ("async" :: "iterable" :: (elementWords types ++
        ((if list.isEmpty then [] else argumentWords (list.map Argument.words)) ++ [";"])))
      [.node { kind := .known .asyncIterable, typeArguments := types, arguments := list }] := by
  have alternative : ⟨.asyncIterable, .asyncIterable,
      [token .kwAsync, token .kwIterable, token .lessThan, rule .annotatedType,
       maybe [token .comma, rule .annotatedType], token .moreThan, maybe arguments,
       token .semicolon]⟩ ∈ alternatives := by decide
  cases list with
  | nil =>
    refine .combine alternative (.literal rfl (.literal rfl (.elements filled most ht
      (.leftOut (.literal rfl spells_nil))))) ?_
    match types, filled, most with
    | [_], _, _ | [_, _], _, _ => rfl
  | cons argument others =>
    have called := SpellsAt.arguments (fun argument h => (ha argument h).spells) spells_nil
    simp only [List.append_nil] at called
    refine .combine alternative (.literal rfl (.literal rfl (.elements filled most ht
      (.written called (.literal rfl spells_nil))))) ?_
    match types, filled, most with
    | [_], _, _ | [_, _], _, _ => rfl

theorem spells_maplike {key value : TypeExpr} (isReadonly : Bool) (hk : key.WellFormed)
    (hv : value.WellFormed) :
    Spells [rule .maplike]
      (flag isReadonly "readonly" ++ "maplike" :: (elementWords [key, value] ++ [";"]))
      [.node { kind := .known .maplike, typeArguments := [key, value], isReadonly }] := by
  have alternative : ⟨.maplike, .maplike,
      [maybe [token .kwReadonly], token .kwMaplike, token .lessThan, rule .annotatedType,
       token .comma, rule .annotatedType, token .moreThan, token .semicolon]⟩ ∈ alternatives := by
    decide
  have words : elementWords [key, value] ++ [";"] =
      "<" :: (key.words ++ "," :: (value.words ++ [">", ";"])) := by
    simp [elementWords, separated]
  rw [words]
  refine .combine alternative (.flag isReadonly rfl (.literal rfl (.literal rfl
    (hk.spelled.1.cons (.literal rfl (hv.spelled.1.cons (.literal rfl (.literal rfl
      spells_nil)))))))) ?_
  cases isReadonly <;> rfl

theorem spells_setlike {element : TypeExpr} (isReadonly : Bool) (he : element.WellFormed) :
    Spells [rule .setlike]
      (flag isReadonly "readonly" ++ "setlike" :: (elementWords [element] ++ [";"]))
      [.node { kind := .known .setlike, typeArguments := [element], isReadonly }] := by
  have alternative : ⟨.setlike, .setlike,
      [maybe [token .kwReadonly], token .kwSetlike, token .lessThan, rule .annotatedType,
       token .moreThan, token .semicolon]⟩ ∈ alternatives := by decide
  have words : elementWords [element] ++ [";"] = "<" :: (element.words ++ [">", ";"]) := by
    simp [elementWords, separated]
  rw [words]
  refine .combine alternative (.flag isReadonly rfl (.literal rfl (.literal rfl
    (he.spelled.1.cons (.literal rfl (.literal rfl spells_nil)))))) ?_
  cases isReadonly <;> rfl

end Collections

/-! ### Members -/

/-- A member is special by a word in front of it. -/
theorem spells_special (r : Rule) (construct : Construct) (t : Terminal) {part : Rule}
    {word : String} {words : List String} {node : Node}
    (hr : ⟨.memberBody, .part, [rule r]⟩ ∈ alternatives)
    (ha : ⟨r, construct, [token t, rule part]⟩ ∈ alternatives) (hl : t.literal? = some word)
    (h : Spells [rule part] words [.node node])
    (combined : construct.combine [literalPiece t word, .node node] =
      some (.node { node with special := word })) :
    Spells [rule .memberBody] (word :: words) [.node { node with special := word }] :=
  .group hr (.combine ha (.literal hl h) combined)

/-- A member without its extended attributes. -/
theorem Node.MemberBody.spells {node : Node} (h : node.MemberBody) :
    Spells [rule .memberBody] node.memberBodyWords [.node node] := by
  have choice (r : Rule) (hr : ⟨.memberBody, .part, [rule r]⟩ ∈ alternatives)
      (h : Spells [rule r] node.memberBodyWords [.node node]) :
      Spells [rule .memberBody] node.memberBodyWords [.node node] := .group hr h
  cases h with
  | const hn ht plain hv => exact choice .const (by decide) (spells_constMember hn ht plain hv)
  | @attributeMember _ _ _ isReadonly hn ht hs =>
    have member := spells_attributeMember isReadonly hn ht
    simp only [List.mem_cons, List.not_mem_nil, or_false] at hs
    rcases hs with rfl | rfl | rfl
    · exact choice .attributeMember (by decide) member
    · exact spells_special .staticMember .staticMember .kwStatic (by decide) (by decide) rfl member
        rfl
    · exact spells_special .stringifier .stringifier .kwStringifier (by decide) (by decide) rfl
        member rfl
  | operation hn ht plain ha hs =>
    have member := spells_operation hn ht plain ha
    simp only [List.mem_cons, List.not_mem_nil, or_false] at hs
    rcases hs with rfl | rfl | rfl | rfl | rfl | rfl
    · exact choice .operation (by decide) member
    · exact spells_special .specialOperation .specialOperation .kwGetter (by decide) (by decide)
        rfl member rfl
    · exact spells_special .specialOperation .specialOperation .kwSetter (by decide) (by decide)
        rfl member rfl
    · exact spells_special .specialOperation .specialOperation .kwDeleter (by decide) (by decide)
        rfl member rfl
    · exact spells_special .staticMember .staticMember .kwStatic (by decide) (by decide) rfl member
        rfl
    · exact spells_special .stringifier .stringifier .kwStringifier (by decide) (by decide) rfl
        member rfl
  | stringifier =>
    have alternative : ⟨.stringifier, .stringifier, [token .kwStringifier, token .semicolon]⟩ ∈
        alternatives := by decide
    exact choice .stringifier (by decide)
      (.combine alternative (.literal rfl (.literal rfl spells_nil)) rfl)
  | constructorMember ha =>
    exact choice .constructorMember (by decide) (spells_constructorMember ha)
  | iterable filled most ht => exact choice .iterable (by decide) (spells_iterable filled most ht)
  | asyncIterable filled most ht ha =>
    exact choice .asyncIterable (by decide) (spells_asyncIterable filled most ht ha)
  | maplike hk hv => exact choice .maplike (by decide) (spells_maplike _ hk hv)
  | setlike he => exact choice .setlike (by decide) (spells_setlike _ he)

/-- A member of an interface. -/
theorem Node.IsMember.spells {node : Node} (h : node.IsMember) :
    Spells [rule .interfaceMember] node.memberWords [.node node] := by
  have alternative : ⟨.interfaceMember, .interfaceMember,
      [maybe [rule .attributeList], rule .memberBody]⟩ ∈ alternatives := by decide
  have words : memberBodyWords { node with attributes := [] } = node.memberBodyWords := by
    cases node
    rfl
  have body := h.1.spells
  rw [words] at body
  refine .combine alternative (.attributes (fun attr ha => (h.2 attr ha).spells) body) ?_
  obtain ⟨_, _, _, _, _, attributes, _⟩ := node
  cases attributes <;> rfl

/-- A field of a dictionary. -/
theorem Node.IsField.spells {node : Node} (h : node.IsField) :
    Spells [rule .dictionaryMember] node.fieldWords [.node node] := by
  cases h with
  | @required _ _ attributes hn ht ha =>
    have alternative : ⟨.dictionaryMember, .dictionaryMember,
        [maybe [rule .attributeList], token .kwRequired, rule .annotatedType, token .identifier,
         token .semicolon]⟩ ∈ alternatives := by decide
    refine .combine alternative (.attributes (fun attr h => (ha attr h).spells) (.literal rfl
      (ht.spelled.1.cons (.name hn (.literal rfl spells_nil))))) ?_
    cases attributes <;> simp [Construct.combine, attributePieces, Pieces.name?, Pieces.names,
      Pieces.tokensOf, Pieces.tokens, Pieces.types, Pieces.has, Pieces.literal?,
      Pieces.extAttributes]
  | @optional _ _ default attributes hn ht plain hd ha =>
    have alternative : ⟨.dictionaryMember, .dictionaryMember,
        [maybe [rule .attributeList], rule .type, token .identifier, maybe [rule .default],
         token .semicolon]⟩ ∈ alternatives := by decide
    refine .combine alternative (.attributes (fun attr h => (ha attr h).spells)
      ((ht.spelled.2 plain).cons (.name hn (.default hd (.literal rfl spells_nil))))) ?_
    cases attributes <;> cases default <;> simp [Construct.combine, attributePieces, defaultPieces,
      Pieces.name?, Pieces.names, Pieces.tokensOf, Pieces.tokens, Pieces.types, Pieces.has,
      Pieces.literal?, Pieces.extAttributes]

end WebSpec.Idl
