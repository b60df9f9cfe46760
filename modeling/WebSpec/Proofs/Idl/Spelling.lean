import WebSpec.Proofs.Idl.Phrase

/-!
# Spellings of types, arguments and extended attributes

The words of a type, an argument or an extended attribute are a phrase of the grammar that means it.
The three refer to each other, so this is one induction on what makes them well-formed
(`TypeExpr.WellFormed.spells`, `ExtAttribute.WellFormed.spells`, `Argument.WellFormed.spells`), with
a lemma for each alternative of the grammar.
-/

namespace WebSpec.Idl

open ContextFree (Pattern)

/-! ### Names -/

@[simp] theorem Token.name_escape (name : String) :
    Token.name ⟨.identifier, "", escape name⟩ = name := by
  simp [Token.name, escape]

@[simp] theorem Token.content_quoted (content : String) :
    Token.content ⟨.string, "", quoted content⟩ = content := by
  simp [Token.content, quoted]

/-- The tokens of one terminal between separators of another one. -/
theorem Pieces.tokensOf_separatedPieces {α : Type} {terminal : Terminal} {separator : Token}
    (hs : separator.terminal ≠ terminal) {make : α → Token}
    (hm : ∀ x, (make x).terminal = terminal) (xs : List α) :
    tokensOf (separatedPieces (.token separator) (xs.map fun x => .token (make x))) terminal =
      xs.map make := by
  cases xs with
  | nil => rfl
  | cons first rest =>
    have behind : tokensOf ((rest.map fun x => Piece.token (make x)).flatMap
        fun piece => [.token separator, piece]) terminal = rest.map make := by
      induction rest with
      | nil => rfl
      | cons x rest ih =>
        simp only [tokensOf, tokens] at ih ⊢
        simp [hs, hm, ih]
    simp only [tokensOf, tokens] at behind ⊢
    simp [separatedPieces, hm, behind]

section Lists

variable {rest : List Pattern} {more : List String} {qs : Pieces}

/-! ### Lists of extended attributes and of arguments -/

/-- The pieces of extended attributes in front of something. -/
def attributePieces : List ExtAttribute → Pieces
  | [] => []
  | attr :: others => [.extAttributes (attr :: others)]

theorem SpellsAt.attributes {attributes : List ExtAttribute}
    (ha : ∀ attr ∈ attributes, Spells [rule .extendedAttribute] attr.words [.extAttribute attr])
    (hr : Spells rest more qs) :
    Spells (maybe [rule .attributeList] :: rest)
      (attributeWords (attributes.map ExtAttribute.words) ++ more)
      (attributePieces attributes ++ qs) := by
  cases attributes with
  | nil => exact .leftOut hr
  | cons attr others =>
    have alternative : ⟨.attributeList, .attributeList,
        [token .bracketOpen, rule .extendedAttribute, maybe [rule .moreAttributes],
         maybe [token .comma], token .bracketClose]⟩ ∈ alternatives := by decide
    refine .written (.combine alternative (.literal rfl (.listed .comma (by decide) rfl
      (List.cons_ne_nil attr others) ha (.leftOut (.literal rfl spells_nil)))) ?_) hr
    simp [Construct.combine, filterMap_separatedPieces]

/-- The pieces of arguments between their parentheses. -/
def argumentPieces : List Argument → Pieces
  | [] => [literalPiece .parenOpen "(", literalPiece .parenClose ")"]
  | argument :: others =>
    [literalPiece .parenOpen "(", .arguments (argument :: others), literalPiece .parenClose ")"]

theorem SpellsAt.arguments {list : List Argument}
    (ha : ∀ argument ∈ list, Spells [rule .argument] argument.words [.argument argument])
    (hr : Spells rest more qs) :
    Spells (arguments ++ rest) (argumentWords (list.map Argument.words) ++ more)
      (argumentPieces list ++ qs) := by
  cases list with
  | nil => exact .literal rfl (.leftOut (.literal rfl hr))
  | cons argument others =>
    have alternative : ⟨.argumentList, .argumentList,
        [rule .argument, maybe [rule .moreArguments]]⟩ ∈ alternatives := by decide
    have inside : Spells [rule .argument, maybe [rule .moreArguments]] _ _ :=
      .listed .comma (by decide) rfl (List.cons_ne_nil argument others) ha spells_nil
    rw [List.append_nil] at inside
    have between : Spells [rule .argumentList] _ [.arguments (argument :: others)] :=
      .combine alternative inside
        (by simp [Construct.combine, filterMap_separatedPieces])
    have whole :
        Spells (token .parenOpen :: maybe [rule .argumentList] :: token .parenClose :: rest) _ _ :=
      .literal rfl (.written between (.literal rfl hr))
    rw [argumentWords, List.cons_append, List.append_assoc]
    exact whole

end Lists

/-! ### Values -/

theorem spells_const {text : String} (h : IsConstValue text) :
    Spells [rule .constValue] [text] [.literal text] := by
  have word (t : Terminal) (hl : t.literal? = some text)
      (ha : ⟨.constValue, .constValue, [token t]⟩ ∈ alternatives) :
      Spells [rule .constValue] [text] [.literal text] :=
    .combine ha (.literal hl spells_nil) rfl
  rcases h with known | integer | decimal
  · simp only [List.mem_cons, List.not_mem_nil, or_false] at known
    rcases known with rfl | rfl | rfl | rfl | rfl
    · exact word .kwTrue rfl (by decide)
    · exact word .kwFalse rfl (by decide)
    · exact word .kwNegativeInfinity rfl (by decide)
    · exact word .kwInfinity rfl (by decide)
    · exact word .kwNaN rfl (by decide)
  · have alternative : ⟨.constValue, .constValue, [token .integer]⟩ ∈ alternatives := by decide
    exact .combine alternative (.integer integer spells_nil) rfl
  · have alternative : ⟨.constValue, .constValue, [token .decimal]⟩ ∈ alternatives := by decide
    exact .combine alternative (.decimal decimal spells_nil) rfl

/-- The words behind the sign of a default. -/
theorem spells_defaultValue {text : String} (h : IsDefaultValue text) :
    Spells [rule .defaultValue] (defaultWords (some text)).tail [.literal text] := by
  have word (t : Terminal) (hl : t.literal? = some text)
      (ha : ⟨.defaultValue, .defaultValue, [token t]⟩ ∈ alternatives) :
      Spells [rule .defaultValue] [text] [.literal text] :=
    .combine ha (.literal hl spells_nil)
      (by simp [Construct.combine, Pieces.literal?, Pieces.tokens])
  have pair (first second : Terminal) {opening closing : String}
      (hf : first.literal? = some opening) (hs : second.literal? = some closing)
      (ha : ⟨.defaultValue, .defaultValue, [token first, token second]⟩ ∈ alternatives) :
      Spells [rule .defaultValue] [opening, closing] [.literal (opening ++ closing)] :=
    .combine ha (.literal hf (.literal hs spells_nil))
      (by simp [Construct.combine, Pieces.literal?, Pieces.tokens])
  simp only [defaultWords, List.tail_cons]
  split_ifs with brackets braces
  · subst brackets
    exact pair .bracketOpen .bracketClose rfl rfl (by decide)
  · subst braces
    exact pair .braceOpen .braceClose rfl rfl (by decide)
  cases h with
  | const h =>
    have alternative : ⟨.defaultValue, .defaultValue, [rule .constValue]⟩ ∈ alternatives := by
      decide
    exact .combine alternative (spells_const h) rfl
  | quoted unquoted =>
    have alternative : ⟨.defaultValue, .defaultValue, [token .string]⟩ ∈ alternatives := by decide
    refine .combine alternative (.quoted unquoted spells_nil) ?_
    simp [Construct.combine, Pieces.literal?, Pieces.tokens]
  | word h =>
    simp only [List.mem_cons, List.not_mem_nil, or_false, brackets, braces] at h
    rcases h with rfl | rfl
    · exact word .kwNull rfl (by decide)
    · exact word .kwUndefined rfl (by decide)

/-- The pieces of a value that something has by default. -/
def defaultPieces : Option String → Pieces
  | none => []
  | some text => [literalPiece .equals "=", .literal text]

theorem SpellsAt.default {default : Option String} {rest : List Pattern} {more : List String}
    {qs : Pieces} (h : ∀ text ∈ default, IsDefaultValue text) (hr : Spells rest more qs) :
    Spells (maybe [rule .default] :: rest) (defaultWords default ++ more)
      (defaultPieces default ++ qs) := by
  cases default with
  | none => exact .leftOut hr
  | some text =>
    have alternative : ⟨.default, .part, [token .equals, rule .defaultValue]⟩ ∈ alternatives := by
      decide
    exact .written (.group alternative (.literal rfl (spells_defaultValue (h text rfl)))) hr

theorem AttributeValue.WellFormed.spells {v : AttributeValue} (h : v.WellFormed) :
    Spells [rule .attributeValue] v.words [.attributeValue v] := by
  cases h with
  | identifier hn =>
    have alternative : ⟨.attributeValue, .identifierValue, [token .identifier]⟩ ∈ alternatives := by
      decide
    refine .combine alternative (.name hn spells_nil) ?_
    simp [Construct.combine, Pieces.name?, Pieces.names, Pieces.tokensOf, Pieces.tokens,
      Pieces.textValue]
  | @identifierList names filled hn =>
    have alternative : ⟨.attributeValue, .identifierListValue,
        [token .parenOpen, token .identifier, maybe [rule .moreNames], token .parenClose]⟩ ∈
        alternatives := by decide
    refine .combine alternative (.literal rfl (.listed .comma (by decide) rfl filled
      (fun name h => .name (hn name h) spells_nil) (.literal rfl spells_nil))) ?_
    have spelled : Pieces.tokensOf (separatedPieces (literalPiece .comma ",")
        (names.map namePiece)) .identifier =
          names.map fun name => ⟨.identifier, "", escape name⟩ := by
      refine Pieces.tokensOf_separatedPieces ?_ ?_ names
      · decide
      · exact fun _ => rfl
    simp only [Pieces.tokensOf, Pieces.tokens] at spelled
    simp [Construct.combine, Pieces.names, Pieces.tokensOf, Pieces.tokens, spelled,
      Function.comp_def]
  | wildcard =>
    have alternative : ⟨.attributeValue, .wildcardValue, [token .star]⟩ ∈ alternatives := by decide
    exact .combine alternative (.literal rfl spells_nil) rfl
  | string unquoted =>
    have alternative : ⟨.attributeValue, .stringValue, [token .string]⟩ ∈ alternatives := by decide
    refine .combine alternative (.quoted unquoted spells_nil) ?_
    simp [Construct.combine, Pieces.tokens, Pieces.textValue]
  | @number number hn =>
    rcases hn with integer | decimal
    · have alternative : ⟨.attributeValue, .numberValue, [token .integer]⟩ ∈ alternatives := by
        decide
      exact .combine alternative (.integer integer spells_nil) rfl
    · have alternative : ⟨.attributeValue, .numberValue, [token .decimal]⟩ ∈ alternatives := by
        decide
      exact .combine alternative (.decimal decimal spells_nil) rfl

/-! ### Types -/

/-- A type that is written in words of its own. -/
theorem spells_primitive {words : List String} (known : words ∈ primitiveTypes) :
    Spells [rule .primitiveType] words [.type (.named (" ".intercalate words) false [])] := by
  have short : ⟨.primitiveType, .primitiveType, [maybe [token .kwUnsigned], token .kwShort]⟩ ∈
      alternatives := by decide
  have long : ⟨.primitiveType, .primitiveType,
      [maybe [token .kwUnsigned], token .kwLong, maybe [token .kwLong]]⟩ ∈ alternatives := by decide
  have float : ⟨.primitiveType, .primitiveType, [maybe [token .kwUnrestricted], token .kwFloat]⟩ ∈
      alternatives := by decide
  have double : ⟨.primitiveType, .primitiveType,
      [maybe [token .kwUnrestricted], token .kwDouble]⟩ ∈ alternatives := by decide
  simp only [primitiveTypes, List.mem_cons, List.not_mem_nil, or_false] at known
  rcases known with rfl | rfl | rfl | rfl | rfl | rfl | rfl | rfl | rfl | rfl
  · exact .combine short (.leftOut (.literal rfl spells_nil)) rfl
  · exact .combine short (.written (.literal rfl spells_nil) (.literal rfl spells_nil)) rfl
  · exact .combine long (.leftOut (.literal rfl (.leftOut spells_nil))) rfl
  · exact .combine long (.written (.literal rfl spells_nil)
      (.literal rfl (.leftOut spells_nil))) rfl
  · exact .combine long (.leftOut (.literal rfl (.written (.literal rfl spells_nil)
      spells_nil))) rfl
  · exact .combine long (.written (.literal rfl spells_nil)
      (.literal rfl (.written (.literal rfl spells_nil) spells_nil))) rfl
  · exact .combine float (.leftOut (.literal rfl spells_nil)) rfl
  · exact .combine float (.written (.literal rfl spells_nil) (.literal rfl spells_nil)) rfl
  · exact .combine double (.leftOut (.literal rfl spells_nil)) rfl
  · exact .combine double (.written (.literal rfl spells_nil) (.literal rfl spells_nil)) rfl

/-- The words of a primitive type with the name, or else the word that a name is written as. -/
def nameWords (name word : String) : List String :=
  (primitiveTypes.find? fun words => " ".intercalate words = name).getD [word]

theorem typeNameWords_eq (name : String) : typeNameWords name = nameWords name (escape name) :=
  rfl

theorem nameWords_cases (name word : String) :
    (∃ words ∈ primitiveTypes, " ".intercalate words = name ∧ nameWords name word = words) ∨
      (∀ words ∈ primitiveTypes, " ".intercalate words ≠ name) ∧
        nameWords name word = [word] := by
  unfold nameWords
  cases found : primitiveTypes.find? fun words => " ".intercalate words = name with
  | some words =>
    exact .inl ⟨words, List.mem_of_find?_eq_some found, by simpa using List.find?_some found, rfl⟩
  | none =>
    exact .inr ⟨fun words known => by simpa using List.find?_eq_none.mp found words known, rfl⟩

section Names

variable {front : Option Rule} {name word : String} {f : TypeExpr → List String}

theorem spells_singleType (h : (∀ words ∈ primitiveTypes, " ".intercalate words ≠ name) →
      Token.name ⟨.identifier, "", word⟩ = name ∧
      SpellsAt front [token .identifier] [word] [literalPiece .identifier word]) :
    SpellsAt front [rule .singleType] (nameWords name word) [.type (.named name false [])] := by
  have primitive : ⟨.singleType, .part, [rule .primitiveType]⟩ ∈ alternatives := by decide
  have named : ⟨.singleType, .part, [rule .namedType]⟩ ∈ alternatives := by decide
  have alternative : ⟨.namedType, .namedType, [token .identifier]⟩ ∈ alternatives := by decide
  obtain ⟨words, known, rfl, same⟩ | ⟨unknown, single⟩ := nameWords_cases name word
  · rw [same]
    exact .anywhere (.group primitive (spells_primitive known))
  · obtain ⟨spelled, plain⟩ := h unknown
    rw [single]
    refine .group named (.combine alternative plain ?_)
    simp [Construct.combine, Pieces.name?, Pieces.names, Pieces.tokensOf, Pieces.tokens, spelled]

theorem spells_generic {parameters : List TypeExpr}
    (spelled : Token.name ⟨.identifier, "", word⟩ = name)
    (h : SpellsAt front [token .identifier] [word] [literalPiece .identifier word])
    (filled : parameters ≠ [])
    (hp : ∀ type ∈ parameters, Spells [rule .annotatedType] (f type) [.type type]) :
    SpellsAt front [rule .singleType]
      (word :: "<" :: (separated "," (parameters.map f) ++ [">"]))
      [.type (.generic name parameters false [])] := by
  have single : ⟨.singleType, .part, [rule .genericType]⟩ ∈ alternatives := by decide
  have alternative : ⟨.genericType, .genericType,
      [token .identifier, token .lessThan, rule .annotatedType, maybe [rule .moreTypes],
       token .moreThan]⟩ ∈ alternatives := by decide
  refine .group single (.combine alternative (h.cons (.literal rfl
    (.listed .comma (by decide) rfl filled hp (.literal rfl spells_nil)))) ?_)
  simp [Construct.combine, Pieces.name?, Pieces.names, Pieces.tokensOf, Pieces.tokens, Pieces.types,
    filterMap_separatedPieces, spelled]

end Names

theorem spells_union {members : List TypeExpr} {f : TypeExpr → List String}
    (several : 2 ≤ members.length)
    (hm : ∀ type ∈ members, Spells [rule .annotatedType] (f type) [.type type]) :
    Spells [rule .singleType] ("(" :: (separated "or" (members.map f) ++ [")"]))
      [.type (.union members false [])] := by
  have single : ⟨.singleType, .part, [rule .unionType]⟩ ∈ alternatives := by decide
  have alternative : ⟨.unionType, .unionType,
      [token .parenOpen, rule .annotatedType, rule .moreAlternatives, token .parenClose]⟩ ∈
      alternatives := by decide
  refine .group single (.combine alternative (.literal rfl
    (.listedSeveral .kwOr (by decide) rfl several hm (.literal rfl spells_nil))) ?_)
  simp [Construct.combine, Pieces.types, filterMap_separatedPieces]

section Annotations

variable {front : Option Rule} {attributes : List ExtAttribute} {base type : TypeExpr}
  {words : List String}

/-- A type is what it is made of, with its mark, -/
theorem spells_type (isNullable : Bool) (h : SpellsAt front [rule .singleType] words [.type base]) :
    SpellsAt front [rule .type] (words ++ flag isNullable "?")
      [.type (if isNullable then base.makeNullable else base)] := by
  have alternative : ⟨.type, .type, [rule .singleType, maybe [token .questionMark]]⟩ ∈
      alternatives := by decide
  have parts : SpellsAt front [rule .singleType, maybe [token .questionMark]] _ _ :=
    h.cons (.flag isNullable rfl spells_nil)
  rw [List.append_nil] at parts
  refine .combine alternative parts ?_
  cases isNullable <;> rfl

/-- and with its extended attributes. -/
theorem spells_annotatedType (h : Spells [rule .type] words [.type base])
    (plain : base.attributes = [])
    (ha : ∀ attr ∈ attributes, Spells [rule .extendedAttribute] attr.words [.extAttribute attr]) :
    Spells [rule .annotatedType] (attributeWords (attributes.map ExtAttribute.words) ++ words)
      [.type (base.withAttributes attributes)] := by
  have alternative : ⟨.annotatedType, .annotatedType, [maybe [rule .attributeList], rule .type]⟩ ∈
      alternatives := by decide
  have parts : Spells [maybe [rule .attributeList], rule .type] _ _ := .attributes ha h
  refine .combine alternative parts ?_
  cases attributes with
  | nil => cases base <;> cases plain <;> rfl
  | cons attr others => rfl

/-- A type may stand where types may have extended attributes; without any, it may stand where they
may not. -/
def TypeExpr.Spelled (type : TypeExpr) : Prop :=
  Spells [rule .annotatedType] type.words [.type type] ∧
    (type.attributes = [] → Spells [rule .type] type.words [.type type])

theorem TypeExpr.spelled_of_base (isNullable : Bool)
    (h : Spells [rule .singleType] words [.type base])
    (plain : base.attributes = [])
    (ha : ∀ attr ∈ attributes, Spells [rule .extendedAttribute] attr.words [.extAttribute attr])
    (he : (if isNullable then base.makeNullable else base).withAttributes attributes = type)
    (hw : type.words = attributeWords (attributes.map ExtAttribute.words) ++
      (words ++ flag isNullable "?")) : type.Spelled := by
  have marked := spells_type isNullable h
  have bare : (if isNullable then base.makeNullable else base).attributes = [] := by
    cases base <;> cases isNullable <;> exact plain
  have same : type.attributes = attributes := by
    rw [← he]
    cases (if isNullable then base.makeNullable else base) <;> rfl
  constructor
  · rw [hw, ← he]
    exact spells_annotatedType marked bare ha
  · intro empty
    rw [same] at empty
    subst empty
    have kept : (if isNullable then base.makeNullable else base) = type := by
      rw [← he]
      cases hb : (if isNullable then base.makeNullable else base) <;> rw [hb] at bare <;>
        cases bare <;> rfl
    rw [hw, ← kept]
    exact marked

end Annotations

/-! ### Arguments -/

theorem spells_optionalArgument {name : String} {type : TypeExpr} {default : Option String}
    {attributes : List ExtAttribute} (hn : isName name.toList)
    (ht : Spells [rule .annotatedType] type.words [.type type])
    (hd : ∀ text ∈ default, IsDefaultValue text)
    (ha : ∀ attr ∈ attributes, Spells [rule .extendedAttribute] attr.words [.extAttribute attr]) :
    Spells [rule .argument] (Argument.words ⟨name, type, true, false, default, attributes⟩)
      [.argument ⟨name, type, true, false, default, attributes⟩] := by
  have alternative : ⟨.argument, .argument,
      [maybe [rule .attributeList], token .kwOptional, rule .annotatedType, token .identifier,
       maybe [rule .default]]⟩ ∈ alternatives := by decide
  have parts : Spells [maybe [rule .attributeList], token .kwOptional, rule .annotatedType,
      token .identifier, maybe [rule .default]] _ _ :=
    .attributes ha (.literal rfl (ht.cons (.name hn (.default hd spells_nil))))
  rw [List.append_nil] at parts
  rw [Argument.words, ExtAttribute.listWords_eq_map]
  refine .combine alternative parts ?_
  cases attributes <;> cases default <;>
    simp [Construct.combine, attributePieces, defaultPieces, Pieces.name?, Pieces.names,
      Pieces.tokensOf, Pieces.tokens, Pieces.types, Pieces.has, Pieces.literal?,
      Pieces.extAttributes]

theorem spells_requiredArgument {name : String} {type : TypeExpr} {isVariadic : Bool}
    {attributes : List ExtAttribute} (hn : isName name.toList)
    (ht : Spells [rule .type] type.words [.type type])
    (ha : ∀ attr ∈ attributes, Spells [rule .extendedAttribute] attr.words [.extAttribute attr]) :
    Spells [rule .argument] (Argument.words ⟨name, type, false, isVariadic, none, attributes⟩)
      [.argument ⟨name, type, false, isVariadic, none, attributes⟩] := by
  have alternative : ⟨.argument, .argument,
      [maybe [rule .attributeList], rule .type, maybe [token .ellipsis], token .identifier]⟩ ∈
      alternatives := by decide
  have parts : Spells [maybe [rule .attributeList], rule .type, maybe [token .ellipsis],
      token .identifier] _ _ :=
    .attributes ha (ht.cons (.flag isVariadic rfl (.name hn spells_nil)))
  rw [Argument.words, ExtAttribute.listWords_eq_map]
  refine .combine alternative parts ?_
  cases attributes <;> cases isVariadic <;>
    simp [Construct.combine, attributePieces, flagPieces, Pieces.name?, Pieces.names,
      Pieces.tokensOf, Pieces.tokens, Pieces.types, Pieces.has, Pieces.literal?,
      Pieces.extAttributes]

/-! ### Extended attributes -/

section Attributes

variable {name : String} {list : List Argument} (hn : isIdentifier name.toList)
include hn

theorem spells_plainAttribute :
    Spells [rule .extendedAttribute] (ExtAttribute.words ⟨name, none, none⟩)
      [.extAttribute ⟨name, none, none⟩] := by
  have alternative : ⟨.extendedAttribute, .plainAttribute, [token .identifier]⟩ ∈ alternatives := by
    decide
  exact .ownName alternative hn spells_nil rfl

theorem spells_callAttribute
    (ha : ∀ argument ∈ list, Spells [rule .argument] argument.words [.argument argument]) :
    Spells [rule .extendedAttribute] (ExtAttribute.words ⟨name, none, some list⟩)
      [.extAttribute ⟨name, none, some list⟩] := by
  have alternative : ⟨.extendedAttribute, .callAttribute, token .identifier :: arguments⟩ ∈
      alternatives := by decide
  have parts := SpellsAt.arguments ha spells_nil
  simp only [List.append_nil] at parts
  simp only [ExtAttribute.words, Argument.listWords_eq_map, List.nil_append]
  refine .ownName alternative hn parts ?_
  cases list <;> rfl

theorem spells_namedCallAttribute {callee : String} (hc : isName callee.toList)
    (ha : ∀ argument ∈ list, Spells [rule .argument] argument.words [.argument argument]) :
    Spells [rule .extendedAttribute]
      (ExtAttribute.words ⟨name, some ⟨.identifier, .text callee⟩, some list⟩)
      [.extAttribute ⟨name, some ⟨.identifier, .text callee⟩, some list⟩] := by
  have alternative : ⟨.extendedAttribute, .namedCallAttribute,
      token .identifier :: token .equals :: token .identifier :: arguments⟩ ∈ alternatives := by
    decide
  have parts := SpellsAt.arguments ha spells_nil
  simp only [List.append_nil] at parts
  simp only [ExtAttribute.words, Argument.listWords_eq_map, AttributeValue.words]
  refine .ownName alternative hn (.literal rfl (.name hc parts)) ?_
  cases list <;> simp [Construct.combine, argumentPieces, Pieces.names, Pieces.tokensOf,
    Pieces.tokens, Pieces.arguments]

theorem spells_valueAttribute {value : AttributeValue} (hv : value.WellFormed) :
    Spells [rule .extendedAttribute] (ExtAttribute.words ⟨name, some value, none⟩)
      [.extAttribute ⟨name, some value, none⟩] := by
  have alternative : ⟨.extendedAttribute, .valueAttribute,
      [token .identifier, token .equals, rule .attributeValue]⟩ ∈ alternatives := by decide
  simp only [ExtAttribute.words, List.append_nil]
  exact .ownName alternative hn (.literal rfl hv.spells) rfl

end Attributes

/-! ### Well-formed trees -/

mutual

theorem TypeExpr.WellFormed.spelled : ∀ {type : TypeExpr}, TypeExpr.WellFormed type → type.Spelled
  | .named _ isNullable _, .primitive known ha =>
    TypeExpr.spelled_of_base isNullable
      (spells_singleType fun unknown => absurd rfl (unknown _ known)) rfl
      (fun attr h => (ha attr h).spells) (by cases isNullable <;> rfl)
      (by rw [TypeExpr.words, ExtAttribute.listWords_eq_map, typeNameWords_eq])
  | .named _ isNullable _, .named hn ha =>
    TypeExpr.spelled_of_base isNullable
      (spells_singleType fun _ => ⟨Token.name_escape _, .name hn spells_nil⟩) rfl
      (fun attr h => (ha attr h).spells) (by cases isNullable <;> rfl)
      (by rw [TypeExpr.words, ExtAttribute.listWords_eq_map, typeNameWords_eq])
  | .generic _ _ isNullable _, .generic hn filled hp ha =>
    TypeExpr.spelled_of_base isNullable
      (spells_generic (Token.name_escape _) (.name hn spells_nil) filled
        fun type h => (hp type h).spelled.1) rfl
      (fun attr h => (ha attr h).spells) (by cases isNullable <;> rfl)
      (by rw [TypeExpr.words, ExtAttribute.listWords_eq_map, TypeExpr.listWords_eq_map])
  | .union _ isNullable _, .union several hm ha =>
    TypeExpr.spelled_of_base isNullable
      (spells_union several fun type h => (hm type h).spelled.1) rfl
      (fun attr h => (ha attr h).spells) (by cases isNullable <;> rfl)
      (by rw [TypeExpr.words, ExtAttribute.listWords_eq_map, TypeExpr.listWords_eq_map])

theorem ExtAttribute.WellFormed.spells : ∀ {attr : ExtAttribute}, ExtAttribute.WellFormed attr →
    Spells [rule .extendedAttribute] attr.words [.extAttribute attr]
  | _, .plain hn => spells_plainAttribute hn
  | _, .call hn ha => spells_callAttribute hn fun argument h => (ha argument h).spells
  | _, .namedCall hn hc ha =>
    spells_namedCallAttribute hn hc fun argument h => (ha argument h).spells
  | _, .value hn hv => spells_valueAttribute hn hv

theorem Argument.WellFormed.spells : ∀ {argument : Argument}, Argument.WellFormed argument →
    Spells [rule .argument] argument.words [.argument argument]
  | _, .optional hn ht hd ha =>
    spells_optionalArgument hn ht.spelled.1 hd fun attr h => (ha attr h).spells
  | _, .required hn ht plain ha =>
    spells_requiredArgument hn (ht.spelled.2 plain) fun attr h => (ha attr h).spells

end

end WebSpec.Idl
