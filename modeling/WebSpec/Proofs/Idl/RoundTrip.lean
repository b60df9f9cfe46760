import WebSpec.Idl.Definitions
import WebSpec.Proofs.Idl.MemberSpelling
import WebSpec.Proofs.Idl.Spacing

/-!
# Parsing undoes printing

The words of a definition are a phrase of the grammar that means it, so the words of a list of
definitions are the tokens of a derivation tree. With blanks between the words this is the tree of
the text (`parseTree_textOf`), and what it stands for are the definitions, up to their fragments
(`parse_print_definitions`).
-/

namespace WebSpec.Idl

open ContextFree (Derives DerivesAll ParseTree Pattern)

/-! ### Parts of definitions -/

/-- The pieces of the name that a definition inherits from. -/
def inheritancePieces : Option String → Pieces
  | none => []
  | some base => [.inheritance base]

theorem SpellsAt.inheritance {inheritance : Option String} {rest : List Pattern}
    {more : List String} {qs : Pieces} (hi : ∀ base ∈ inheritance, isName base.toList)
    (hr : Spells rest more qs) :
    Spells (maybe [rule .inheritance] :: rest)
      (inheritanceWords inheritance ++ more)
      (inheritancePieces inheritance ++ qs) := by
  cases inheritance with
  | none => exact .leftOut hr
  | some base =>
    have alternative : ⟨.inheritance, .inheritance, [token .colon, token .identifier]⟩ ∈
        alternatives := by decide
    refine .written (.combine alternative (.literal rfl (.name (hi base rfl) spells_nil)) ?_) hr
    simp [Construct.combine, Pieces.name?, Pieces.names, Pieces.tokensOf, Pieces.tokens]

/-- The pieces of the body of a definition with members. -/
def bodyPieces (members : List Node) : Pieces :=
  literalPiece .braceOpen "\x7b" ::
    (members.map .node ++ [literalPiece .braceClose "\x7d", literalPiece .semicolon ";"])

theorem spells_body {members : List Node} {r item : Rule} {words : Node → List String}
    (ha : ∀ a ∈ repeated r [rule item], a ∈ alternatives)
    (hm : ∀ m ∈ members, Spells [rule item] (words m) [.node m]) :
    Spells (body r) (Node.bodyWords (members.map words)) (bodyPieces members) := by
  have whole : Spells (body r) _ _ :=
    .literal rfl (.many ha hm (.literal rfl (.literal rfl spells_nil)))
  rw [← List.map_eq_flatMap, List.flatMap_def] at whole
  exact whole

/-- What stands in front of the members gives the rest of a definition with members. -/
theorem container_append_bodyPieces {ps : Pieces} {name : String} (kind : NodeKind)
    (hn : ps.name? = some name) (unfilled : ps.nodes = []) (members : List Node) :
    Pieces.container (ps ++ bodyPieces members) kind =
      some (.node { kind := .known kind, name, isPartial := ps.has .kwPartial,
                    inheritance := ps.inheritance?, members }) := by
  have nodes : Pieces.nodes (ps ++ bodyPieces members) = members := by
    simp only [Pieces.nodes] at unfilled
    simp [Pieces.nodes, unfilled, bodyPieces]
  have tokens : Pieces.tokens (ps ++ bodyPieces members) = ps.tokens ++
      [⟨.braceOpen, "", "\x7b"⟩, ⟨.braceClose, "", "\x7d"⟩, ⟨.semicolon, "", ";"⟩] := by
    simp [Pieces.tokens, bodyPieces]
  have inheritance : Pieces.inheritance? (ps ++ bodyPieces members) = ps.inheritance? := by
    have behind : Pieces.inheritance? (bodyPieces members) = none := by
      refine List.findSome?_eq_none_iff.mpr fun piece h => ?_
      simp only [bodyPieces, List.mem_cons, List.mem_append, List.mem_map, List.not_mem_nil,
        or_false] at h
      rcases h with rfl | ⟨_, -, rfl⟩ | rfl | rfl <;> rfl
    simp only [Pieces.inheritance?] at behind ⊢
    rw [List.findSome?_append, behind, Option.or_none]
  have names : Pieces.names (ps ++ bodyPieces members) = ps.names := by
    simp [Pieces.names, Pieces.tokensOf, tokens]
  have partly : Pieces.has (ps ++ bodyPieces members) .kwPartial = ps.has .kwPartial := by
    simp [Pieces.has, tokens]
  rw [Pieces.container, Pieces.name?, names, partly, inheritance, nodes]
  rw [Pieces.name?] at hn
  rw [hn]
  rfl

/-! ### Definitions with members -/

section Containers

variable {name : String} {isPartial : Bool} {inheritance : Option String} {members : List Node}

/-- A definition with members, from what stands in front of them. -/
theorem spells_container (kind : NodeKind) {r item memberRule : Rule} {construct : Construct}
    {head : List Pattern} {words : List String} {ps : Pieces} {memberWords : Node → List String}
    (ha : ⟨r, construct, head ++ body memberRule⟩ ∈ alternatives)
    (hc : ∀ ps, construct.combine ps = Pieces.container ps kind) (hh : Spells head words ps)
    (hp : ps.name? = some name ∧ ps.nodes = [] ∧ ps.has .kwPartial = isPartial ∧
      ps.inheritance? = inheritance)
    (hr : ∀ a ∈ repeated memberRule [rule item], a ∈ alternatives)
    (hm : ∀ m ∈ members, Spells [rule item] (memberWords m) [.node m]) :
    Spells [rule r] (words ++ Node.bodyWords (members.map memberWords))
      [.node { kind := .known kind, name, isPartial, inheritance, members }] := by
  obtain ⟨hn, unfilled, rfl, rfl⟩ := hp
  refine .combine ha (hh.append (spells_body hr hm)) ?_
  rw [hc, container_append_bodyPieces kind hn unfilled]

theorem spells_interface (hn : isName name.toList) (hi : ∀ base ∈ inheritance, isName base.toList)
    (hm : ∀ m ∈ members, m.IsMember) :
    Spells [rule .interface]
      (flag isPartial "partial" ++ "interface" :: escape name ::
        inheritanceWords inheritance ++ Node.bodyWords (members.map Node.memberWords))
      [.node { kind := .known .interface, name, isPartial, inheritance, members }] := by
  have alternative : ⟨.interface, .interface,
      [maybe [token .kwPartial], token .kwInterface, token .identifier,
       maybe [rule .inheritance]] ++ body .interfaceMembers⟩ ∈ alternatives := by decide
  have head : Spells [maybe [token .kwPartial], token .kwInterface, token .identifier,
      maybe [rule .inheritance]] _ _ :=
    .flag isPartial rfl (.literal rfl (.name hn (.inheritance hi spells_nil)))
  rw [List.append_nil] at head
  refine spells_container .interface alternative (fun _ => rfl) head ?_ (by decide)
    fun m h => (hm m h).spells
  cases isPartial <;> cases inheritance <;> simp [flagPieces, inheritancePieces, Pieces.name?,
    Pieces.names, Pieces.tokensOf, Pieces.tokens, Pieces.nodes, Pieces.has, Pieces.inheritance?]

theorem spells_mixin (hn : isName name.toList) (hm : ∀ m ∈ members, m.IsMember) :
    Spells [rule .mixin]
      (flag isPartial "partial" ++ ["interface", "mixin", escape name] ++
        Node.bodyWords (members.map Node.memberWords))
      [.node { kind := .known .interfaceMixin, name, isPartial, members }] := by
  have alternative : ⟨.mixin, .mixin,
      [maybe [token .kwPartial], token .kwInterface, token .kwMixin, token .identifier] ++
        body .interfaceMembers⟩ ∈ alternatives := by decide
  have head : Spells [maybe [token .kwPartial], token .kwInterface, token .kwMixin,
      token .identifier] _ _ :=
    .flag isPartial rfl (.literal rfl (.literal rfl (.name hn spells_nil)))
  refine spells_container .interfaceMixin alternative (fun _ => rfl) head ?_ (by decide)
    fun m h => (hm m h).spells
  cases isPartial <;> simp [flagPieces, Pieces.name?, Pieces.names, Pieces.tokensOf, Pieces.tokens,
    Pieces.nodes, Pieces.has, Pieces.inheritance?]

theorem spells_callbackInterface (hn : isName name.toList)
    (hi : ∀ base ∈ inheritance, isName base.toList) (hm : ∀ m ∈ members, m.IsMember) :
    Spells [rule .callbackInterface]
      ("callback" :: "interface" :: escape name ::
        inheritanceWords inheritance ++ Node.bodyWords (members.map Node.memberWords))
      [.node { kind := .known .callbackInterface, name, inheritance, members }] := by
  have alternative : ⟨.callbackInterface, .callbackInterface,
      [token .kwCallback, token .kwInterface, token .identifier, maybe [rule .inheritance]] ++
        body .interfaceMembers⟩ ∈ alternatives := by decide
  have head : Spells [token .kwCallback, token .kwInterface, token .identifier,
      maybe [rule .inheritance]] _ _ :=
    .literal rfl (.literal rfl (.name hn (.inheritance hi spells_nil)))
  rw [List.append_nil] at head
  refine spells_container .callbackInterface alternative (fun _ => rfl) head ?_ (by decide)
    fun m h => (hm m h).spells
  cases inheritance <;> simp [inheritancePieces, Pieces.name?, Pieces.names, Pieces.tokensOf,
    Pieces.tokens, Pieces.nodes, Pieces.has, Pieces.inheritance?]

theorem spells_namespace (hn : isName name.toList) (hm : ∀ m ∈ members, m.IsMember) :
    Spells [rule .namespaceDefinition]
      (flag isPartial "partial" ++ ["namespace", escape name] ++
        Node.bodyWords (members.map Node.memberWords))
      [.node { kind := .known .namespaceDefinition, name, isPartial, members }] := by
  have alternative : ⟨.namespaceDefinition, .namespaceDefinition,
      [maybe [token .kwPartial], token .kwNamespace, token .identifier] ++
        body .interfaceMembers⟩ ∈ alternatives := by decide
  have head : Spells [maybe [token .kwPartial], token .kwNamespace, token .identifier] _ _ :=
    .flag isPartial rfl (.literal rfl (.name hn spells_nil))
  refine spells_container .namespaceDefinition alternative (fun _ => rfl) head ?_ (by decide)
    fun m h => (hm m h).spells
  cases isPartial <;> simp [flagPieces, Pieces.name?, Pieces.names, Pieces.tokensOf, Pieces.tokens,
    Pieces.nodes, Pieces.has, Pieces.inheritance?]

theorem spells_dictionary (hn : isName name.toList)
    (hi : ∀ base ∈ inheritance, isName base.toList) (hf : ∀ field ∈ members, field.IsField) :
    Spells [rule .dictionary]
      (flag isPartial "partial" ++ "dictionary" :: escape name ::
        inheritanceWords inheritance ++ Node.bodyWords (members.map Node.fieldWords))
      [.node { kind := .known .dictionary, name, isPartial, inheritance, members }] := by
  have alternative : ⟨.dictionary, .dictionary,
      [maybe [token .kwPartial], token .kwDictionary, token .identifier,
       maybe [rule .inheritance]] ++ body .dictionaryMembers⟩ ∈ alternatives := by decide
  have head : Spells [maybe [token .kwPartial], token .kwDictionary, token .identifier,
      maybe [rule .inheritance]] _ _ :=
    .flag isPartial rfl (.literal rfl (.name hn (.inheritance hi spells_nil)))
  rw [List.append_nil] at head
  refine spells_container .dictionary alternative (fun _ => rfl) head ?_ (by decide)
    fun m h => (hf m h).spells
  cases isPartial <;> cases inheritance <;> simp [flagPieces, inheritancePieces, Pieces.name?,
    Pieces.names, Pieces.tokensOf, Pieces.tokens, Pieces.nodes, Pieces.has, Pieces.inheritance?]

end Containers

/-! ### Other definitions -/

section Others

variable {name : String} {type : TypeExpr}

theorem spells_callback {list : List Argument} (hn : isName name.toList) (ht : type.WellFormed)
    (plain : type.attributes = []) (ha : ∀ argument ∈ list, argument.WellFormed) :
    Spells [rule .callbackFunction]
      ("callback" :: escape name :: "=" ::
        (type.words ++ (argumentWords (list.map Argument.words) ++ [";"])))
      [.node { kind := .known .callback, name, type := some type, arguments := list }] := by
  have alternative : ⟨.callbackFunction, .callbackFunction,
      token .kwCallback :: token .identifier :: token .equals :: rule .type ::
        (arguments ++ [token .semicolon])⟩ ∈ alternatives := by decide
  refine .combine alternative (.literal rfl (.name hn (.literal rfl ((ht.spelled.2 plain).cons
    (.arguments (fun argument h => (ha argument h).spells) (.literal rfl spells_nil)))))) ?_
  cases list <;> simp [Construct.combine, argumentPieces, Pieces.name?, Pieces.names,
    Pieces.tokensOf, Pieces.tokens, Pieces.types, Pieces.arguments]

theorem spells_typedef {word : String} {words : List String}
    (h : Spells [token .identifier] [word] [literalPiece .identifier word])
    (spelled : Token.name ⟨.identifier, "", word⟩ = name)
    (ht : Spells [rule .annotatedType] words [.type type]) :
    Spells [rule .typedef] ("typedef" :: (words ++ [word, ";"]))
      [.node { kind := .known .typedef, name, type := some type }] := by
  have alternative : ⟨.typedef, .typedef,
      [token .kwTypedef, rule .annotatedType, token .identifier, token .semicolon]⟩ ∈
      alternatives := by decide
  refine .combine alternative (.literal rfl (ht.cons (h.cons (.literal rfl spells_nil)))) ?_
  simp [Construct.combine, Pieces.name?, Pieces.names, Pieces.tokensOf, Pieces.tokens, Pieces.types,
    spelled]

theorem spells_enumeration {values : List String} (hn : isName name.toList) (filled : values ≠ [])
    (unquoted : ∀ value ∈ values, '"' ∉ value.toList) :
    Spells [rule .enumeration]
      ("enum" :: escape name :: "\x7b" ::
        (separated "," (values.map fun value => [quoted value]) ++ ["\x7d", ";"]))
      [.node
        { kind := .known .enumeration
          name
          members := values.map fun value =>
            { kind := .known .enumValue, value := some value } }] := by
  have alternative : ⟨.enumeration, .enumeration,
      [token .kwEnum, token .identifier, token .braceOpen, rule .enumValues, token .braceClose,
       token .semicolon]⟩ ∈ alternatives := by decide
  have inside : ⟨.enumValues, .part,
      [token .string, maybe [rule .moreEnumValues], maybe [token .comma]]⟩ ∈ alternatives := by
    decide
  have listed : Spells [token .string, maybe [rule .moreEnumValues], maybe [token .comma]] _ _ :=
    .listed .comma (by decide) rfl filled
      (fun value h => .quoted (unquoted value h) spells_nil) (.leftOut spells_nil)
  simp only [List.append_nil] at listed
  refine .combine alternative (.literal rfl (.name hn (.literal rfl
    ((SpellsAt.group inside listed).cons (.literal rfl (.literal rfl spells_nil)))))) ?_
  have spelled : Pieces.tokensOf (separatedPieces (literalPiece .comma ",")
      (values.map fun value => literalPiece .string (quoted value))) .string =
        values.map fun value => ⟨.string, "", quoted value⟩ := by
    refine Pieces.tokensOf_separatedPieces ?_ ?_ values
    · decide
    · exact fun _ => rfl
  simp only [Pieces.tokensOf, Pieces.tokens] at spelled
  simp [Construct.combine, Pieces.name?, Pieces.names, Pieces.tokensOf, Pieces.tokens, spelled]

/-- A statement that relates two names. -/
theorem spells_relation (kind : NodeKind) {r : Rule} {construct : Construct} {t : Terminal}
    {literal target included : String}
    (ha : ⟨r, construct, [token .identifier, token t, token .identifier, token .semicolon]⟩ ∈
      alternatives)
    (hc : ∀ ps, construct.combine ps = Pieces.relation ps kind) (hl : t.literal? = some literal)
    (ht : isName target.toList) (hi : isName included.toList) :
    Spells [rule r] [escape target, literal, escape included, ";"]
      [.node { kind := .known kind, target, includes := included }] := by
  have different : t ≠ .identifier := by
    rintro rfl
    cases hl
  refine .combine ha (.name ht (.literal hl (.name hi (.literal rfl spells_nil)))) ?_
  rw [hc]
  simp [Pieces.relation, Pieces.names, Pieces.tokensOf, Pieces.tokens, different]

end Others

/-! ### Definitions -/

/-- A definition without its extended attributes. -/
theorem Node.DefinitionBody.spells {node : Node} (h : node.DefinitionBody) :
    Spells [rule .definitionBody] node.definitionBodyWords [.node node] := by
  have choice (r : Rule) (hr : ⟨.definitionBody, .part, [rule r]⟩ ∈ alternatives)
      (h : Spells [rule r] node.definitionBodyWords [.node node]) :
      Spells [rule .definitionBody] node.definitionBodyWords [.node node] := .group hr h
  cases h with
  | interface hn hi hm => exact choice .interface (by decide) (spells_interface hn hi hm)
  | mixin hn hm => exact choice .mixin (by decide) (spells_mixin hn hm)
  | callbackInterface hn hi hm =>
    exact choice .callbackInterface (by decide) (spells_callbackInterface hn hi hm)
  | callback hn ht plain ha =>
    exact choice .callbackFunction (by decide) (spells_callback hn ht plain ha)
  | namespaceDefinition hn hm =>
    exact choice .namespaceDefinition (by decide) (spells_namespace hn hm)
  | dictionary hn hi hf => exact choice .dictionary (by decide) (spells_dictionary hn hi hf)
  | enumeration hn filled unquoted =>
    refine choice .enumeration (by decide) ?_
    simpa [Node.definitionBodyWords, Function.comp_def] using spells_enumeration hn filled unquoted
  | typedef hn ht =>
    exact choice .typedef (by decide)
      (spells_typedef (.name hn spells_nil) (Token.name_escape _) ht.spelled.1)
  | includes ht hi =>
    have alternative : ⟨.includesStatement, .includesStatement,
        [token .identifier, token .kwIncludes, token .identifier, token .semicolon]⟩ ∈
        alternatives := by decide
    exact choice .includesStatement (by decide)
      (spells_relation .includes alternative (fun _ => rfl) rfl ht hi)
  | implements ht hi =>
    have alternative : ⟨.implementsStatement, .implementsStatement,
        [token .identifier, token .kwImplements, token .identifier, token .semicolon]⟩ ∈
        alternatives := by decide
    exact choice .implementsStatement (by decide)
      (spells_relation .implements alternative (fun _ => rfl) rfl ht hi)

/-- A definition. Its fragment is not written. -/
theorem Node.IsDefinition.spells {node : Node} (h : node.IsDefinition) :
    Spells [rule .definition] node.words [.node node.bare] := by
  have alternative : ⟨.definition, .definition,
      [maybe [rule .attributeList], rule .definitionBody]⟩ ∈ alternatives := by decide
  have body := h.1.spells
  rw [definitionBodyWords_bare] at body
  refine .combine alternative (.attributes (fun attr ha => (h.2 attr ha).spells) body) ?_
  obtain ⟨_, _, _, _, _, attributes, _⟩ := node
  cases attributes <;> rfl

/-- A text is some definitions. -/
theorem spells_start {α : Type} {xs : List α} {words : α → List String} {node : α → Node}
    (h : ∀ x ∈ xs, Spells [rule .definition] (words x) [.node (node x)]) :
    Spells [rule .start] (xs.flatMap words) (xs.map fun x => .node (node x)) := by
  have alternative : ⟨.start, .part, [maybe [rule .definitions]]⟩ ∈ alternatives := by decide
  have whole : Spells [maybe [rule .definitions]] _ _ := .many (by decide) h spells_nil
  rw [List.append_nil, List.append_nil, ← List.map_eq_flatMap] at whole
  exact .group alternative whole

theorem spells_definitions {definitions : List Node} (h : ∀ d ∈ definitions, d.IsDefinition) :
    Spells [rule .start] (definitions.flatMap Node.words)
      (definitions.map fun d => .node d.bare) :=
  spells_start fun d hd => (h d hd).spells

/-! ### Texts -/

theorem derives_bare_iff {symbol : ContextFree.Symbol} {tree : ParseTree Token} :
    Derives grammar Token.code symbol (tree.map Token.bare) ↔
      Derives grammar Token.code symbol tree := by
  apply ParseTree.derives_map_iff
  exact fun _ => rfl

theorem fitsAt_bare_iff {begun : List Nat} {tree : ParseTree Token} :
    (tree.map Token.bare).FitsAt Fits begun ↔ tree.FitsAt Fits begun := by
  refine ParseTree.fitsAt_map_iff fun _ t => ?_
  have alike (r : Rule) : t.bare.IsNameAt r ↔ t.IsNameAt r :=
    ⟨fun h => ⟨h.terminal, h.name, h.apart⟩, fun h => ⟨h.terminal, h.name, h.apart⟩⟩
  simp only [Fits, alike]
  exact .rfl

/-- A derivation tree behind a phrase of a rule. -/
theorem SpellsAt.exists_tree {r : Rule} {words : List String} {ps : Pieces}
    (h : Spells [rule r] words ps) :
    ∃ tree, Derives grammar Token.code (.nonterminal r.code) tree ∧ tree.FitsAt Fits [] ∧
      tree.tokens.map Token.text = words ∧
      ∃ found, meaning tree = some found ∧ found.map Piece.bare = ps.map Piece.bare := by
  obtain ⟨right, hr, trees, phrase, fit⟩ := h
  obtain rfl : right = [.nonterminal r.code] := by
    simpa [Pattern.ofList, Pattern.expand, rule] using hr
  obtain ⟨derives, words_eq, found, means, same⟩ := phrase
  obtain _ | ⟨first, others⟩ := derives
  cases others
  rename_i tree
  refine ⟨tree, first, (fit [] (by simp)).1, ?_, found, ?_, same⟩
  · simpa [ParseTree.tokensOfAll] using words_eq
  · simpa [meaningOfAll] using means

/-- The text of a phrase is read as a tree of its words. -/
theorem Spacing.parseTree_of_spells (spacing : Spacing) {words : List String} {ps : Pieces}
    (h : Spells [rule .start] words ps) :
    ∃ tree, parseTree (spacing.text words) = .ok tree ∧ tree.tokens.map Token.text = words ∧
      ∃ found, meaning tree = some found ∧ found.map Piece.bare = ps.map Piece.bare := by
  obtain ⟨tree, derives, fit, spelled, found, means, same⟩ := h.exists_tree
  -- The same tree with blanks between its tokens is the tree of the text.
  obtain ⟨tree', alike, tokens⟩ := ParseTree.exists_map_eq tree (spacing.bare_spaced tree.tokens)
  have derives' : Derives grammar Token.code (.nonterminal Rule.start.code) tree' := by
    rw [← derives_bare_iff, alike]
    exact derives_bare_iff.mpr derives
  have fit' : tree'.FitsAt Fits [] := by
    rw [← fitsAt_bare_iff, alike]
    exact fitsAt_bare_iff.mpr fit
  have read := parseTree_textOf derives' fit' (tokens ▸ spacing.separated_spaced tree.tokens)
  rw [tokens, spacing.textOf_spaced, spelled] at read
  obtain ⟨found', means', same'⟩ := exists_meaning_of_map_eq alike means
  refine ⟨tree', read, ?_, found', means', same'.trans same⟩
  have texts : Token.text ∘ Token.bare = Token.text := rfl
  rw [tokens, ← spelled, ← texts, ← List.map_map, spacing.bare_spaced, List.map_map]

/-- The text of a phrase is parsed to what the phrase means. -/
theorem Spacing.parse_of_spells (spacing : Spacing) {words : List String} {ps : Pieces}
    (h : Spells [rule .start] words ps) :
    ∃ parsed, parse (spacing.text words) = .ok parsed ∧
      parsed.map Node.bare = ps.nodes.map Node.bare := by
  obtain ⟨tree, read, -, found, means, same⟩ := spacing.parseTree_of_spells h
  refine ⟨Pieces.nodes found, ?_, ?_⟩
  · rw [parse, read]
    simp [definitionsOf, means, bind, Except.bind, pure, Except.pure]
  · rw [← Pieces.nodes_bare, same, Pieces.nodes_bare]

/-- So is the text with a blank between all words. -/
theorem parse_of_spells {words : List String} {ps : Pieces} (h : Spells [rule .start] words ps) :
    ∃ parsed, parse (" ".intercalate words) = .ok parsed ∧
      parsed.map Node.bare = ps.nodes.map Node.bare := by
  rw [← Spacing.text_loose]
  exact Spacing.loose.parse_of_spells h

/-- Parsing a printed list of definitions gives the definitions, up to their fragments. -/
theorem parse_print_definitions {definitions : List Node}
    (h : ∀ d ∈ definitions, d.IsDefinition) :
    ∃ parsed, parse (print definitions) = .ok parsed ∧
      parsed.map Node.bare = definitions.map Node.bare := by
  obtain ⟨parsed, read, same⟩ := parse_of_spells (spells_definitions h)
  refine ⟨parsed, read, ?_⟩
  rw [same]
  simp [Pieces.nodes, List.filterMap_map, Function.comp_def, Node.bare_bare]

/-- An interface, a dictionary and an enumeration, among them a type with an extended attribute, a
union, an optional and a variadic argument and defaults, and names that are keywords elsewhere. -/
theorem parse_print_definitions_orientation :
    let angle : TypeExpr :=
      .generic "Promise" [.named "unsigned long" true [⟨"Clamp", none, none⟩]] false []
    let target : TypeExpr := .union [.named "Key" false [], .named "long long" false []] true []
    let definitions : List Node :=
      [{ kind := .known .interface, name := "interface", isPartial := true,
         inheritance := some "Target",
         attributes := [⟨"Exposed", some ⟨.identifierList, .list ["Window", "Worker"]⟩, none⟩],
         members :=
           [{ kind := .known .attributeMember, name := "angle", type := some angle,
              isReadonly := true, attributes := [⟨"optional", none, none⟩] },
            { kind := .known .operation, name := "lock", type := some (.named "undefined" false []),
              special := "static",
              arguments :=
                [{ name := "to", type := target, isOptional := true,
                   default := some "\"any\"" },
                 { name := "rest", type := .named "any" false [], isVariadic := true }] }] },
       { kind := .known .dictionary, name := "Options",
         members :=
           [{ kind := .known .field, name := "kinds",
              type := some (.generic "sequence" [.named "Kind" false []] false []),
              value := some "[]" },
            { kind := .known .field, name := "long", type := some (.named "double" false []),
              value := some "-1.5e3" }] },
       { kind := .known .enumeration, name := "Kind",
         members :=
           [{ kind := .known .enumValue, value := some "" },
            { kind := .known .enumValue, value := some "a b" }] }]
    print definitions =
      "[ Exposed = ( _Window , _Worker ) ] partial interface _interface : _Target \x7b " ++
      "[ optional ] readonly attribute _Promise < [ Clamp ] unsigned long ? > _angle ; " ++
      "static _undefined _lock ( optional ( _Key or long long ) ? _to = \"any\" , " ++
      "_any ... _rest ) ; \x7d ; " ++
      "dictionary _Options \x7b _sequence < _Kind > _kinds = [ ] ; " ++
      "double _long = -1.5e3 ; \x7d ; enum _Kind \x7b \"\" , \"a b\" \x7d ;" ∧
      (∀ d ∈ definitions, d.IsDefinition) ∧
      ∃ parsed, parse (print definitions) = .ok parsed ∧
        parsed.map Node.bare = definitions.map Node.bare := by
  intro angle target definitions
  have named {name : String} (hn : isName name.toList) :
      TypeExpr.WellFormed (.named name false []) := .named hn (by simp)
  have angleFormed : angle.WellFormed := by
    have known : ["unsigned", "long"] ∈ primitiveTypes := by decide
    refine .generic (by decide) (by simp) (List.forall_mem_singleton.mpr ?_) (by simp)
    exact .primitive known (List.forall_mem_singleton.mpr (.plain (by decide)))
  have targetFormed : target.WellFormed := by
    have known : ["long", "long"] ∈ primitiveTypes := by decide
    refine .union (by decide) (List.forall_mem_cons.mpr ⟨named (by decide), ?_⟩) (by simp)
    exact List.forall_mem_singleton.mpr (.primitive known (by simp))
  have kindsFormed : TypeExpr.WellFormed (.generic "sequence" [.named "Kind" false []] false []) :=
    .generic (by decide) (by simp) (List.forall_mem_singleton.mpr (named (by decide))) (by simp)
  have doubleFormed : TypeExpr.WellFormed (.named "double" false []) := by
    have known : ["double"] ∈ primitiveTypes := by decide
    exact .primitive known (by simp)
  have anyDefault : IsDefaultValue (quoted "any") := .quoted (by decide)
  have number : IsConstValue "-1.5e3" := by
    have exponent : IsExponent ('e' :: ([] ++ ['3'])) :=
      .intro (by simp) (by simp) (by simp) (by simp [IsDigits])
    have unsigned : IsUnsignedDecimal (['1'] ++ '.' :: (['5'] ++ ['e', '3'])) :=
      .point (by simp [IsDigits]) (by simp [IsDigits]) (by simp) (.inr exponent)
    exact .inr (.inr (.negative unsigned))
  have values : ∀ value ∈ ["", "a b"], '"' ∉ value.toList := by decide
  have formed : ∀ d ∈ definitions, d.IsDefinition := by
    refine List.forall_mem_cons.mpr ⟨⟨.interface (by decide) ?_ ?_, ?_⟩, List.forall_mem_cons.mpr
      ⟨⟨.dictionary (by decide) (by simp [Node.bare]) ?_, by simp⟩,
        List.forall_mem_singleton.mpr ⟨.enumeration (by decide) (by simp) values, by simp⟩⟩⟩
    · rintro _ ⟨⟩
      decide
    · refine List.forall_mem_cons.mpr ⟨⟨.attributeMember (by decide) angleFormed (by decide),
        List.forall_mem_singleton.mpr (.plain (by decide))⟩, List.forall_mem_singleton.mpr
        ⟨.operation (.inr (by decide)) (named (by decide)) rfl (List.forall_mem_cons.mpr ⟨?_,
          List.forall_mem_singleton.mpr ?_⟩) (by decide), by simp [Node.bare]⟩⟩
      · refine .optional (by decide) targetFormed ?_ (by simp)
        rintro _ ⟨⟩
        exact anyDefault
      · exact .required (by decide) (named (by decide)) rfl (by simp)
    · exact List.forall_mem_singleton.mpr (.value (by decide)
        (.identifierList (by simp) (by decide)))
    · refine List.forall_mem_cons.mpr ⟨.optional (by decide) kindsFormed rfl ?_ (by simp),
        List.forall_mem_singleton.mpr (.optional (by decide) doubleFormed rfl ?_ (by simp))⟩
      · rintro _ ⟨⟩
        exact .word (by decide)
      · rintro _ ⟨⟩
        exact .const number
  exact ⟨by decide +kernel, formed, parse_print_definitions formed⟩

end WebSpec.Idl
