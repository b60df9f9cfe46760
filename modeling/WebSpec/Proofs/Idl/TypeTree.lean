import WebSpec.Proofs.Idl.RoundTrip
import WebSpec.Proofs.Idl.Totality

/-!
# Trees around a type

Any derivation of a type means a type (`exists_type_of_derives`). Between the tokens of an interface
with one attribute it makes that interface (`Phrase.exists_attribute`), and between those of a
frozen array it makes another type (`Phrase.exists_frozenArray`).
-/

namespace WebSpec.Idl

open ContextFree (Derives DerivesAll ParseTree Pattern Symbol)

section
variable {r : Rule} {construct : Construct} {parts : List Pattern} {right : List Symbol}
  {words : List String} {ps : Pieces} {piece : Piece} {trees : List (ParseTree Token)}

theorem Phrase.exists_combine (h : Phrase right words ps trees)
    (ha : ⟨r, construct, parts⟩ ∈ alternatives) (hr : right ∈ (Pattern.ofList parts).expand)
    (combined : construct.combine ps = some piece) :
    ∃ number, Phrase [.nonterminal r.code] words [piece] [.node number trees] := by
  obtain ⟨number, hp, hc⟩ := exists_number ha hr
  exact ⟨number, h.combine hp hc combined⟩

theorem Phrase.exists_group (h : Phrase right words ps trees)
    (ha : ⟨r, .part, parts⟩ ∈ alternatives) (hr : right ∈ (Pattern.ofList parts).expand) :
    ∃ number, Phrase [.nonterminal r.code] words ps [.node number trees] := by
  obtain ⟨number, hp, hc⟩ := exists_number ha hr
  exact ⟨number, h.group hp hc⟩

end

/-- All productions of a type that may have extended attributes have the same construct. -/
theorem sole_annotatedType : ∀ p ∈ productions,
    p.2.left = Rule.annotatedType.code → p.1 = .annotatedType := by
  decide +kernel

/-- A derivation of a type means a type. -/
theorem exists_type_of_derives {tree : ParseTree Token}
    (h : Derives grammar Token.code (.nonterminal Rule.annotatedType.code) tree) :
    ∃ type, Phrase [.nonterminal Rule.annotatedType.code] (tree.tokens.map Token.text)
      [.type type] [tree] := by
  obtain ⟨ps, means, served⟩ := exists_meaning h
  have whole : meaningOfAll [tree] = some ps := by simp [meaningOfAll, means]
  obtain ⟨type, same⟩ : ∃ type, ps = [.type type] := by
    obtain ⟨number, p, children, rfl, hp, left, -⟩ := h.exists_children
    obtain ⟨construct, hc, mem⟩ := exists_construct hp
    obtain rfl : construct = .annotatedType := sole_annotatedType _ mem left
    obtain ⟨inner, -, means⟩ := Option.bind_eq_some_iff.mp means
    simp only [hc, Option.bind_eq_bind, Option.bind_some] at means
    obtain ⟨piece, combined, means⟩ := Option.bind_eq_some_iff.mp means
    obtain ⟨type, -, combined⟩ := Option.bind_eq_some_iff.mp combined
    obtain rfl := Option.some.inj combined
    exact ⟨_, (Option.some.inj means).symm⟩
  exact ⟨type, ⟨.cons h .nil, by simp [ParseTree.tokensOfAll], ps, whole, by rw [same]⟩⟩

/-! ### Frozen arrays -/

theorem phrase_text (terminal : Terminal) (layout text : String) :
    Phrase [.terminal terminal.code] [text] [.token ⟨terminal, layout, text⟩]
      [.leaf ⟨terminal, layout, text⟩] :=
  phrase_token ⟨terminal, layout, text⟩

/-- The tokens in front of the parameter of a frozen array. -/
def frozenFront : List Token :=
  [⟨.identifier, " ", "FrozenArray"⟩, ⟨.lessThan, "", "<"⟩]

/-- The token behind it. -/
def frozenEnd (layout : String) : List Token :=
  [⟨.moreThan, layout, ">"⟩]

/-- The type of frozen arrays. -/
def frozenArray (type : TypeExpr) : TypeExpr :=
  .generic "FrozenArray" [type] false []

variable {words : List String} {type : TypeExpr} {tree : ParseTree Token}

/-- Between angle brackets a type makes a type. -/
theorem Phrase.exists_frozenArray
    (h : Phrase [.nonterminal Rule.annotatedType.code] words [.type type] [tree])
    (layout : String) : ∃ words' tree', Phrase [.nonterminal Rule.annotatedType.code] words'
        [.type (frozenArray type)] [tree'] ∧
      tree'.tokens = frozenFront ++ (tree.tokens ++ frozenEnd layout) := by
  have generic : ⟨.genericType, .genericType,
      [token .identifier, token .lessThan, rule .annotatedType, maybe [rule .moreTypes],
       token .moreThan]⟩ ∈ alternatives := by decide
  have single : ⟨.singleType, .part, [rule .genericType]⟩ ∈ alternatives := by decide
  have plain : ⟨.type, .type, [rule .singleType, maybe [token .questionMark]]⟩ ∈ alternatives := by
    decide
  have annotated : ⟨.annotatedType, .annotatedType, [maybe [rule .attributeList], rule .type]⟩ ∈
      alternatives := by decide
  have parts := ((phrase_text .identifier " " "FrozenArray").append
    (phrase_text .lessThan "" "<")).append (h.append (phrase_text .moreThan layout ">"))
  obtain ⟨_, phrase⟩ := parts.exists_combine generic (by decide) rfl
  obtain ⟨_, phrase⟩ := phrase.exists_group single (by decide)
  obtain ⟨_, phrase⟩ := phrase.exists_combine plain (by decide) rfl
  obtain ⟨_, phrase⟩ := phrase.exists_combine annotated (by decide) rfl
  exact ⟨_, _, phrase, by simp [ParseTree.tokens, ParseTree.tokensOfAll, frozenFront,
    frozenEnd]⟩

/-! ### Attributes -/

/-- A name has no underscore in front to be left out. -/
theorem Token.name_eq_text {t : Token} (h : isName t.text.toList) : t.name = t.text := by
  unfold Token.name
  split
  · rename_i rest spelled
    rw [spelled] at h
    exact absurd (isAlpha_of_isName h) (by decide)
  · rfl

/-- The tokens in front of the type of the attribute. -/
def attributeFront : List Token :=
  [⟨.kwInterface, "", "interface"⟩, ⟨.identifier, " ", "A"⟩, ⟨.braceOpen, " ", "\x7b"⟩,
    ⟨.kwAttribute, " ", "attribute"⟩]

/-- The tokens behind it. -/
def attributeEnd (layout : String) : List Token :=
  [⟨.identifier, layout, "x"⟩, ⟨.semicolon, "", ";"⟩, ⟨.braceClose, " ", "\x7d"⟩,
    ⟨.semicolon, "", ";"⟩]

/-- An attribute. -/
def attributeNode (type : TypeExpr) : Node :=
  { kind := .known .attributeMember, name := "x", type := some type }

/-- An interface with one attribute. -/
def interfaceNode (type : TypeExpr) : Node :=
  { kind := .known .interface, name := "A", members := [attributeNode type] }

/-- With the tokens around it, a type makes an interface with an attribute. -/
theorem Phrase.exists_attribute
    (h : Phrase [.nonterminal Rule.annotatedType.code] words [.type type] [tree])
    (layout : String) : ∃ words' root, Phrase [.nonterminal Rule.start.code] words'
        [.node (interfaceNode type)] [root] ∧
      root.tokens = attributeFront ++ (tree.tokens ++ attributeEnd layout) := by
  have name : Token.name ⟨.identifier, layout, "x"⟩ = "x" :=
    Token.name_eq_text (show isName "x".toList = true by decide)
  have declaration : ⟨.attributeMember, .attributeMember,
      [maybe [token .kwInherit], maybe [token .kwReadonly], token .kwAttribute,
       rule .annotatedType, token .identifier, token .semicolon]⟩ ∈ alternatives := by decide
  have choice : ⟨.memberBody, .part, [rule .attributeMember]⟩ ∈ alternatives := by decide
  have member : ⟨.interfaceMember, .interfaceMember,
      [maybe [rule .attributeList], rule .memberBody]⟩ ∈ alternatives := by decide
  have members : ⟨.interfaceMembers, .part, [rule .interfaceMember]⟩ ∈ alternatives := by decide
  have interface : ⟨.interface, .interface,
      [maybe [token .kwPartial], token .kwInterface, token .identifier,
        maybe [rule .inheritance]] ++ body .interfaceMembers⟩ ∈ alternatives := by decide
  have form : ⟨.definitionBody, .part, [rule .interface]⟩ ∈ alternatives := by decide
  have definition : ⟨.definition, .definition,
      [maybe [rule .attributeList], rule .definitionBody]⟩ ∈ alternatives := by decide
  have definitions : ⟨.definitions, .part, [rule .definition]⟩ ∈ alternatives := by decide
  have start : ⟨.start, .part, [maybe [rule .definitions]]⟩ ∈ alternatives := by decide
  have parts := (phrase_text .kwAttribute " " "attribute").append (h.append
    ((phrase_text .identifier layout "x").append (phrase_text .semicolon "" ";")))
  obtain ⟨_, phrase⟩ := parts.exists_combine declaration (by decide)
    (show _ = some (.node (attributeNode type)) by
      simp [Construct.combine, attributeNode, Pieces.name?, Pieces.names, Pieces.tokensOf,
        Pieces.tokens, Pieces.types, Pieces.has, name])
  obtain ⟨_, phrase⟩ := phrase.exists_group choice (by decide)
  obtain ⟨_, phrase⟩ := phrase.exists_combine member (by decide)
    (show _ = some (.node (attributeNode type)) from rfl)
  obtain ⟨_, phrase⟩ := phrase.exists_group members (by decide)
  have parts := ((phrase_text .kwInterface "" "interface").append
    ((phrase_text .identifier " " "A").append
      (phrase_text .braceOpen " " "\x7b"))).append (phrase.append
    ((phrase_text .braceClose " " "\x7d").append (phrase_text .semicolon "" ";")))
  obtain ⟨_, phrase⟩ := parts.exists_combine interface (by decide)
    (show _ = some (.node (interfaceNode type)) from rfl)
  obtain ⟨_, phrase⟩ := phrase.exists_group form (by decide)
  obtain ⟨_, phrase⟩ := phrase.exists_combine definition (by decide)
    (show _ = some (.node (interfaceNode type)) from rfl)
  obtain ⟨_, phrase⟩ := phrase.exists_group definitions (by decide)
  obtain ⟨_, phrase⟩ := phrase.exists_group start (by decide)
  exact ⟨_, _, phrase, by simp [ParseTree.tokens, ParseTree.tokensOfAll, attributeFront,
    attributeEnd]⟩

end WebSpec.Idl
