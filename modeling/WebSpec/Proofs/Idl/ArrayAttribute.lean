import WebSpec.Proofs.Idl.Modernization
import WebSpec.Proofs.Idl.TypeToken
import WebSpec.Proofs.Idl.TypeTree

/-!
# Array attributes

An attribute whose type is written as a text without a space is read again when it is an array
attribute and the arrays are modernized: it then has frozen arrays of the same type
(`parse_normalize_attributeText`). What is read as the type are tokens of a type
(`exists_typeTokens`). A type stands between the tokens of the attribute or between the angle
brackets of the frozen array, and both places are frames on which the parser reads the same tokens
(`exists_frames`), so these tokens are put into the other text and mean the same type there
(`TypeTokens`). A type of two words is not modernized, and with its brackets it is refused
(`parse_normalize_attributeText_unsignedLong`).
-/

namespace WebSpec.Idl

open ContextFree (Derives ParseTree Stack)

/-! ### Texts -/

/-- An interface with one attribute of the type that the text says. -/
def attributeText (type : String) : String :=
  "interface A \x7b attribute " ++ type ++ " x; \x7d;"

theorem toList_attributeText (type : String) : (attributeText type).toList =
    "interface A \x7b ".toList ++
      (Legacy.attributeWord ++ ' ' :: (type.toList ++ " x; \x7d;".toList)) := by
  have split (a b c : String) : (a ++ b ++ c).toList = a.toList ++ (b.toList ++ c.toList) := by
    simp
  have front : "interface A \x7b attribute ".toList =
      "interface A \x7b ".toList ++ (Legacy.attributeWord ++ [' ']) := by decide
  refine (split _ type _).trans ?_
  rw [front, List.append_assoc, List.append_assoc]
  rfl

namespace Legacy

open Text (Apart replaceMatches)

variable {cs : List Char}

/-- In a text without an equals sign there are no serializers. -/
theorem modernizeSerializers_eq_self {text : String} (h : '=' ∉ text.toList) :
    modernizeSerializers text = text := by
  rw [modernizeSerializers, Text.replaceMatches_eq_self fun suffix hs => ?_, String.ofList_toList]
  rw [← Option.not_isSome_iff_eq_none, isSome_serializer_iff]
  rintro ⟨_, q, ⟨_, _⟩, -, rfl⟩
  exact h (hs.subset (by simp))

/-- What is before all array attributes stays as it is. -/
theorem replaceMatches_append_of_apart {front : List Char} (apart : Apart front attributeWord) :
    replaceMatches arrayAttribute (front ++ cs) = front ++ replaceMatches arrayAttribute cs := by
  induction front with
  | nil => rfl
  | cons c front ih =>
    have none : arrayAttribute (c :: (front ++ cs)) = none := by
      cases found : arrayAttribute (c :: (front ++ cs)) with
      | none => rfl
      | some m =>
        obtain ⟨spaces, word, rest, -, text, -⟩ := arrayAttribute_eq_some_iff.mp found
        have start : attributeWord <+: (c :: front) ++ cs := by
          rw [List.cons_append, text, arrayText_append]
          exact List.prefix_append _ _
        exact absurd start (apart.not_starts List.suffix_rfl (by simp))
    rw [List.cons_append, Text.replaceMatches_of_none none, ih apart.tail, List.cons_append]

/-- An array attribute is modernized if its type has neither spaces nor brackets. -/
theorem normalize_attributeText {type : String} (word : IsWord type.toList)
    (sign : '=' ∉ type.toList) :
    normalize (attributeText (type ++ "[]")) = attributeText ("FrozenArray<" ++ type ++ ">") := by
  have front : Apart "interface A \x7b ".toList attributeWord := by decide
  have behind : replaceMatches arrayAttribute " x; \x7d;".toList = " x; \x7d;".toList := by
    decide +kernel
  have text : (attributeText (type ++ "[]")).toList =
      "interface A \x7b ".toList ++ (arrayText 0 type.toList ++ " x; \x7d;".toList) := by
    rw [toList_attributeText, String.toList_append, arrayText_append, List.append_assoc]
    rfl
  have found : arrayAttribute (arrayText 0 type.toList ++ " x; \x7d;".toList) =
      some ⟨frozenText type.toList, (arrayText 0 type.toList).length⟩ :=
    arrayAttribute_eq_some_iff.mpr ⟨0, type.toList, " x; \x7d;".toList, word, rfl, rfl⟩
  have arrays : modernizeArrays (attributeText (type ++ "[]")) =
      attributeText ("FrozenArray<" ++ type ++ ">") := by
    rw [arrayText_eq_cons, List.cons_append] at found
    rw [modernizeArrays, text, replaceMatches_append_of_apart front, arrayText_eq_cons,
      List.cons_append, Text.replaceMatches_of_some found, ← arrayText_eq_cons, ← List.length_tail,
      List.drop_left, behind, ← String.toList_inj, String.toList_ofList,
      toList_attributeText, frozenText]
    simp only [String.toList_append, List.append_assoc, List.cons_append]
    rfl
  obtain ⟨opening, word', blank, array, close, ending⟩ :
      '=' ∉ "interface A \x7b ".toList ∧ '=' ∉ attributeWord ∧ '=' ≠ ' ' ∧
        '=' ∉ "FrozenArray<".toList ∧ '=' ∉ ">".toList ∧ '=' ∉ " x; \x7d;".toList := by decide
  rw [normalize, List.foldl_nil, arrays, modernizeSerializers_eq_self]
  simp only [toList_attributeText, String.toList_append, List.mem_append, List.mem_cons, not_or]
  exact ⟨opening, word', blank, ⟨⟨array, sign⟩, close⟩, ending⟩

end Legacy

/-! ### The tokens of the type -/

/-- No terminal is spelled like the names around a type. -/
theorem literal_ne_name : ∀ name ∈ ["A", "x", "FrozenArray"], ∀ t : Terminal,
    t.literal? ≠ some name := by
  have all : ∀ name ∈ ["A", "x", "FrozenArray"], ∀ t ∈ Terminal.all, t.literal? ≠ some name := by
    decide
  exact fun name hn t => all name hn t t.mem_all

theorem isPlain_name {name layout : String} (h : name ∈ ["A", "x", "FrozenArray"]) :
    (Token.mk .identifier layout name).IsPlain := by
  have names : ∀ name ∈ ["A", "x", "FrozenArray"], isName name.toList = true := by decide
  exact isPlain_of_unreserved (names name h) (literal_ne_name name h)

theorem plainBefore_attributeFront {behind : List Char}
    (separated : ∀ c ∈ behind.head?, c ∈ separators) : PlainBefore behind attributeFront := by
  refine .cons (isPlain_of_literal rfl) .nil ?_ (.cons (isPlain_name (by simp))
    isGap_space ?_ (.cons (isPlain_of_literal rfl) isGap_space ?_
      (.cons (isPlain_of_literal rfl) isGap_space (.inl separated) .nil)))
  all_goals exact .inl (by simp [textOf, separators, delimiters])

/-- Where the type of the attribute stands, and where the parameter of a frozen array stands that is
its type, a type is read in the same way. -/
theorem exists_frames : ∃ (frame frame' : Stack Token) (target : Nat),
    table.pushAll Token.code [] attributeFront = some frame ∧
      table.pushAll Token.code [] (attributeFront ++ frozenFront) = some frame' ∧
      2 ≤ frame.length ∧ table.Reframes Rule.annotatedType.code target frame frame' ∧
      table.Confines target [Terminal.identifier.code, Terminal.semicolon.code] :=
  ContextFree.Grammar.exists_frames madeOf_states nests_attributeType rfl rfl

theorem toList_attributeText_behind (type : String) : (attributeText type).toList =
    textOf attributeFront ++ ' ' :: (type.toList ++ " x; \x7d;".toList) := by
  have front : textOf attributeFront = "interface A \x7b ".toList ++ Legacy.attributeWord := by
    decide
  rw [toList_attributeText, front, List.append_assoc]

/-- What a phrase means does not depend on its layout. -/
theorem Phrase.relaid {symbol : ContextFree.Symbol} {words : List String} {ps : Pieces}
    {tree tree' : ParseTree Token} (h : Phrase [symbol] words ps [tree])
    (same : tree'.map Token.bare = tree.map Token.bare) : Phrase [symbol] words ps [tree'] := by
  have alike : ParseTree.mapAll Token.bare [tree'] = ParseTree.mapAll Token.bare [tree] := by
    simp [ParseTree.mapAll, same]
  obtain ⟨derives, words_eq, found, means, pieces⟩ := h
  refine ⟨?_, ?_, ?_⟩
  · obtain _ | ⟨first, others⟩ := derives
    rw [← derives_bare_iff, ← same, derives_bare_iff] at first
    exact .cons first others
  · have tokens := congrArg ParseTree.tokensOfAll alike
    rw [ParseTree.tokensOfAll_mapAll, ParseTree.tokensOfAll_mapAll] at tokens
    have texts : Token.text ∘ Token.bare = Token.text := rfl
    rw [← words_eq, ← texts, ← List.map_map, tokens, List.map_map]
  · obtain ⟨found', means', pieces'⟩ := exists_meaningOfAll_of_mapAll_eq alike means
    exact ⟨found', means', pieces'.trans pieces⟩

/-- The text of a type falls into tokens that mean the type, and blanks behind them. These tokens
are read where the type of the attribute stands and where the parameter of a frozen array stands,
with any layout before the first one. -/
structure TypeTokens (T : String) (type : TypeExpr) (first : Token) (inner : List Token)
    (blanks : List Char) : Prop where
  text_eq : T.toList = textOf (first :: inner) ++ blanks
  isGap : IsGap first.layout.toList
  isGap_blanks : IsGap blanks
  chars : ∀ c ∈ T.toList, isTypeChar c = true ∨ isLayoutChar c = true
  means : ∀ layout, ∃ words tree,
    Phrase [.nonterminal Rule.annotatedType.code] words [.type type] [tree] ∧
      tree.tokens = { first with layout := layout } :: inner
  reads : ∀ front ∈ [attributeFront, attributeFront ++ frozenFront], ∃ frame,
    table.pushAll Token.code [] front = some frame ∧
      ∀ {layout : String} {behind : List Char}, IsGap layout.toList →
        (∀ c ∈ behind.head?, c ∈ separators) →
        ∃ mid, Passage behind frame ({ first with layout := layout } :: inner) mid

/-- The tokens of a derivation of a type mean the type, with any layout before the first one. -/
theorem exists_phrase_of_derives {found : ParseTree Token} {first : Token} {inner : List Token}
    (derives : Derives grammar Token.code (.nonterminal Rule.annotatedType.code) found)
    (spelled : found.tokens = first :: inner) : ∃ type, ∀ layout, ∃ words tree,
      Phrase [.nonterminal Rule.annotatedType.code] words [.type type] [tree] ∧
        tree.tokens = { first with layout := layout } :: inner := by
  obtain ⟨type, phrase⟩ := exists_type_of_derives derives
  refine ⟨type, fun layout => ?_⟩
  have same : ({ first with layout := layout } :: inner).map Token.bare =
      found.tokens.map Token.bare := by
    rw [spelled]
    rfl
  obtain ⟨tree, alike, tokens⟩ := ParseTree.exists_map_eq found same
  exact ⟨_, tree, phrase.relaid alike, tokens⟩

/-- Behind the type of an attribute there are a name and a semicolon. -/
theorem ReadsBehind.exists_semicolon {gap : List Char} {code target : Nat}
    {frame final : Stack Token} {found tree : ParseTree Token} {t : Token} {rest : List Token}
    (reads : ReadsBehind gap code target frame found t rest final) (deep : 2 ≤ frame.length)
    (confined : table.Confines target [Terminal.identifier.code, Terminal.semicolon.code])
    (finished : table.finish final = some tree) :
    t.terminal = .identifier ∧ ∃ s others, rest = s :: others ∧ s.terminal = .semicolon := by
  obtain ⟨next, pushed, others⟩ := reads.pushed
  obtain ⟨name, confined, length⟩ := confined.push pushed
  refine ⟨Terminal.code_inj name, ?_⟩
  have long : 2 ≤ next.length := by
    rw [length, ContextFree.topWith, List.length_cons]
    omega
  cases others with
  | nil =>
    rw [confined.finish long] at finished
    cases finished
  | @cons _ _ _ s others _ pushed' _ =>
    obtain ⟨ends, -, -⟩ := confined.push pushed'
    exact ⟨s, others, rfl, Terminal.code_inj ends⟩

/-- The tokens of a type in a text without brackets are those of types without extended
attributes. -/
theorem isTypeToken_of_text {T rest : List Char} {found : ParseTree Token} {more : List Token}
    (derives : Derives grammar Token.code (.nonterminal Rule.annotatedType.code) found)
    (known : ∀ u ∈ found.tokens, ∃ accepted cs rest, u.Starts accepted cs rest)
    (plain : '[' ∉ T)
    (text : textOf (found.tokens ++ more) ++ rest = ' ' :: (T ++ " x; \x7d;".toList)) :
    ∀ u ∈ found.tokens, u.IsTypeToken := by
  refine isTypeToken_of_derives derives (by decide) fun u hu bracket => ?_
  obtain ⟨accepted, cs, behind, starts⟩ := known u hu
  have literal := starts.text_of_literal (show u.terminal.literal? = some "[" by rw [bracket]; rfl)
  have inside : '[' ∈ textOf (found.tokens ++ more) ++ rest :=
    List.mem_append_left _ (mem_textOf (List.mem_append_left _ hu) (by simp [literal]))
  rw [text] at inside
  simp [plain] at inside

/-- A text that is read as the type of the attribute falls into tokens of a type. -/
theorem exists_typeTokens {T : String} {definitions : List Node}
    (plain : ∀ c ∈ T.toList, c ∉ ['[', '/', ';'])
    (h : parse (attributeText T) = .ok definitions) :
    ∃ type first inner blanks, TypeTokens T type first inner blanks := by
  obtain ⟨frame, frame', target, pushed, pushed', deep, frames, confined⟩ := exists_frames
  obtain ⟨tree, ht, -⟩ := bind_eq_ok.mp h
  -- The text in front of the type is read onto the first frame.
  rw [parseTree, toList_attributeText_behind] at ht
  have front : Passage (' ' :: (T.toList ++ " x; \x7d;".toList)) [] attributeFront frame :=
    passage_of_plain (plainBefore_attributeFront (by simp [separators, delimiters])) pushed
  obtain ⟨last, offset, same⟩ := front.parseFrom_eq
  rw [same] at ht
  obtain ⟨tokens, gap, final, split, read, finished⟩ := exists_transcript_of_parseFrom ht
  have sound := ContextFree.Table.pushAll_sound madeOf_states.productions
    ContextFree.Stack.sound_nil pushed
  obtain ⟨first, inner, t, rest, found, rfl, spelled, reads, passage⟩ :=
    exists_passage frames.self deep sound read finished
  obtain ⟨name, s, others, rfl, ends⟩ := reads.exists_semicolon deep confined finished
  have known (u : Token) (hu : u ∈ first :: inner ++ [t, s]) :
      ∃ accepted cs rest, u.Starts accepted cs rest := by
    refine read.exists_starts ?_
    simp only [List.mem_append, List.mem_cons, List.not_mem_nil, or_false] at hu ⊢
    tauto
  have text : textOf (first :: inner ++ [t, s]) ++ (textOf others ++ gap) =
      ' ' :: (T.toList ++ " x; \x7d;".toList) := by
    rw [split]
    simp [textOf]
  have typed : ∀ u ∈ first :: inner, u.IsTypeToken := by
    rw [← spelled] at known text ⊢
    exact isTypeToken_of_text reads.derives (fun u hu => known u (List.mem_append_left _ hu))
      (fun h => plain _ h (by decide)) text
  obtain ⟨first', _, blanks, same', whole, isGap, isGap', chars⟩ := exists_of_text known typed
    (List.cons_ne_nil _ _) name ends (fun c hc other => plain c hc (List.mem_cons_of_mem _ other))
    text
  obtain ⟨rfl, rfl⟩ := List.cons.inj same'
  obtain ⟨type, means⟩ := exists_phrase_of_derives reads.derives spelled
  refine ⟨type, first', inner, blanks, whole, isGap, isGap', chars, means, ?_⟩
  exact List.forall_mem_cons.mpr ⟨⟨frame, pushed, fun {_ _} hl hb => passage frames.self hl hb⟩,
    List.forall_mem_singleton.mpr ⟨frame', pushed', fun {_ _} hl hb => passage frames hl hb⟩⟩

/-! ### Both texts -/

section

variable {words : List String} {node : Node} {root : ParseTree Token}
  (h : Phrase [.nonterminal Rule.start.code] words [.node node] [root])
include h

/-- The text of a phrase is parsed to what it means, if its tokens are read. -/
theorem parse_of_phrase (reads : ∀ final, table.pushAll Token.code [] root.tokens = some final →
      Passage [] [] root.tokens final) :
    ∃ parsed, parse (String.ofList (textOf root.tokens)) = .ok parsed ∧
      parsed.map Node.bare = [node.bare] := by
  obtain ⟨derives, -, found, means, same⟩ := h
  obtain _ | ⟨derives, others⟩ := derives
  have read := ContextFree.Table.parse?_of_derives complete_states madeOf_states
    (fun t => t.terminal.code_lt_width) endMark_lt_width derives
  obtain ⟨final, all, -⟩ := Option.bind_eq_some_iff.mp read
  have means' : meaning root = some found := by simpa [meaningOfAll] using means
  refine ⟨Pieces.nodes found, ?_, ?_⟩
  · rw [parse, parseTree_of_passage derives (reads final all)]
    simp [definitionsOf, means', bind, Except.bind, pure, Except.pure]
  · rw [← Pieces.nodes_bare, same]
    rfl

/-- Its tokens may be plain around a passage. -/
theorem parse_of_passage {front middle back : List Token} {frame mid : Stack Token}
    (tokens : root.tokens = front ++ (middle ++ back))
    (pushed : table.pushAll Token.code [] front = some frame)
    (before : PlainBefore (textOf (middle ++ back)) front)
    (passage : Passage (textOf back) frame middle mid) (behind : PlainBefore [] back) :
    ∃ parsed, parse (String.ofList (textOf (front ++ (middle ++ back)))) = .ok parsed ∧
      parsed.map Node.bare = [node.bare] := by
  rw [← tokens]
  refine parse_of_phrase h fun final all => ?_
  rw [tokens, pushAll_append, pushed, Option.bind_some, pushAll_append, passage.pushAll,
    Option.bind_some] at all
  have first := passage_of_plain before pushed
  have second := passage
  rw [← List.append_nil (textOf _)] at first second
  rw [tokens]
  exact first.append (second.append (passage_of_plain behind all))

end

theorem plainBefore_attributeEnd {layout : String} (isGap : IsGap layout.toList) :
    PlainBefore [] (attributeEnd layout) := by
  refine .cons (isPlain_name (by simp)) isGap ?_ (.cons (isPlain_of_literal rfl)
    .nil ?_ (.cons (isPlain_of_literal rfl) isGap_space ?_
      (.cons (isPlain_of_literal rfl) .nil ?_ .nil)))
  all_goals exact .inl (by simp [textOf, separators, marks, delimiters])

theorem plainBefore_frozenFront (behind : List Char) : PlainBefore behind frozenFront :=
  .cons (isPlain_name (by simp)) isGap_space
    (.inl (by simp [textOf, separators, marks]))
    (.cons (isPlain_of_literal rfl) .nil (.inr ⟨'<', by decide, rfl⟩) .nil)

theorem plainBefore_frozenEnd {layout : String} (isGap : IsGap layout.toList)
    (behind : List Char) : PlainBefore behind (frozenEnd layout) :=
  .cons (isPlain_of_literal rfl) isGap
    (.inr ⟨'>', by decide, show ">".toList = ['>'] by decide⟩) .nil

namespace TypeTokens

variable {T : String} {type : TypeExpr} {first : Token} {inner : List Token} {blanks : List Char}

/-- The attribute is parsed. -/
theorem parse_attributeText (h : TypeTokens T type first inner blanks) :
    ∃ parsed, parse (attributeText T) = .ok parsed ∧
      parsed.map Node.bare = [interfaceNode type] := by
  have front : IsGap (" " ++ first.layout).toList := by
    rw [String.toList_append]
    exact .blank (by decide) h.isGap
  have behind : IsGap (String.ofList (blanks ++ [' '])).toList := by
    rw [String.toList_ofList]
    exact h.isGap_blanks.append isGap_space
  obtain ⟨words, tree, phrase, tokens⟩ := h.means (" " ++ first.layout)
  obtain ⟨words', root, phrase, tokens'⟩ :=
    phrase.exists_attribute (String.ofList (blanks ++ [' ']))
  rw [tokens] at tokens'
  obtain ⟨frame, pushed, passage⟩ := h.reads attributeFront (by simp)
  have separated : ∀ c ∈ (textOf (attributeEnd (String.ofList (blanks ++ [' '])))).head?,
      c ∈ separators := by
    rw [attributeEnd, textOf_cons, String.toList_ofList, List.append_assoc]
    exact h.isGap_blanks.separated (by simp [separators, delimiters])
  obtain ⟨mid, middle⟩ := passage front separated
  obtain ⟨parsed, read, same⟩ := parse_of_passage phrase tokens' pushed
    (plainBefore_attributeFront (by simp [textOf_cons, separators, delimiters])) middle
    (plainBefore_attributeEnd behind)
  refine ⟨parsed, ?_, same⟩
  rw [← read, ← String.ofList_toList (s := attributeText T), toList_attributeText_behind, h.text_eq]
  simp [textOf, attributeEnd]

/-- So is the attribute of frozen arrays of the type. -/
theorem parse_frozenArray (h : TypeTokens T type first inner blanks) :
    ∃ parsed, parse (attributeText ("FrozenArray<" ++ T ++ ">")) = .ok parsed ∧
      parsed.map Node.bare = [interfaceNode (frozenArray type)] := by
  obtain ⟨words, tree, phrase, tokens⟩ := h.means first.layout
  obtain ⟨words', tree', phrase, tokens'⟩ :=
    phrase.exists_frozenArray (String.ofList blanks)
  obtain ⟨words', root, phrase, tokens''⟩ := phrase.exists_attribute " "
  have parts : root.tokens = (attributeFront ++ frozenFront) ++ ((first :: inner) ++
      (frozenEnd (String.ofList blanks) ++ attributeEnd " ")) := by
    rw [tokens'', tokens', tokens]
    simp
  obtain ⟨frame, pushed, passage⟩ := h.reads (attributeFront ++ frozenFront) (by simp)
  have back : textOf (frozenEnd (String.ofList blanks) ++ attributeEnd " ") =
      blanks ++ (">".toList ++ " x; \x7d;".toList) := by
    rw [frozenEnd, List.singleton_append, textOf_cons, String.toList_ofList]
    rfl
  have separated :
      ∀ c ∈ (textOf (frozenEnd (String.ofList blanks) ++ attributeEnd " ")).head?,
        c ∈ separators := by
    rw [back]
    exact h.isGap_blanks.separated (by simp [separators, marks])
  obtain ⟨mid, middle⟩ := passage h.isGap separated
  have gap : IsGap (String.ofList blanks).toList := by
    rw [String.toList_ofList]
    exact h.isGap_blanks
  obtain ⟨parsed, read, same⟩ := parse_of_passage phrase parts pushed
    ((plainBefore_attributeFront
      (by simp [textOf_cons, frozenFront, separators, delimiters])).append
        (plainBefore_frozenFront _)) middle
    ((plainBefore_frozenEnd gap _).append (plainBefore_attributeEnd isGap_space))
  refine ⟨parsed, ?_, same⟩
  have front : textOf frozenFront = " FrozenArray<".toList := by decide
  have whole : (attributeText ("FrozenArray<" ++ T ++ ">")).toList =
      textOf ((attributeFront ++ frozenFront) ++ ((first :: inner) ++
        (frozenEnd (String.ofList blanks) ++ attributeEnd " "))) := by
    rw [toList_attributeText_behind, textOf_append, textOf_append, textOf_append, front, back]
    simp only [String.toList_append, h.text_eq, List.append_assoc]
    rfl
  rw [← read, ← whole, String.ofList_toList]

end TypeTokens

/-- An attribute whose type has no spaces is parsed, and so is the array attribute of the same type
once it is modernized: as an attribute whose values are frozen arrays of the type. -/
theorem parse_normalize_attributeText {T : String} {definitions : List Node}
    (plain : ∀ c ∈ T.toList, c ∉ [' ', '[', '/', ';'])
    (h : parse (attributeText T) = .ok definitions) :
    ∃ type normalized, definitions.map Node.bare = [interfaceNode type] ∧
      parse (Legacy.normalize (attributeText (T ++ "[]"))) = .ok normalized ∧
      normalized.map Node.bare = [interfaceNode (frozenArray type)] := by
  obtain ⟨type, first, inner, blanks, tokens⟩ :=
    exists_typeTokens (fun c hc other => plain c hc (List.mem_cons_of_mem _ other)) h
  obtain ⟨parsed, read, same⟩ := tokens.parse_attributeText
  obtain ⟨normalized, read', same'⟩ := tokens.parse_frozenArray
  obtain rfl : definitions = parsed := Except.ok.inj (h.symm.trans read)
  have word : Legacy.IsWord T.toList :=
    ⟨fun h => plain _ h (by decide), fun h => plain _ h (by decide)⟩
  have sign : '=' ∉ T.toList := fun h => absurd (tokens.chars _ h) (by decide)
  refine ⟨type, normalized, same, ?_, same'⟩
  rw [Legacy.normalize_attributeText word sign, read']

/-! ### Types of two words -/

theorem layoutLength_bracketOpen (cs : List Char) : layoutLength ('[' :: cs) = 0 := by
  rw [layoutLength, layoutLength?_eq_zero (by simp [delimiters]), Option.getD_some]

/-- A token at an opening bracket is that bracket. -/
theorem Token.Starts.bracketOpen {t : Token} {accepted : ContextFree.TerminalSet}
    {cs rest : List Char} (h : t.Starts accepted ('[' :: cs) rest) :
    t.terminal = .bracketOpen := by
  have layout : t.layout.toList = [] := by
    rw [← List.length_eq_zero_iff, ← h.layoutLength, layoutLength_bracketOpen]
  obtain ⟨c, others, text⟩ := List.exists_cons_of_ne_nil h.filled
  have split := h.split
  rw [layout, text] at split
  obtain rfl : '[' = c := (List.cons.inj split).1
  have spelled := isSpelled_of_starts h
  obtain ⟨-, -, -, kind | ⟨literal, hl, -⟩⟩ := nextToken?_spec h.found
  · -- No name, number or quoted text starts with a bracket.
    have plain : startsNoNumber ('[' :: others) = true := rfl
    simp only [List.mem_cons, List.not_mem_nil, or_false] at kind
    rcases kind with kind | kind | kind | kind
    · simpa [text, plain] using spelled.number (.inr kind)
    · simpa [text, plain] using spelled.number (.inl kind)
    · have name := isNameChar_of_isIdentifier (spelled.name kind) '[' (by simp [text])
      exact absurd name (by decide)
    · obtain ⟨content, same⟩ := spelled.string kind
      rw [same] at text
      simp [quoted] at text
  · have inside : '[' ∈ literal.toList := by
      rw [← spelled.literal literal hl, text]
      exact List.mem_cons_self
    have mark : literal = "[" :=
      String.toList_inj.mp (Terminal.literal_of_mark hl (by decide) inside)
    exact Terminal.eq_of_literal (show Terminal.bracketOpen.literal? = some literal by
      rw [mark]; rfl) hl

/-- The words of a type with two of them. -/
def unsignedLong : List Token :=
  [⟨.kwUnsigned, " ", "unsigned"⟩, ⟨.kwLong, " ", "long"⟩]

theorem plainBefore_unsignedLong {behind : List Char}
    (separated : ∀ c ∈ behind.head?, c ∈ separators) : PlainBefore behind unsignedLong :=
  .cons (isPlain_of_literal rfl) isGap_space
    (.inl (by simp [textOf, separators, delimiters]))
    (.cons (isPlain_of_literal rfl) isGap_space (.inl separated) .nil)

/-- The words mean a type. -/
theorem exists_phrase_unsignedLong : ∃ words tree,
    Phrase [.nonterminal Rule.annotatedType.code] words [.type (.named "unsigned long" false [])]
      [tree] ∧ tree.tokens = unsignedLong := by
  have primitive : ⟨.primitiveType, .primitiveType,
      [maybe [token .kwUnsigned], token .kwLong, maybe [token .kwLong]]⟩ ∈ alternatives := by decide
  have single : ⟨.singleType, .part, [rule .primitiveType]⟩ ∈ alternatives := by decide
  have plain : ⟨.type, .type, [rule .singleType, maybe [token .questionMark]]⟩ ∈ alternatives := by
    decide
  have annotated : ⟨.annotatedType, .annotatedType, [maybe [rule .attributeList], rule .type]⟩ ∈
      alternatives := by decide
  have parts := (phrase_text .kwUnsigned " " "unsigned").append (phrase_text .kwLong " " "long")
  have spelled : " ".intercalate ["unsigned", "long"] = "unsigned long" := by decide
  obtain ⟨_, phrase⟩ := parts.exists_combine primitive (by decide)
    (show _ = some (.type (.named "unsigned long" false [])) by rw [← spelled]; rfl)
  obtain ⟨_, phrase⟩ := phrase.exists_group single (by decide)
  obtain ⟨_, phrase⟩ := phrase.exists_combine plain (by decide) rfl
  obtain ⟨_, phrase⟩ := phrase.exists_combine annotated (by decide) rfl
  exact ⟨_, _, phrase, by simp [ParseTree.tokens, ParseTree.tokensOfAll, unsignedLong]⟩

/-- Behind the words a bracket is refused. -/
theorem parse_brackets {rest : List Char} {text : String}
    (h : text.toList = textOf (attributeFront ++ unsignedLong) ++ '[' :: rest) :
    ∃ e, parse text = .error e := by
  have codes : twoWordPath.map Terminal.code =
      (attributeFront ++ unsignedLong).map Token.code := by decide
  have refuses := refuses_brackets
  rw [codes] at refuses
  obtain ⟨stack, pushed, refused⟩ := madeOf_states.exists_refusal refuses
  have words : PlainBefore ('[' :: rest) unsignedLong :=
    plainBefore_unsignedLong (by simp [separators, marks])
  have front : PlainBefore (textOf unsignedLong ++ '[' :: rest) attributeFront :=
    plainBefore_attributeFront (by simp [unsignedLong, textOf_cons, separators, delimiters])
  obtain ⟨last, offset, same⟩ := (passage_of_plain (front.append words) pushed).parseFrom_eq
  cases read : parse text with
  | error e => exact ⟨e, rfl⟩
  | ok definitions =>
    obtain ⟨tree, ht, -⟩ := bind_eq_ok.mp read
    rw [parseTree, h, same] at ht
    rcases end_or_token_of_parseFrom ht with ⟨empty, -⟩ | ⟨t, behind, next, starts, -⟩
    · rw [layoutLength_bracketOpen] at empty
      cases empty
    · have accepted := starts.accepts
      rw [Token.code, starts.bracketOpen, refused] at accepted
      cases accepted

/-- An array attribute whose type has two words is not modernized and is refused, though the
attribute is parsed. -/
theorem parse_normalize_attributeText_unsignedLong :
    (∃ definitions, parse (attributeText "unsigned long") = .ok definitions ∧
      definitions.map Node.bare = [interfaceNode (.named "unsigned long" false [])]) ∧
    ∃ e, parse (Legacy.normalize (attributeText ("unsigned long" ++ "[]"))) = .error e := by
  constructor
  · obtain ⟨words, tree, phrase, tokens⟩ := exists_phrase_unsignedLong
    obtain ⟨words', root, phrase, tokens'⟩ := phrase.exists_attribute " "
    have plain : PlainBefore [] (attributeFront ++ (unsignedLong ++ attributeEnd " ")) := by
      refine (plainBefore_attributeFront ?_).append ((plainBefore_unsignedLong ?_).append
        (plainBefore_attributeEnd isGap_space))
      all_goals simp [unsignedLong, attributeEnd, textOf_cons, separators, delimiters]
    have text : attributeText "unsigned long" = String.ofList (textOf root.tokens) := by
      rw [tokens', tokens]
      decide
    rw [text]
    refine parse_of_phrase phrase fun final pushed => ?_
    rw [tokens', tokens] at pushed ⊢
    exact passage_of_plain plain pushed
  · have same : Legacy.normalize (attributeText ("unsigned long" ++ "[]")) =
        attributeText ("unsigned long" ++ "[]") := by decide +kernel
    rw [same]
    exact parse_brackets (show _ = _ ++ '[' :: "] x; \x7d;".toList by decide)

end WebSpec.Idl
