import WebSpec.Proofs.Idl.Passage
import WebSpec.Proofs.Idl.Respelling
import WebSpec.Proofs.Idl.Underscore

/-!
# Names may be escaped

An underscore in front of names of an accepted text leaves its definitions as they are, up to their
fragments: `parse_escaped`. The own names of extended attributes are the exception, since they keep
their underscores.

The parser finds the same tokens. The two texts behind a token are the same up to the first letter
that has an underscore in front of it (`Forks`), and neither the token before nor the name itself is
another one then (`nextToken?_underscore`, `nextToken?_escaped`).
-/

namespace WebSpec.Idl

open ContextFree (Derives DerivesAll ParseTree Pattern Symbol TerminalSet)

variable {gap : List Char} {tokens tokens' : List Token}

/-! ### Texts -/

/-- Two texts are the same up to a place where the first one has a letter and the second one an
underscore, or altogether. -/
def Forks (cs cs' : List Char) : Prop :=
  cs' = cs ∨ ∃ common a more more', Char.isAlpha a = true ∧ cs = common ++ a :: more ∧
    cs' = common ++ '_' :: more'

theorem Forks.append {cs cs' : List Char} (h : Forks cs cs') (front : List Char) :
    Forks (front ++ cs) (front ++ cs') := by
  rcases h with rfl | ⟨common, a, more, more', alpha, rfl, rfl⟩
  · exact .inl rfl
  · exact .inr ⟨front ++ common, a, more, more', alpha, by simp, by simp⟩

/-- Where one text has nothing that may be in a name, the other one has not either. -/
theorem Forks.not_isNameChar {cs cs' : List Char} (h : Forks cs cs')
    (stop : ∀ c ∈ cs.head?, isNameChar c = false) : ∀ c ∈ cs'.head?, isNameChar c = false := by
  rcases h with rfl | ⟨_ | ⟨first, common⟩, a, more, more', alpha, rfl, rfl⟩
  · exact stop
  · have inside : isNameChar a = false := stop a rfl
    simp [isNameChar, Char.isAlphanum, alpha] at inside
  · exact stop

/-- The texts of tokens fork at the first of them that is escaped. -/
theorem forks_textOf (gap : List Char) (h : List.Forall₂ Token.Escapes tokens tokens') :
    Forks (textOf tokens ++ gap) (textOf tokens' ++ gap) := by
  induction h with
  | nil => exact .inl rfl
  | @cons t t' tokens tokens' first _ ih =>
    simp only [textOf_cons, List.append_assoc]
    cases first with
    | kept => exact (ih.append t.text.toList).append t.layout.toList
    | escaped _ letter =>
      obtain ⟨a, ha, alpha⟩ := letter
      obtain ⟨others, ha⟩ := List.head?_eq_some_iff.mp ha
      refine .inr ⟨t.layout.toList, a, others ++ (textOf tokens ++ gap),
        t.text.toList ++ (textOf tokens' ++ gap), alpha, ?_, ?_⟩
      · rw [ha, List.cons_append]
      · rw [toList_escape, List.cons_append]

/-- What comes next is the same in texts that fork behind it. -/
theorem nextToken?_of_forks {accepted : TerminalSet} {front cs cs' : List Char} {t : Terminal}
    {n : Nat} (forks : Forks cs cs') (h : nextToken? accepted (front ++ cs) = some (t, n))
    (bound : n ≤ front.length) : nextToken? accepted (front ++ cs') = some (t, n) := by
  rcases forks with rfl | ⟨common, a, more, more', alpha, rfl, rfl⟩
  · exact h
  · rw [← List.append_assoc] at h ⊢
    refine nextToken?_underscore alpha h ?_
    rw [List.length_append]
    exact Nat.le_add_right_of_le bound

/-- A token is found when it and some of those behind it are escaped. -/
theorem Token.Starts.escaped {t t' : Token} {accepted : TerminalSet}
    (starts : t.Starts accepted (textOf (t :: tokens) ++ gap) (textOf tokens ++ gap))
    (first : t.Escapes t') (others : List.Forall₂ Token.Escapes tokens tokens') :
    t'.Starts accepted (textOf (t' :: tokens') ++ gap) (textOf tokens' ++ gap) := by
  have forks := forks_textOf gap others
  refine ⟨by simp only [textOf_cons, List.append_assoc], by cases first <;> exact starts.isGap, ?_⟩
  cases first with
  | kept =>
    refine nextToken?_of_forks forks starts.found ?_
    rw [String.length_toList]
  | escaped identifier letter =>
    obtain ⟨a, head, alpha⟩ := letter
    have name : isName t.text.toList = true :=
      isName_of_isIdentifier ((isSpelled_of_starts starts).name identifier) head alpha
    have length : nameLength? (t.text.toList ++ (textOf tokens ++ gap)) =
        some t.text.toList.length := by
      rw [String.length_toList]
      exact nextToken?_length starts.found (by rw [identifier]; rfl)
    have named : accepted.has Terminal.identifier.code = true := identifier ▸ starts.accepts
    have found := nextToken?_escaped name named
      (forks.not_isNameChar (not_isNameChar_of_nameLength? length))
    rw [identifier, toList_escape, ← String.length_toList, toList_escape]
    exact found

/-- Names may be escaped. An accepted text consists of tokens with layout before each of them and
behind the last one. With an underscore in front of any of its names that begin with a letter, but
for the own names of extended attributes, it is accepted and has the same definitions, up to their
fragments. -/
theorem parse_escaped {text : String} {definitions : List Node} (h : parse text = .ok definitions) :
    ∃ tree gap, parseTree text = .ok tree ∧ text.toList = textOf tree.tokens ++ gap ∧
      (sites .part tree).map Site.token = tree.tokens ∧
      ∀ tokens', List.Forall₂ Site.Escapes (sites .part tree) tokens' →
        ∃ definitions', parse (String.ofList (textOf tokens' ++ gap)) = .ok definitions' ∧
          definitions'.map Node.bare = definitions.map Node.bare := by
  obtain ⟨tree, ht, h⟩ := bind_eq_ok.mp h
  obtain rfl := Except.ok.inj h
  obtain ⟨gap, final, split, read, finished⟩ := parseTree_eq_ok_iff.mp ht
  refine ⟨tree, gap, ht, split, map_token_sites _ tree, fun tokens' escapes => ?_⟩
  have related : List.Forall₂ Token.Escapes tree.tokens tokens' := by
    rw [← map_token_sites .part tree, List.forall₂_map_left_iff]
    exact escapes.imp fun _ _ => Site.Escapes.token
  obtain ⟨tree', read', alike, tokens⟩ := read.exists_parseTree
    (fun first => ⟨first.kind_eq, congrArg (·.terminal.code) first.kind_eq⟩)
    (fun first others starts => starts.escaped first others) read.closes finished related
  have spelled : ∀ t ∈ tree.tokens, t.IsSpelled := fun t member => by
    obtain ⟨accepted, cs, rest, starts⟩ := read.exists_starts member
    exact isSpelled_of_starts starts
  refine ⟨(definitionsOf tree').getD [], ?_,
    definitionsOf_of_escapes (derives_of_parseTree ht) spelled alike (tokens ▸ escapes)⟩
  rw [parse, read']
  rfl

/-! ### A statement with an extended attribute -/

/-- The trees of a right side make a tree of the rule. -/
theorem exists_derives_node {r : Rule} {construct : Construct} {parts : List Pattern}
    {right : List Symbol} {trees : List (ParseTree Token)}
    (derives : DerivesAll grammar Token.code right trees)
    (ha : ⟨r, construct, parts⟩ ∈ alternatives)
    (hr : right ∈ (Pattern.ofList parts).expand) :
    ∃ number : Nat, constructs[number]? = some construct ∧
      Derives grammar Token.code (.nonterminal r.code) (.node number trees) := by
  obtain ⟨number, hp, hc⟩ := exists_number ha hr
  exact ⟨number, hc, .node hp derives⟩

/-- The tokens of `[Exposed=Window] Window includes Lens;`. -/
def statementSites : List Site :=
  [⟨.attributeList, false, ⟨.bracketOpen, "", "["⟩⟩,
   ⟨.valueAttribute, true, ⟨.identifier, "", "Exposed"⟩⟩,
   ⟨.valueAttribute, false, ⟨.equals, "", "="⟩⟩,
   ⟨.identifierValue, false, ⟨.identifier, "", "Window"⟩⟩,
   ⟨.attributeList, false, ⟨.bracketClose, "", "]"⟩⟩,
   ⟨.includesStatement, false, ⟨.identifier, " ", "Window"⟩⟩,
   ⟨.includesStatement, false, ⟨.kwIncludes, " ", "includes"⟩⟩,
   ⟨.includesStatement, false, ⟨.identifier, " ", "Lens"⟩⟩,
   ⟨.includesStatement, false, ⟨.semicolon, "", ";"⟩⟩]

theorem exists_tree_statement : ∃ tree : ParseTree Token,
    Derives grammar Token.code (.nonterminal Rule.start.code) tree ∧
      sites .part tree = statementSites := by
  have value : ⟨.attributeValue, .identifierValue, [token .identifier]⟩ ∈ alternatives := by decide
  have own : ⟨.extendedAttribute, .valueAttribute,
    [token .identifier, token .equals, rule .attributeValue]⟩ ∈ alternatives := by decide
  have list : ⟨.attributeList, .attributeList, [token .bracketOpen, rule .extendedAttribute,
    maybe [rule .moreAttributes], maybe [token .comma], token .bracketClose]⟩ ∈ alternatives := by
    decide
  have includes : ⟨.includesStatement, .includesStatement,
    [token .identifier, token .kwIncludes, token .identifier, token .semicolon]⟩ ∈
      alternatives := by decide
  have body : ⟨.definitionBody, .part, [rule .includesStatement]⟩ ∈ alternatives := by decide
  have definition : ⟨.definition, .definition,
    [maybe [rule .attributeList], rule .definitionBody]⟩ ∈ alternatives := by decide
  have definitions : ⟨.definitions, .part, [rule .definition]⟩ ∈ alternatives := by decide
  have start : ⟨.start, .part, [maybe [rule .definitions]]⟩ ∈ alternatives := by decide
  obtain ⟨_, hv, derived⟩ :=
    exists_derives_node (.cons (.leaf ⟨.identifier, "", "Window"⟩) .nil) value (by decide)
  obtain ⟨_, ho, derived⟩ :=
    exists_derives_node (.cons (.leaf ⟨.identifier, "", "Exposed"⟩) <|
      .cons (.leaf ⟨.equals, "", "="⟩) (.cons derived .nil)) own (by decide)
  obtain ⟨_, hl, attributes⟩ :=
    exists_derives_node (.cons (.leaf ⟨.bracketOpen, "", "["⟩) <| .cons derived <|
      .cons (.leaf ⟨.bracketClose, "", "]"⟩) .nil) list (by decide)
  obtain ⟨_, hi, derived⟩ :=
    exists_derives_node (.cons (.leaf ⟨.identifier, " ", "Window"⟩) <|
      .cons (.leaf ⟨.kwIncludes, " ", "includes"⟩) <|
      .cons (.leaf ⟨.identifier, " ", "Lens"⟩) <|
      .cons (.leaf ⟨.semicolon, "", ";"⟩) .nil) includes (by decide)
  obtain ⟨_, hb, derived⟩ := exists_derives_node (.cons derived .nil) body (by decide)
  obtain ⟨_, hd, derived⟩ :=
    exists_derives_node (.cons attributes (.cons derived .nil)) definition (by decide)
  obtain ⟨_, hds, derived⟩ := exists_derives_node (.cons derived .nil) definitions (by decide)
  obtain ⟨_, hs, derived⟩ := exists_derives_node (.cons derived .nil) start (by decide)
  refine ⟨_, derived, ?_⟩
  simp [sites, sitesOfAll, hv, ho, hl, hi, hb, hd, hds, hs, innermost, Construct.isAttribute,
    nameFirst, statementSites]

theorem plainBefore_statement : PlainBefore [] (statementSites.map Site.token) := by
  have names : ∀ name ∈ ["Exposed", "Window", "Lens"], isName name.toList = true ∧
      ∀ t ∈ Terminal.all, t.literal? ≠ some name := by decide
  have name {name layout : String} (h : name ∈ ["Exposed", "Window", "Lens"]) :
      (Token.mk .identifier layout name).IsPlain :=
    isPlain_of_unreserved (names name h).1 fun t => (names name h).2 t t.mem_all
  refine .cons (isPlain_of_literal rfl) .nil (.inr ⟨'[', by decide, rfl⟩) <|
    .cons (name (by decide)) .nil (.inl ?_) <|
    .cons (isPlain_of_literal rfl) .nil (.inr ⟨'=', by decide, rfl⟩) <|
    .cons (name (by decide)) .nil (.inl ?_) <|
    .cons (isPlain_of_literal rfl) .nil (.inl ?_) <|
    .cons (name (by decide)) isGap_space (.inl ?_) <|
    .cons (isPlain_of_literal rfl) isGap_space (.inl ?_) <|
    .cons (name (by decide)) isGap_space (.inl ?_) <|
    .cons (isPlain_of_literal rfl) .nil (.inl ?_) .nil
  all_goals simp [textOf, separators, marks, delimiters]

/-- Two names are escaped, and the own name of the extended attribute stays as it is. -/
theorem parse_escaped_includes :
    ∃ definitions definitions',
      parse "[Exposed=Window] Window includes Lens;" = .ok definitions ∧
      parse "[Exposed=_Window] _Window includes Lens;" = .ok definitions' ∧
      definitions'.map Node.bare = definitions.map Node.bare := by
  obtain ⟨root, derives, known⟩ := exists_tree_statement
  have tokens : root.tokens = statementSites.map Site.token := by
    rw [← map_token_sites .part root, known]
  have read := parseTree_of_plain derives (tokens ▸ plainBefore_statement)
  have text : textOf root.tokens = "[Exposed=Window] Window includes Lens;".toList := by
    rw [tokens]
    decide
  rw [text, String.ofList_toList] at read
  have parsed : parse "[Exposed=Window] Window includes Lens;" =
      .ok ((definitionsOf root).getD []) := by
    rw [parse, read]
    rfl
  obtain ⟨tree, gap, read', split, -, escaped⟩ := parse_escaped parsed
  obtain rfl : root = tree := Except.ok.inj (read.symm.trans read')
  obtain rfl : gap = [] := by
    rw [text] at split
    simpa using split
  obtain ⟨definitions', parsed', same⟩ := escaped
    [⟨.bracketOpen, "", "["⟩, ⟨.identifier, "", "Exposed"⟩, ⟨.equals, "", "="⟩,
      ⟨.identifier, "", "_Window"⟩, ⟨.bracketClose, "", "]"⟩, ⟨.identifier, " ", "_Window"⟩,
      ⟨.kwIncludes, " ", "includes"⟩, ⟨.identifier, " ", "Lens"⟩, ⟨.semicolon, "", ";"⟩]
    (by
      rw [known]
      exact .cons .kept <| .cons .kept <| .cons .kept <|
        .cons (.escaped rfl rfl ⟨'W', by decide, by decide⟩) <| .cons .kept <|
        .cons (.escaped rfl rfl ⟨'W', by decide, by decide⟩) <| .cons .kept <| .cons .kept <|
        .cons .kept .nil)
  exact ⟨_, definitions', parsed, parsed', same⟩

end WebSpec.Idl
