import WebSpec.Proofs.Value.Context
import WebSpec.Proofs.Value.Tiling

/-!
# What multipliers are behind

Multipliers are applied in four places: behind a leaf at once, behind a group, a function or a free
parenthesis only when these are complete. `TakesMultipliers` says that all of them end up at one
node, and nothing else fails. It is proved once for each of the four (`takesMultipliers_leaf`,
`takesMultipliers_paren`, `takesMultipliers_call`, `takesMultipliers_group`).

A group is told that it is one, which changes what `?` and `!` mean as its first multiplier, and
nothing besides (`multiplyAll_group_eq`). So it makes no difference whether an operand is in
brackets of its own, unless one of these two is next.
-/

namespace WebSpec.Value

variable {known : List String}

/-- Multipliers behind the tokens are applied to the node, and decide alone what becomes of it. -/
def TakesMultipliers (known : List String) (ts : List Token) (isGroup : Bool) (node : Node) :
    Prop :=
  ∀ ms : List Token, (∀ t ∈ ms, t.isMultiplier) →
    assembleTokens known (ts ++ ms) = multiplyAll node isGroup ms

/-! ### Items and their tree -/

theorem assembleTokens_eq_ok_iff_derives {ts : List Token} {node : Node} :
    assembleTokens known ts = .ok node ↔
      ∃ attached phrase, Attaches known ts attached ∧ symbols [] attached = some phrase ∧
        Derives (.level allCombinators) phrase [node] := by
  constructor
  · intro h
    obtain ⟨items, hc, h⟩ := bind_eq_ok.mp h
    obtain ⟨attached, ha, h⟩ := bind_eq_ok.mp h
    obtain ⟨phrase, hs, hd⟩ := assemble_eq_ok_iff.mp h
    exact ⟨attached, phrase, ⟨items, hc, ha⟩, hs, hd⟩
  · rintro ⟨attached, phrase, attaches, hs, hd⟩
    rw [attaches.assembleTokens_eq]
    exact assemble_eq_ok_iff.mpr ⟨phrase, hs, hd⟩

theorem assembleTokens_shift {ts : List Token} {node : Node}
    (h : assembleTokens known ts = .ok node) (k : Nat) :
    assembleTokens known (ts.map (Token.shift k)) = .ok node := by
  obtain ⟨attached, phrase, attaches, hs, hd⟩ := assembleTokens_eq_ok_iff_derives.mp h
  have symbols_eq :
      symbols [] (attached.map (Item.shift k)) = some (phrase.map (Symbol.shift k)) := by
    rw [symbols_shift, hs]
    rfl
  exact assembleTokens_eq_ok_iff_derives.mpr ⟨_, _, attaches.shift k, symbols_eq, hd.shift⟩

/-! ### The four places -/

theorem takesMultipliers_leaf {t : Token} {node : Node}
    (h : t.classify known = .ok (.node node)) : TakesMultipliers known [t] false node := by
  intro ms hm
  simp only [assembleTokens, List.singleton_append, List.mapM_cons, h, classify_multipliers hm,
    bind, Except.bind, pure, Except.pure, attachMultipliers_node hm]
  cases multiplyAll node false ms <;> rfl

theorem takesMultipliers_paren {t : Token} (h : t.kind = .parenClose) :
    TakesMultipliers known [t] false (.required .string t.text) := by
  intro ms hm
  have attaches : Attaches known (t :: ms) (.mark t :: ms.map .mark) :=
    attaches_mark_multipliers (by simp [h, TokenKind.isStructural])
      (by simp [Token.isMultiplier, h]) hm (.inr (.inr h))
  have free : FunctionFree (.mark t :: ms.map .mark) :=
    FunctionFree.cons_iff.mpr ⟨by simp [h], functionFree_multipliers hm⟩
  rw [List.singleton_append, attaches.assembleTokens_eq, assemble,
    closeFunctions_of_functionFree free]
  simp only [bind, Except.bind, assembleFlat, releaseParens_paren_eq (.inr h) hm]
  cases multiplyAll (.required .string t.text) false ms <;> rfl

/-- A group whose inside is known becomes what its multipliers make of it. -/
theorem assemble_group {items : List Item} {phrase : List Symbol} {ms : List Token} {node : Node}
    (h : symbols [] items = some (.groupStart :: (phrase ++ .groupEnd :: ms.map .multiplier)))
    (hd : Derives (.level allCombinators) phrase [node]) :
    assemble items = multiplyAll node true ms := by
  obtain ⟨reduced, closing, hd⟩ := closesFunctions_of_derives hd
  obtain ⟨closed, hc, hs⟩ := closeFunctions_of_contracts (closing.contracts.group ms) h
  rw [symbols_of_functionFree (functionFree_of_closeFunctions hc) (by simp)] at hs
  obtain ⟨first, rest, rfl, ho, hr⟩ := List.map_eq_cons_iff.mp (Option.some.inj hs)
  obtain ⟨inside, rest, rfl, hi, hr⟩ := List.map_eq_append_iff.mp hr
  obtain ⟨last, end_, rfl, hl, he⟩ := List.map_eq_cons_iff.mp hr
  obtain ⟨t, rfl, ht⟩ := Item.isMark_iff.mp (Item.symbol_eq_groupStart.mp ho)
  obtain ⟨u, rfl, hu⟩ := Item.isMark_iff.mp (Item.symbol_eq_groupEnd.mp hl)
  obtain ⟨rfl, hm⟩ := items_of_multipliers he
  obtain ⟨flat, ⟨leads, released_eq, -, closed_eq, -⟩, plain, hd⟩ := flattens_of_derives hd hi
  obtain ⟨_, hn, combined⟩ := combine_of_derives hd plain rfl (by decide)
  obtain rfl := (List.cons.inj hn).1
  simp only [assemble, hc, bind, Except.bind, assembleFlat,
    releaseParens_group leads released_eq hm ht hu,
    closeGroups_group closed_eq plain hm combined ht hu]
  cases multiplyAll node true ms <;> rfl

theorem takesMultipliers_group {ts : List Token} {node : Node}
    (h : assembleTokens known ts = .ok node) (p q : Int) :
    TakesMultipliers known (⟨.bracketOpen, "[", p⟩ :: (ts ++ [⟨.bracketClose, "]", q⟩])) true
      node := by
  intro ms hm
  obtain ⟨attached, phrase, attaches, hs, hd⟩ := assembleTokens_eq_ok_iff_derives.mp h
  have opens : Attaches known [⟨.bracketOpen, "[", p⟩] [.mark ⟨.bracketOpen, "[", p⟩] :=
    attaches_mark rfl (by simp [Token.isMultiplier])
  have closes : Attaches known (⟨.bracketClose, "]", q⟩ :: ms)
      ([.mark ⟨.bracketClose, "]", q⟩] ++ ms.map .mark) :=
    attaches_mark_multipliers rfl (by simp [Token.isMultiplier]) hm (.inr (.inl rfl))
  obtain ⟨o, free, reads⟩ := exists_readsAs hs (o := []) List.not_mem_nil
  have first : ReadsAs [] [.mark ⟨.bracketOpen, "[", p⟩] [.groupStart] [] := readsAs_mark (by simp)
  have last : ReadsAs o [.mark ⟨.bracketClose, "]", q⟩] [.groupEnd] o := readsAs_mark (by simp)
  have whole := first.append (reads.append (last.append (readsAs_multipliers hm)))
  have attached_eq := (opens.append (attaches.append closes)).assembleTokens_eq
  rw [← assemble_group (whole.symbols_eq free) hd, ← attached_eq]
  simp

/-! ### Functions -/

/-- No multiplier leaves a function as it is. -/
theorem multiply_ne_function {t : Token} {node whole : Node} {isGroup : Bool}
    (h : multiply t node isGroup = .ok whole) (name : String) (arguments : Node) :
    whole ≠ .function name arguments false := by
  rintro rfl
  unfold multiply at h
  split_ifs at h
  · obtain ⟨_, -, h⟩ := bind_eq_ok.mp h
    cases h
  · cases h
  · cases h
  · cases h
  · cases h
  · cases node <;> cases h
  · cases h

theorem multiplyRest_ne_function {ts : List Token} {name : String} {arguments : Node}
    {previous : Token} {node whole : Node} (hn : node ≠ .function name arguments false)
    (h : multiplyRest previous node ts = .ok whole) : whole ≠ .function name arguments false := by
  induction ts generalizing previous node with
  | nil =>
    obtain rfl := Except.ok.inj h
    exact hn
  | cons t ts ih =>
    obtain ⟨next, hnext, h⟩ := bind_eq_ok.mp h
    refine ih (fun same => ?_) h
    subst same
    unfold multiplyNext at hnext
    split at hnext
    · split_ifs at hnext
      · obtain ⟨_, -, hnext⟩ := bind_eq_ok.mp hnext
        cases hnext
      · exact multiply_ne_function hnext name arguments rfl
    · exact multiply_ne_function hnext name arguments rfl

theorem multiplyAll_eq_function {ms : List Token} {node : Node} {isGroup : Bool} {name : String}
    {arguments : Node} (h : multiplyAll node isGroup ms = .ok (.function name arguments false)) :
    ms = [] ∧ node = .function name arguments false := by
  cases ms with
  | nil => exact ⟨rfl, Except.ok.inj h⟩
  | cons t ms =>
    obtain ⟨next, hnext, h⟩ := bind_eq_ok.mp h
    exact absurd rfl (multiplyRest_ne_function (multiply_ne_function hnext name arguments) h)

theorem eq_singleton_of_collapse {join : List Node → Node} {nodes : List Node} {node : Node}
    (h : node = collapse join nodes) (hj : ∀ nodes, node ≠ join nodes) : nodes = [node] := by
  match nodes with
  | [] => exact absurd h (hj [])
  | [n] => rw [h, collapse]
  | n :: n' :: rest => exact absurd h (hj (n :: n' :: rest))

/-- What is no sequence and no combination is a component. -/
theorem component_of_derives_function {name : String} {arguments : Node} {isOptional : Bool} :
    ∀ {cs : List Combinator} {phrase : List Symbol},
      Derives (.level cs) phrase [.function name arguments isOptional] →
        Derives .component phrase [.function name arguments isOptional]
  | [], phrase, h => by
    generalize hn : [Node.function name arguments isOptional] = nodes at h
    cases h with
    | @juxtaposition _ nodes h =>
      obtain rfl := eq_singleton_of_collapse (List.singleton_inj.mp hn) (by simp)
      generalize hs : [Node.function name arguments isOptional] = nodes at h
      cases h with
      | lastComponent h =>
        obtain rfl := List.singleton_inj.mp hs
        exact h
      | nextComponent _ hs' =>
        obtain rfl := (List.cons.inj hs).2
        cases hs'
  | c :: tighter, phrase, h => by
    generalize hn : [Node.function name arguments isOptional] = nodes at h
    cases h with
    | @combination _ _ _ nodes h =>
      obtain rfl := eq_singleton_of_collapse (List.singleton_inj.mp hn) (by simp)
      generalize hs : [Node.function name arguments isOptional] = nodes at h
      cases h with
      | lastOperand h =>
        obtain rfl := List.singleton_inj.mp hs
        exact component_of_derives_function h
      | nextOperand _ hs' =>
        obtain rfl := (List.cons.inj hs).2
        cases hs'

/-- A function whose inside is known becomes what its multipliers make of it. -/
theorem assemble_call {items : List Item} {name : String} {inside : List Symbol} {ms : List Token}
    {arguments : Node}
    (h : symbols [] items =
      some (.functionStart name :: (inside ++ .functionEnd :: ms.map .multiplier)))
    (hd : Derives .arguments inside [arguments]) :
    assemble items = multiplyAll (.function name arguments false) false ms := by
  cases items with
  | nil => cases h
  | cons first rest =>
    obtain ⟨tail, hr, hp⟩ := symbols_cons_eq_some.mp h
    obtain ⟨hname, rfl⟩ := List.cons.inj hp
    obtain ⟨t, hm, rfl⟩ := Item.eq_of_resolve_functionStart hname.symm
    rw [Item.resolve_functionStart hm] at hr
    obtain ⟨reduced, closing, hd⟩ := closesFunctions_of_derives hd
    obtain ⟨closed, hc, hs⟩ := closeFunctions_of_contracts (closing.contracts.arguments ms) hr
    obtain ⟨after, ha, closes⟩ := exists_closeFunction_eq (functionFree_of_closeFunctions hc) hs
      closing.closed (by simp) hd t.text
    obtain rfl : after = [] := by
      cases after with
      | nil => rfl
      | cons item after =>
        obtain ⟨_, -, ha⟩ := symbols_cons_eq_some.mp ha
        cases ha
    simp only [assemble, closeFunctions, hc, hm, closes, bind, Except.bind]
    cases multiplyAll (.function t.text arguments false) false ms <;> rfl

/-- The multipliers of a function are all that is behind its closing parenthesis. -/
theorem takesMultipliers_call {name text : String} {p q : Int} {inside : List Token}
    {arguments : Node} (h : assembleTokens known
      (⟨.functionStart, name, p⟩ :: (inside ++ [⟨.parenClose, text, q⟩])) =
        .ok (.function name arguments false)) :
    TakesMultipliers known (⟨.functionStart, name, p⟩ :: (inside ++ [⟨.parenClose, text, q⟩])) false
      (.function name arguments false) := by
  intro ms hm
  obtain ⟨attached, phrase, attaches, hs, hd⟩ := assembleTokens_eq_ok_iff_derives.mp h
  obtain ⟨o, free, reads⟩ := exists_readsAs hs (o := []) List.not_mem_nil
  have whole := (reads.append (readsAs_multipliers hm)).symbols_eq free
  obtain ⟨rest, rfl⟩ := attaches.exists_mark rfl (by simp [Token.isMultiplier])
  obtain ⟨tail, -, rfl⟩ := symbols_cons_eq_some.mp hs
  rw [← List.cons_append] at attaches ⊢
  rw [(attaches.append_multipliers rfl hm).assembleTokens_eq]
  have function := component_of_derives_function hd
  generalize hn : [Node.function name arguments false] = nodes at function
  cases function with
  | call derived multiplied =>
    obtain rfl := List.singleton_inj.mp hn
    obtain ⟨rfl, same⟩ := multiplyAll_eq_function multiplied
    rw [← same]
    refine assemble_call ?_ derived
    have start : ((Item.mark ⟨.functionStart, name, p⟩).resolve []).1 = .functionStart name := rfl
    simpa [start] using whole

/-! ### Groups and other operands -/

/-- Only as the first multiplier do `?` and `!` mean something else behind a group. -/
theorem multiplyAll_group_eq {t : Token} (h : t.text ≠ "?" ∧ t.text ≠ "!") (node : Node)
    (ms : List Token) : multiplyAll node true (t :: ms) = multiplyAll node false (t :: ms) := by
  have first : multiply t node true = multiply t node false := by
    unfold multiply
    rw [if_neg h.1, if_neg h.1, if_neg h.2, if_neg h.2]
  simp only [multiplyAll, first]

/-! ### Multipliers in a text -/

/-- The tokens of a text with multipliers behind it. -/
theorem exists_tokens_append {text multipliers : String} {t u : Token} {ts us : List Token}
    (h : tokens (Text.strip text) = .ok (t :: ts))
    (h' : tokens (Text.strip multipliers) = .ok (u :: us)) (hu : u.isMultiplier) :
    Text.strip (text ++ multipliers) ≠ "" ∧ ∃ k,
      tokens (Text.strip (text ++ multipliers)) =
        .ok ((t :: ts) ++ (u :: us).map (Token.shift k)) := by
  obtain ⟨before, gap, before_blank, gap_blank, split⟩ := exists_strip text
  obtain ⟨gap', behind, gap_blank', behind_blank, split'⟩ := exists_strip multipliers
  have blank : ∀ c ∈ gap ++ gap', Text.isBlank c :=
    List.forall_mem_append.mpr ⟨gap_blank, gap_blank'⟩
  have chars : (text ++ multipliers).toList = before ++ (((Text.strip text).toList ++
      ((gap ++ gap') ++ (Text.strip multipliers).toList)) ++ behind) := by
    simp [split, split']
  have solid := (solid_strip h).between (solid_strip h') (gap ++ gap')
  rw [strip_eq before_blank behind_blank solid chars]
  refine ⟨fun empty => solid.1 (String.ofList_eq_empty_iff.mp empty), ?_⟩
  have chain := @Scans.of_tokens_endsWord _ _ h' [] (by simp [EndsWord])
  have ends : EndsWord ((gap ++ gap') ++ (Text.strip multipliers).toList ++ []) := by
    rw [List.append_nil]
    exact (endsWord_of_multipliers h' hu).after_blanks blank
  have scans :=
    (Scans.of_tokens_endsWord h ends 0).append ((Scans.blanks blank _ _).append (chain _))
  rw [show Token.shift 0 = id from funext Token.shift_zero, List.map_id] at scans
  exact ⟨_, scans.tokens_eq⟩

/-! ### Definitions -/

/-- What multipliers may be behind: a leaf, a function or a parenthesis that closes none. -/
inductive IsOperand (extraPrimitives : List String) (text : String) : Prop where
  | leaf {t : Token} (read : tokens (Text.strip text) = .ok [t])
      (kind : t.kind ∈ [.keyword, .typeRef, .propertyRef, .string, .comma, .slash])
  | call {name closing : String} {p q : Int} {inside : List Token} {arguments : Node}
      (read : tokens (Text.strip text) =
        .ok (⟨.functionStart, name, p⟩ :: (inside ++ [⟨.parenClose, closing, q⟩])))
      (parsed : parse text extraPrimitives = .ok (.function name arguments false))
  | parenClose {t : Token} (read : tokens (Text.strip text) = .ok [t]) (kind : t.kind = .parenClose)

/-- Multipliers behind a definition in brackets are applied to its tree, and decide alone what becomes
of it. -/
theorem parse_bracketed_multipliers {text multipliers : String} {extraPrimitives : List String}
    {t u : Token} {ts us : List Token} {node : Node}
    (read : tokens (Text.strip text) = .ok (t :: ts))
    (assembled : assembleTokens (primitives ++ extraPrimitives) (t :: ts) = .ok node)
    (chain : tokens (Text.strip multipliers) = .ok (u :: us))
    (hm : ∀ v ∈ u :: us, v.isMultiplier) :
    parse ("[ " ++ text ++ " ]" ++ multipliers) extraPrimitives =
      ((multiplyAll node true (u :: us)).map unwrap).mapError
        fun fault => ⟨fault, Text.strip ("[ " ++ text ++ " ]" ++ multipliers)⟩ := by
  obtain ⟨k, p, q, bracketed_read⟩ := exists_tokens_bracketed read
  obtain ⟨nonblank, k', whole⟩ :=
    exists_tokens_append bracketed_read chain (hm u List.mem_cons_self)
  have group := takesMultipliers_group (assembleTokens_shift assembled k) p q
  have shifted : ∀ v ∈ (u :: us).map (Token.shift k'), v.isMultiplier := by simpa using hm
  rw [parse_eq_assembleTokens nonblank whole, group _ shifted, multiplyAll_shift]

/-- The same tree, or faults of the same class that blame the same fragment. -/
inductive SameOutcome : Except DefinitionError Node → Except DefinitionError Node → Prop where
  | tree {node : Node} : SameOutcome (.ok node) (.ok node)
  | refusal {e e' : DefinitionError} (className_eq : e.fault.className = e'.fault.className)
      (fragment_eq : e.fault.fragment? = e'.fault.fragment?) : SameOutcome (.error e) (.error e')

theorem sameOutcome_mapError (outcome : Except Fault Node) (source source' : String) :
    SameOutcome (outcome.mapError fun fault => ⟨fault, source⟩)
      (outcome.mapError fun fault => ⟨fault, source'⟩) := by
  cases outcome with
  | ok => exact .tree
  | error => exact .refusal rfl rfl

section Operand

variable {extraPrimitives : List String} {operand multipliers : String} {t u : Token}
  {ts us : List Token}

/-- An operand that takes multipliers takes them in brackets as well. -/
theorem sameOutcome_of_takesMultipliers {node : Node}
    (read : tokens (Text.strip operand) = .ok (t :: ts))
    (takes : TakesMultipliers (primitives ++ extraPrimitives) (t :: ts) false node)
    (chain : tokens (Text.strip multipliers) = .ok (u :: us)) (hm : ∀ v ∈ u :: us, v.isMultiplier)
    (first : u.text ≠ "?" ∧ u.text ≠ "!") :
    SameOutcome (parse (operand ++ multipliers) extraPrimitives)
      (parse ("[ " ++ operand ++ " ]" ++ multipliers) extraPrimitives) := by
  have hu := hm u List.mem_cons_self
  obtain ⟨nonblank, k, whole⟩ := exists_tokens_append read chain hu
  have shifted : ∀ v ∈ (u :: us).map (Token.shift k), v.isMultiplier := by simpa using hm
  have lone : assembleTokens (primitives ++ extraPrimitives) (t :: ts) = .ok node := by
    simpa [multiplyAll] using takes [] (by simp)
  rw [parse_eq_assembleTokens nonblank whole, takes _ shifted, multiplyAll_shift,
    parse_bracketed_multipliers read lone chain hm, multiplyAll_group_eq first]
  exact sameOutcome_mapError _ _ _

/-- A leaf is a component, or refused wherever it stands. -/
theorem classify_leaf_cases (known : List String)
    (h : t.kind ∈ [.keyword, .typeRef, .propertyRef, .string, .comma, .slash]) :
    (∃ node, t.classify known = .ok (.node node)) ∨
      ∀ k, (t.shift k).classify known = .error (.unrecognizedToken (t.shift k)) := by
  obtain ⟨kind, text, position⟩ := t
  simp only [List.mem_cons, List.not_mem_nil, or_false] at h
  rcases h with rfl | rfl | rfl | rfl | rfl | rfl
  · by_cases starts : startsKeyword text
    · exact .inl ⟨.required .keyword text, by simp [Token.classify, TokenKind.isStructural, starts]⟩
    · exact .inr fun k => by
        simp [Token.classify, Token.shift, TokenKind.isStructural, starts]
  all_goals exact .inl ⟨_, rfl⟩

/-- What cannot be classified is refused whatever is behind it. -/
theorem assembleTokens_of_refused {fault : Fault} {before behind : List Token} {items : List Item}
    (hb : before.mapM (Token.classify known) = .ok items) (ht : t.classify known = .error fault) :
    assembleTokens known (before ++ t :: behind) = .error fault := by
  simp only [assembleTokens, List.mapM_append, List.mapM_cons, hb, ht, bind, Except.bind]

/-- A word that is no component is blamed with brackets and without them. -/
theorem sameOutcome_of_refused (read : tokens (Text.strip operand) = .ok [t])
    (refused : ∀ k, (t.shift k).classify (primitives ++ extraPrimitives) =
      .error (.unrecognizedToken (t.shift k)))
    (chain : tokens (Text.strip multipliers) = .ok (u :: us)) (hu : u.isMultiplier) :
    SameOutcome (parse (operand ++ multipliers) extraPrimitives)
      (parse ("[ " ++ operand ++ " ]" ++ multipliers) extraPrimitives) := by
  obtain ⟨k, p, q, bracketed_read⟩ := exists_tokens_bracketed read
  obtain ⟨nonblank, k₁, h₁⟩ := exists_tokens_append read chain hu
  obtain ⟨nonblank', k₂, h₂⟩ := exists_tokens_append bracketed_read chain hu
  have alone := refused 0
  rw [Token.shift_zero] at alone
  have bare := @assembleTokens_of_refused (primitives ++ extraPrimitives) t _ []
    ((u :: us).map (Token.shift k₁)) [] rfl alone
  have grouped := @assembleTokens_of_refused (primitives ++ extraPrimitives) (t.shift k) _
    [⟨.bracketOpen, "[", p⟩] (⟨.bracketClose, "]", q⟩ :: (u :: us).map (Token.shift k₂)) _ rfl
    (refused k)
  rw [parse_eq_assembleTokens nonblank h₁, parse_eq_assembleTokens nonblank' h₂]
  simp only [List.nil_append, List.map_cons, List.map_nil, List.cons_append] at bare grouped ⊢
  rw [bare, grouped]
  exact .refusal rfl rfl

end Operand

/-- Multipliers do the same behind an operand and behind brackets around it, unless the first one
is `?` or `!`. -/
theorem parse_operand_multipliers {extraPrimitives : List String} {operand multipliers : String}
    {t : Token} {ts : List Token} (h : IsOperand extraPrimitives operand)
    (chain : tokens (Text.strip multipliers) = .ok (t :: ts)) (hm : ∀ u ∈ t :: ts, u.isMultiplier)
    (first : t.text ≠ "?" ∧ t.text ≠ "!") :
    SameOutcome (parse (operand ++ multipliers) extraPrimitives)
      (parse ("[ " ++ operand ++ " ]" ++ multipliers) extraPrimitives) := by
  cases h with
  | leaf read kind =>
    obtain ⟨node, hc⟩ | refused := classify_leaf_cases (primitives ++ extraPrimitives) kind
    · exact sameOutcome_of_takesMultipliers read (takesMultipliers_leaf hc) chain hm first
    · exact sameOutcome_of_refused read refused chain (hm t List.mem_cons_self)
  | call read parsed =>
    obtain ⟨_, attached, phrase, read', derived⟩ := exists_of_parse parsed
    obtain rfl := Except.ok.inj (read.symm.trans read')
    have assembled := assembleTokens_eq_ok_iff_derives.mpr ⟨attached, phrase, derived⟩
    exact sameOutcome_of_takesMultipliers read (takesMultipliers_call assembled) chain hm first
  | parenClose read kind =>
    exact sameOutcome_of_takesMultipliers read (takesMultipliers_paren kind) chain hm first

/-- A function with a list, its bounds, and a mark behind it. -/
theorem parse_operand_multipliers_call :
    SameOutcome (parse "f( a | b )#\x7b1,4\x7d?") (parse "[ f( a | b ) ]#\x7b1,4\x7d?") ∧
      parse "f( a | b )#\x7b1,4\x7d?" = .ok (.sequence [.function "f" (.combined .oneOf
        [.required .keyword "a", .required .keyword "b"] false) false]
          { least := some 1, greatest := some 4, separator := some "," } true) := by
  have operand : IsOperand [] "f( a | b )" := @IsOperand.call [] _ "f" ")" 0 9 [⟨.keyword, "a", 3⟩,
    ⟨.combinator, "|", 5⟩, ⟨.keyword, "b", 7⟩] _ (by rfl) (by rfl)
  refine ⟨?_, by rfl⟩
  exact @parse_operand_multipliers [] "f( a | b )" "#\x7b1,4\x7d?" ⟨.multiplier, "#", 0⟩
    [⟨.multiplierRange, "\x7b1,4\x7d", 1⟩, ⟨.multiplier, "?", 6⟩] operand (by rfl) (by decide)
    (by decide)

end WebSpec.Value
