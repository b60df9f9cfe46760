import WebSpec.Proofs.Value.Invariant

/-!
# Parsing undoes printing

A printed tree goes through all that a value definition goes through: its characters become tokens,
the tokens items, the multipliers of leaves are applied, and what is left is assembled. `Spells`
follows the characters of a part of the definition up to the grammar. By induction on the tree, its
characters spell a phrase that derives it, and by `assemble_eq_ok_iff` no other tree is built. So a
tree is read again, if its bounds can be (`Canonical.parse_print`).
-/

namespace WebSpec.Value

/-! ### Parts of a definition -/

/-- In front of a blank or the end, the characters read as some phrase with the given property:
where `opened` is open before them, and `opened'` after them. -/
def Spells (opened : List Opening) (cs : List Char) (opened' : List Opening)
    (property : List Symbol → Prop) : Prop :=
  ∀ rest position, (∀ c ∈ rest.head?, c = ' ') → ∃ ts phrase, Scans cs rest position ts ∧
    Denotes opened ts phrase opened' ∧ property phrase

variable {o o' o'' : List Opening}

theorem Spells.imp {cs : List Char} {P Q : List Symbol → Prop} (h : Spells o cs o' P)
    (hpq : ∀ p, P p → Q p) : Spells o cs o' Q := by
  intro rest position hr
  obtain ⟨ts, phrase, hs, hd, hp⟩ := h rest position hr
  exact ⟨ts, phrase, hs, hd, hpq phrase hp⟩

theorem Spells.nil : Spells o [] o (· = []) :=
  fun rest position _ => ⟨[], [], .nil rest position, .nil, rfl⟩

/-- Two parts with a blank between them. -/
theorem Spells.append {cs cs' : List Char} {P Q R : List Symbol → Prop} (h : Spells o cs o' P)
    (h' : Spells o' cs' o'' Q) (hpq : ∀ p q, P p → Q q → R (p ++ q)) :
    Spells o (cs ++ ' ' :: cs') o'' R := by
  intro rest position hr
  obtain ⟨ts, p, hs, hd, hp⟩ := h (' ' :: (cs' ++ rest)) position (by simp)
  obtain ⟨ts', q, hs', hd', hq⟩ := h' rest (position + cs.length + 1) hr
  have hb : Scans (' ' :: cs') rest (position + cs.length) ts' :=
    (Scans.blank rfl (cs' ++ rest) (position + cs.length)).append hs'
  exact ⟨ts ++ ts', p ++ q, hs.append hb, hd.append hd', hpq p q hp hq⟩

/-- What is printed is followed by multipliers only where they belong to it. -/
theorem endsWord_of_blank {rest : List Char} (h : ∀ c ∈ rest.head?, c = ' ') : EndsWord rest :=
  fun c hc => .inl (h c hc ▸ rfl)

/-! ### Leaves -/

theorem isReference_of_mem_primitives {name : String} (h : name ∈ primitives) :
    IsReference name := by
  have hall : (primitives.all fun name => name ≠ "" && name.toList.head?.all (!Text.isBlank ·) &&
      name.toList.getLast?.all (!Text.isBlank ·) &&
      name.toList.all fun c => decide (c ∉ ['<', '>', '\'', '[', ']'])) = true := by decide
  obtain ⟨hn, hf, hl, hp⟩ : name ≠ "" ∧ (∀ c ∈ name.toList.head?, ¬ Text.isBlank c) ∧
      (∀ c ∈ name.toList.getLast?, ¬ Text.isBlank c) ∧
      ∀ c ∈ name.toList, c ∉ ['<', '>', '\'', '[', ']'] := by
    simpa [and_assoc, Option.all_eq_true] using List.all_eq_true.mp hall name h
  exact ⟨hn, ⟨hf, hl⟩, hp⟩

/-- A name without brackets has no restriction to drop. -/
theorem IsReference.withoutRange {name : String} (h : IsReference name) :
    withoutRange name.toList = name.toList := by
  unfold Value.withoutRange
  rw [h.trimmed.stripRight]
  split
  · rename_i rest hc
    have hm : ']' ∈ name.toList := List.mem_reverse.mp (hc ▸ List.mem_cons_self)
    exact absurd (by simp) (h.plain ']' hm)
  · rfl

/-- The token of a leaf. -/
theorem Canonical.scans_leaf {kind : LeafKind} {text : String} {isOptional : Bool}
    (h : Canonical (.leaf kind text isOptional)) {rest : List Char} (hr : EndsWord rest)
    (position : Nat) :
    ∃ t, Scans (kind.print text.toList) rest position [t] ∧
      t.classify primitives = .ok (.node (.required kind text)) := by
  cases h with
  | keyword word starts =>
    exact ⟨_, Scans.word word hr position, by simp [Token.classify, TokenKind.isStructural, starts]⟩
  | primitive known =>
    have reference := isReference_of_mem_primitives known
    refine ⟨_, Scans.typeRef reference.isTypeText rest position, ?_⟩
    simp [Token.classify, TokenKind.isStructural, reference.withoutRange, known]
  | valueSpace reference unknown =>
    refine ⟨_, Scans.typeRef reference.isTypeText rest position, ?_⟩
    simp [Token.classify, TokenKind.isStructural, reference.withoutRange, unknown]
  | propertyRef unquoted => exact ⟨_, Scans.propertyRef unquoted rest position, rfl⟩
  | string unquoted => exact ⟨_, Scans.quoted unquoted rest position, rfl⟩

theorem spells_leaf {kind : LeafKind} {text : String} {isOptional : Bool}
    (h : Canonical (.leaf kind text isOptional)) :
    Spells o (Node.chars (.leaf kind text isOptional)) o
      (Derives .component · [.leaf kind text isOptional]) := by
  intro rest position hr
  have he : EndsWord (printOptional isOptional ++ rest) := by
    cases isOptional with
    | false => exact endsWord_of_blank hr
    | true => rintro c ⟨⟩; exact .inr (by decide)
  obtain ⟨t, hs, hc⟩ := h.scans_leaf he position
  obtain ⟨ms, hs', hm, hf⟩ := multiplies_optional isOptional rest
    (position + (kind.print text.toList).length)
  have hw : (Node.required kind text).optionally isOptional = .leaf kind text isOptional := by
    cases isOptional <;> rfl
  refine ⟨t :: ms, _, hs.append hs', .leaf hc hm (hf _), ?_⟩
  rw [hw]
  exact .leaf

/-! ### Groups -/

theorem symbol_bracketOpen {t : Token} (h : t.kind = .bracketOpen) :
    (Item.mark t).resolve o = (.groupStart, o) := by
  simp [Item.resolve, Token.symbol, h]

theorem symbol_bracketClose {t : Token} (h : t.kind = .bracketClose) :
    (Item.mark t).resolve o = (.groupEnd, o) := by
  simp [Item.resolve, Token.symbol, h]

/-- A part in brackets, with multipliers. -/
theorem Spells.group {part cs : List Char} {f : Node → Node} {inner : Node}
    (h : Spells o part o (Derives (.level allCombinators) · [inner]))
    (hf : Multiplies true cs f) :
    Spells o (bracketed part ++ cs) o (Derives .component · [f inner]) := by
  have first : Spells o ['['] o (· = [.groupStart]) := fun rest position _ =>
    ⟨_, _, Scans.symbol (by rfl) rest position,
      .mark rfl (by simp [Token.isMultiplier]) (symbol_bracketOpen rfl) (by simp) (.inl rfl), rfl⟩
  have last : Spells o (']' :: cs) o fun p => ∃ ms, p = .groupEnd :: ms.map .multiplier ∧
      multiplyAll inner true ms = .ok (f inner) := by
    intro rest position _
    have close : Scans [']'] (cs ++ rest) position [⟨.bracketClose, "]", position⟩] :=
      Scans.symbol (by rfl) _ position
    obtain ⟨ms, hs, hm, hf⟩ := hf rest (position + 1)
    exact ⟨_, _, close.append hs,
      .mark rfl (by simp [Token.isMultiplier]) (symbol_bracketClose rfl) hm (.inr (.inl rfl)),
      ms, rfl, hf inner⟩
  have inside := h.append last (R := fun p => ∃ inside ms,
    p = inside ++ .groupEnd :: ms.map .multiplier ∧
      Derives (.level allCombinators) inside [inner] ∧ multiplyAll inner true ms = .ok (f inner))
    (by rintro p q hp ⟨ms, rfl, hm⟩
        exact ⟨p, ms, rfl, hp, hm⟩)
  have whole := first.append inside (R := (Derives .component · [f inner]))
    (by rintro p q rfl ⟨inside, ms, rfl, hd, hm⟩
        exact .group hd hm)
  simpa [bracketed] using whole

/-! ### Functions -/

theorem Spells.function {name : String} {cs : List Char} {arguments : Node} (word : IsWord name)
    (h : Spells (.function :: o) cs (.function :: o) (Derives .arguments · [arguments]))
    (isOptional : Bool) :
    Spells o (name.toList ++ '(' :: ' ' :: (cs ++ ' ' :: ')' :: printOptional isOptional)) o
      (Derives .component · [.function name arguments isOptional]) := by
  have first : Spells o (name.toList ++ ['(']) (.function :: o) (· = [.functionStart name]) := by
    intro rest position _
    refine ⟨_, _, Scans.functionStart word rest position, ?_, rfl⟩
    exact .mark rfl (by simp [Token.isMultiplier]) (by simp [Item.resolve, Token.symbol]) (by simp)
      (.inl rfl)
  have last : Spells (.function :: o) (')' :: printOptional isOptional) o fun p =>
      ∃ ms, p = .functionEnd :: ms.map .multiplier ∧
        multiplyAll (.function name arguments false) false ms =
          .ok (.function name arguments isOptional) := by
    intro rest position _
    have close : Scans [')'] (printOptional isOptional ++ rest) position
        [⟨.parenClose, ")", position⟩] := Scans.symbol (by rfl) _ position
    obtain ⟨ms, hs, hm, hf⟩ := multiplies_optional isOptional rest (position + 1)
    refine ⟨_, _, close.append hs, .mark rfl (by simp [Token.isMultiplier])
      (by simp [Item.resolve]) hm (.inr (.inr rfl)), ms, rfl, ?_⟩
    rw [hf]
    cases isOptional <;> rfl
  have inside := h.append last (R := fun p => ∃ inside ms,
    p = inside ++ .functionEnd :: ms.map .multiplier ∧ Derives .arguments inside [arguments] ∧
      multiplyAll (.function name arguments false) false ms =
        .ok (.function name arguments isOptional))
    (by rintro p q hp ⟨ms, rfl, hm⟩
        exact ⟨p, ms, rfl, hp, hm⟩)
  have whole := first.append inside
    (R := (Derives .component · [.function name arguments isOptional]))
    (by rintro p q rfl ⟨inside, ms, rfl, hd, hm⟩
        exact .call hd hm)
  simpa using whole

/-! ### Compounds -/

theorem Derives.level_of_component {p : List Symbol} {node : Node}
    (h : Derives .component p [node]) : ∀ cs, Derives (.level cs) p [node]
  | [] => .juxtaposition (.lastComponent h)
  | _ :: cs => .combination (.lastOperand (h.level_of_component cs))

/-- What a tighter combinator combines needs no looser one. -/
theorem Derives.looser {p : List Symbol} {node : Node} {cs : List Combinator}
    (h : Derives (.level cs) p [node]) (c : Combinator) : Derives (.level (c :: cs)) p [node] :=
  .combination (.lastOperand h)

theorem collapse_of_several {items : List Node} (h : 2 ≤ items.length)
    (join : List Node → Node) : collapse join items = join items := by
  match items, h with
  | _ :: _ :: _, _ => rfl

theorem Spells.bracketed {part : List Char} {inner : Node}
    (h : Spells o part o (Derives (.level allCombinators) · [inner])) :
    Spells o (bracketed part) o (Derives .component · [inner]) := by
  simpa using h.group (multiplies_nothing true)

theorem spells_juxtaposition {items : List Node} (hne : items ≠ [])
    (h : ∀ item ∈ items, Spells o item.chars o (Derives (.level allCombinators) · [item])) :
    Spells o (Node.partsChars [' '] items) o (Derives .components · items) := by
  induction items with
  | nil => exact absurd rfl hne
  | cons item items ih =>
    obtain ⟨hi, his⟩ := List.forall_mem_cons.mp h
    cases items with
    | nil => exact hi.bracketed.imp fun _ hd => .lastComponent hd
    | cons next items =>
      exact hi.bracketed.append (ih (by simp) his) fun _ _ hp hq => .nextComponent hp hq

/-- A combinator is written between two blanks. -/
theorem Spells.combinator {cs : List Char} {P R : List Symbol → Prop} (c : Combinator)
    (h : Spells o cs o' P) (hp : ∀ p, P p → R (.combinator c :: p)) :
    Spells o (c.symbol.toList ++ ' ' :: cs) o' R := by
  intro rest position hr
  obtain ⟨ts, p, hs, hd, hpp⟩ := h rest (position + c.symbol.toList.length + 1) hr
  have hb : Scans (' ' :: cs) rest (position + c.symbol.toList.length) ts :=
    (Scans.blank rfl (cs ++ rest) _).append hs
  have hmark : Denotes o [⟨.combinator, c.symbol, position⟩] [.combinator c] o := by
    refine .mark rfl (by simp [Token.isMultiplier]) ?_ (by simp) (.inl rfl)
    have hc := @Token.combinator?_eq_some ⟨.combinator, c.symbol, position⟩ c
    simp [Item.resolve, Token.symbol, hc.mpr rfl]
  exact ⟨_, _, (Scans.combinator c (cs ++ rest) position).append hb, hmark.append hd, hp p hpp⟩

theorem spells_operands (c : Combinator) (tighter : List Combinator) {items : List Node}
    (hne : items ≠ [])
    (h : ∀ item ∈ items, Spells o item.chars o (Derives (.level allCombinators) · [item])) :
    Spells o (Node.partsChars (' ' :: (c.symbol.toList ++ [' '])) items) o
      (Derives (.operands c tighter) · items) := by
  induction items with
  | nil => exact absurd rfl hne
  | cons item items ih =>
    obtain ⟨hi, his⟩ := List.forall_mem_cons.mp h
    cases items with
    | nil => exact hi.bracketed.imp fun _ hd => .lastOperand (hd.level_of_component tighter)
    | cons next items =>
      have others := (ih (by simp) his).combinator c (R := fun p => ∃ q,
        p = .combinator c :: q ∧ Derives (.operands c tighter) q (next :: items))
        fun q hq => ⟨q, rfl, hq⟩
      have whole := hi.bracketed.append others
        (R := (Derives (.operands c tighter) · (item :: next :: items)))
        fun p q hp ⟨q', hq, hd⟩ => by
          rw [hq]
          exact .nextOperand (hp.level_of_component tighter) hd
      simpa [Node.partsChars] using whole

theorem spells_combination (c : Combinator) {items : List Node} (several : 2 ≤ items.length)
    (h : ∀ item ∈ items, Spells o item.chars o (Derives (.level allCombinators) · [item])) :
    Spells o (Node.partsChars (' ' :: (c.symbol.toList ++ [' '])) items) o
      (Derives (.level allCombinators) · [.combined c items false]) := by
  have hne : items ≠ [] := by
    rintro rfl
    simp at several
  have joined {tighter : List Combinator} {p : List Symbol}
      (hd : Derives (.operands c tighter) p items) :
      Derives (.level (c :: tighter)) p [.combined c items false] := by
    have hl := Derives.combination hd
    rwa [collapse_of_several several] at hl
  cases c with
  | oneOf => exact (spells_operands _ [.anyOf, .allOf] hne h).imp fun _ hd => joined hd
  | anyOf => exact (spells_operands _ [.allOf] hne h).imp fun _ hd => (joined hd).looser _
  | allOf => exact (spells_operands _ [] hne h).imp fun _ hd => ((joined hd).looser _).looser _

/-! ### Trees -/

/-- The characters of a tree spell a phrase of the grammar that stands for the tree. -/
theorem Canonical.spells {node : Node} (h : Canonical node) (short : node.IsShort)
    (o : List Opening) :
    Spells o node.chars o (Derives (.level allCombinators) · [node]) := by
  induction h generalizing o with
  | keyword word starts =>
    exact (spells_leaf (.keyword word starts)).imp fun _ hd => hd.level_of_component _
  | primitive known =>
    exact (spells_leaf (.primitive known)).imp fun _ hd => hd.level_of_component _
  | valueSpace reference unknown =>
    exact (spells_leaf (.valueSpace reference unknown)).imp fun _ hd => hd.level_of_component _
  | propertyRef unquoted =>
    exact (spells_leaf (.propertyRef unquoted)).imp fun _ hd => hd.level_of_component _
  | string unquoted =>
    exact (spells_leaf (.string unquoted)).imp fun _ hd => hd.level_of_component _
  | @function name arguments isOptional word _ ih =>
    have inside := (ih (isShort_function_iff.mp short) (.function :: o)).imp (Q := (Derives .arguments · [arguments]))
      fun _ hd => .someArguments hd
    exact (inside.function word isOptional).imp fun _ hd => hd.level_of_component _
  | @noArguments name isOptional word =>
    have inside := (Spells.nil (o := .function :: o)).imp
      (Q := (Derives .arguments · [.juxtaposed []])) fun _ hp => hp ▸ .noArguments
    exact (inside.function word isOptional).imp fun _ hd => hd.level_of_component _
  | @juxtaposition items several _ ih =>
    have hne : items ≠ [] := by
      rintro rfl
      simp at several
    have parts := spells_juxtaposition hne fun item hi =>
      ih item hi ((isShort_sequence_iff.mp short).1 item hi) o
    have joined := parts.imp (Q := (Derives (.level allCombinators) · [.juxtaposed items]))
      fun p hd => by
        have hl := Derives.juxtaposition hd
        rw [collapse_of_several several] at hl
        exact ((hl.looser .allOf).looser .anyOf).looser .oneOf
    simpa [Node.chars, Repetition.print, printOptional] using joined
  | @combination c items several _ ih =>
    have parts := spells_combination c several fun item hi =>
      ih item hi (isShort_combined_iff.mp short item hi) o
    simpa [Node.chars, printOptional] using parts
  | @repetition item r isOptional _ bounds ih =>
    have hf : ∀ node : Node, .repeated node r ≠ node := by
      intro node he
      have hs := congrArg sizeOf he
      simp only [Node.sequence.sizeOf_spec, List.cons.sizeOf_spec] at hs
      omega
    obtain ⟨items_short, bounds_short⟩ := isShort_sequence_iff.mp short
    have repeats := (multiplies_repetition bounds bounds_short).optional hf isOptional
    have whole := (ih (items_short item List.mem_cons_self) o).group repeats
    have hw : (Node.repeated item r).optionally isOptional = .sequence [item] r isOptional := by
      cases isOptional <;> rfl
    rw [hw] at whole
    exact whole.imp fun _ hd => hd.level_of_component _

/-! ### The ends of a definition -/

/-- Something without blanks at its ends. -/
def Solid (cs : List Char) : Prop := cs ≠ [] ∧ Trimmed cs

theorem Solid.between {first last : List Char} (h : Solid first) (h' : Solid last)
    (inside : List Char) : Solid (first ++ (inside ++ last)) := by
  obtain ⟨hne, hf, -⟩ := h
  obtain ⟨hne', -, hl⟩ := h'
  refine ⟨by simp [hne], fun c hc => hf c ?_, fun c hc => hl c ?_⟩
  · rwa [List.head?_append_of_ne_nil _ hne] at hc
  · rwa [List.getLast?_append_of_ne_nil _ (by simp [hne']),
      List.getLast?_append_of_ne_nil _ hne'] at hc

theorem Solid.append {cs cs' : List Char} (h : Solid cs) (h' : cs' ≠ [] → Solid cs') :
    Solid (cs ++ cs') := by
  by_cases hne : cs' = []
  · rwa [hne, List.append_nil]
  · simpa using h.between (h' hne) []

theorem solid_singleton {c : Char} (hc : ¬ Text.isBlank c) : Solid [c] :=
  ⟨by simp, by simpa using hc, by simpa using hc⟩

theorem solid_of_isWord {word : String} (h : IsWord word) : Solid word.toList :=
  ⟨mt String.toList_eq_nil_iff.mp h.nonempty,
    fun c hc => (h.plain c (List.mem_of_mem_head? hc)).1,
    fun c hc => (h.plain c (List.mem_of_getLast? hc)).1⟩

theorem solid_optional {cs : List Char} (h : Solid cs) (isOptional : Bool) :
    Solid (cs ++ printOptional isOptional) := by
  cases isOptional with
  | false => simpa [printOptional] using h
  | true => exact h.append fun _ => solid_singleton (by decide)

theorem solid_bracketed (part : List Char) : Solid (bracketed part) := by
  have h := (solid_singleton (by decide : ¬ Text.isBlank '[')).between
    (solid_singleton (by decide : ¬ Text.isBlank ']')) (' ' :: (part ++ [' ']))
  simpa [bracketed] using h

theorem solid_parts (separator : List Char) :
    ∀ {items : List Node}, items ≠ [] → Solid (Node.partsChars separator items)
  | [item], _ => solid_bracketed item.chars
  | item :: next :: items, _ =>
    (solid_bracketed item.chars).between (solid_parts separator (List.cons_ne_nil next items))
      separator

theorem solid_function {name : String} (word : IsWord name) (arguments : List Char)
    (isOptional : Bool) :
    Solid (name.toList ++ '(' :: ' ' :: (arguments ++ ' ' :: ')' :: printOptional isOptional)) := by
  have h := solid_optional ((solid_of_isWord word).between
    (solid_singleton (by decide : ¬ Text.isBlank ')')) ('(' :: ' ' :: (arguments ++ [' '])))
    isOptional
  simpa using h

theorem solid_printRange (m : Int) (upper : List Char) : Solid (printRange m upper) := by
  have h := (solid_singleton (by decide : ¬ Text.isBlank '\x7b')).between
    (solid_singleton (by decide : ¬ Text.isBlank '\x7d')) (printBound m ++ ',' :: upper)
  simpa [printRange] using h

theorem Repetition.Canonical.solid {r : Repetition} (h : r.Canonical) : Solid r.print := by
  have hash : Solid ['#'] := solid_singleton (by decide)
  cases h with
  | range | atLeast => exact solid_printRange _ _
  | atMostOne => exact solid_singleton (by decide)
  | list => exact hash
  | listRange | listAtLeast => exact hash.append fun _ => solid_printRange _ _

theorem Canonical.solid {node : Node} (h : Canonical node) : Solid node.chars := by
  have several {items : List Node} (h : 2 ≤ items.length) : items ≠ [] := by
    rintro rfl
    simp at h
  have angles (text : List Char) : Solid ('<' :: (text ++ ['>'])) :=
    (solid_singleton (by decide)).between (solid_singleton (by decide)) text
  cases h with
  | keyword word => exact solid_optional (solid_of_isWord word) _
  | primitive | valueSpace => exact solid_optional (angles _) _
  | @propertyRef name =>
    have h := angles ('\'' :: (name.toList ++ ['\'']))
    exact solid_optional (by simpa [LeafKind.print] using h) _
  | @string text =>
    have h := (solid_singleton (by decide : ¬ Text.isBlank '\'')).between
      (solid_singleton (by decide : ¬ Text.isBlank '\'')) text.toList
    exact solid_optional h _
  | function word | noArguments word => exact solid_function word _ _
  | juxtaposition hl => exact (solid_parts _ (several hl)).append fun hne => absurd rfl hne
  | combination hl => exact solid_optional (solid_parts _ (several hl)) _
  | repetition _ bounds =>
    exact (solid_bracketed _).append fun _ => solid_optional bounds.solid _

/-! ### Definitions -/

/-- A tree that can be written is no wrapper around a single component. -/
theorem Canonical.unwrap {node : Node} (h : Canonical node) : unwrap node = node := by
  cases h with
  | @juxtaposition items several =>
    match items, several with
    | _ :: _ :: _, _ => rfl
  | repetition _ bounds => cases bounds <;> simp [Value.unwrap, Repetition.isStated]
  | _ => rfl

theorem Canonical.strip_print {node : Node} (h : Canonical node) :
    Text.strip node.print = node.print := by
  have chars : node.print.toList = node.chars := String.toList_ofList
  exact Trimmed.strip (by rw [chars]; exact h.solid.2)

theorem Canonical.strip_print_ne {node : Node} (h : Canonical node) :
    Text.strip node.print ≠ "" := by
  rw [h.strip_print]
  intro empty
  have chars : node.print.toList = node.chars := String.toList_ofList
  exact h.solid.1 (by rw [← chars, empty, String.toList_empty])

/-- A printed tree whose bounds can be read gives the tree. -/
theorem Canonical.parse_print {node : Node} (h : Canonical node) (short : node.IsShort) :
    parse node.print = .ok node := by
  obtain ⟨ts, phrase, scans, ⟨items, attached, hc, ha, hsym⟩, hd⟩ :=
    h.spells short [] [] 0 (by simp)
  have read : tokens (Text.strip node.print) = .ok ts := by
    rw [h.strip_print]
    exact scans.tokens_eq
  have hsymbols : symbols [] attached = some phrase := by
    have hnil := hsym []
    rw [List.append_nil] at hnil
    simpa [symbols] using hnil
  have assembled : assemble attached = .ok node := assemble_eq_ok_iff.mpr ⟨phrase, hsymbols, hd⟩
  have attaches : Attaches (primitives ++ []) ts attached := ⟨items, by simpa using hc, ha⟩
  rw [parse_eq_assembleTokens h.strip_print_ne read, attaches.assembleTokens_eq, assembled]
  simp [Except.map, Except.mapError, h.unwrap]

end WebSpec.Value
