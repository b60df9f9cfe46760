import WebSpec.Proofs.Value.Context
import WebSpec.Proofs.Value.Machine
import WebSpec.Proofs.Value.Refusal
import WebSpec.Proofs.Value.Tidy

/-!
# Fallbacks

Some branches on the way from a text to its tree are there only in case another part is wrong: a
multiplier with an unknown sign, a mark that is left where components are put side by side, nothing
that could be put side by side, a wrapper around the whole tree. No text ends in one of them,
whether it has a tree or is refused (`parse_avoids_fallbacks`).

There is one lemma for each pass: given tidy items it ends with tidy items, of which it has resolved
one kind more, or with a fault that is no fallback (`Passes`). The arguments of a function and the
inside of a group are parts of tidy items, so the same lemmas hold of them. The tokens are what they
are written as, which is where all of it starts (`passes_tokens`).
-/

namespace WebSpec.Value

/-- The faults of the branches that no text should reach. -/
def Fault.IsFallback : Fault → Prop
  | .unknownMultiplier _ | .strayToken _ | .noComponents => True
  | _ => False

/-- A pass ends with a result of which `p` holds, or with a fault that is no fallback. -/
abbrev Passes {α : Type} (p : α → Prop) : Except Fault α → Prop :=
  Ends p fun fault => ¬ fault.IsFallback

/-! ### Multipliers -/

theorem passes_rangeBounds (text : String) : Passes (fun _ => True) (rangeBounds text) := by
  refine (ends_rangeBounds text).imp (fun _ _ => trivial) fun fault range => ?_
  cases fault <;> first | exact id | cases range

theorem Token.IsLexical.text_mem {t : Token} (h : t.IsLexical) (ht : t.isMultiplier)
    (symbol : t.kind ≠ .multiplierRange) : t.text ∈ TokenKind.symbols .multiplier := by
  have hk : t.kind = .multiplier := by
    simpa [Token.isMultiplier, symbol] using ht
  rw [Token.IsLexical, hk] at h
  exact h

theorem passes_multiply {t : Token} (lexical : t.IsLexical) (ht : t.isMultiplier) (node : Node)
    (isGroup : Bool) : Passes (fun _ => True) (multiply t node isGroup) := by
  unfold multiply
  split_ifs with range star plus list optional _ required
  · exact (passes_rangeBounds t.text).bind fun _ _ => .ok trivial
  · exact .ok trivial
  · exact .ok trivial
  · exact .ok trivial
  · exact .ok trivial
  · exact .ok trivial
  · exact .ok trivial
  · exact .error id
  · have symbol := lexical.text_mem ht range
    simp [TokenKind.symbols, star, plus, list, optional, required] at symbol

theorem passes_multiplyNext (previous : Token) {t : Token} (lexical : t.IsLexical)
    (ht : t.isMultiplier) (node : Node) :
    Passes (fun _ => True) (multiplyNext previous t node) := by
  unfold multiplyNext
  split
  · split_ifs
    · exact (passes_rangeBounds t.text).bind fun _ _ => .ok trivial
    · exact passes_multiply lexical ht _ false
  · exact passes_multiply lexical ht _ false

theorem passes_multiplyRest (previous : Token) (node : Node) {ts : List Token}
    (lexical : ∀ t ∈ ts, t.IsLexical ∧ t.isMultiplier) :
    Passes (fun _ => True) (multiplyRest previous node ts) := by
  induction ts generalizing previous node with
  | nil => exact .ok trivial
  | cons t ts ih =>
    obtain ⟨⟨first, ht⟩, others⟩ := List.forall_mem_cons.mp lexical
    exact (passes_multiplyNext previous first ht node).bind fun next _ => ih t next others

/-- Multipliers that are written as such can be applied, or are refused for what they say. -/
theorem passes_multiplyAll (node : Node) (isGroup : Bool) {ts : List Token}
    (lexical : ∀ t ∈ ts, t.IsLexical ∧ t.isMultiplier) :
    Passes (fun _ => True) (multiplyAll node isGroup ts) := by
  cases ts with
  | nil => exact .ok trivial
  | cons t ts =>
    obtain ⟨⟨first, ht⟩, others⟩ := List.forall_mem_cons.mp lexical
    exact (passes_multiply first ht node isGroup).bind fun next _ =>
      passes_multiplyRest t next others

/-! ### Runs -/

section

variable {resolved : List TokenKind} {items rest : List Item}

/-- Items that are put together from what becomes of their runs. -/
theorem passes_runs {f : Run → Except Fault (List Item)} {runs : List Run} (filled : runs ≠ [])
    (h : ∀ run ∈ runs, Passes (Ready resolved) (f run)) :
    Passes (Ready resolved) (runs.mapM f >>= fun parts => pure parts.flatten) := by
  refine (ends_mapM h).bind fun parts ⟨length, become⟩ => .ok (.flatten ?_ become)
  exact List.length_pos_iff.mp (length ▸ List.length_pos_iff.mpr filled)

theorem passes_attach {run : Run} (hi : ¬ run.item.isMultiplier)
    (hm : ∀ t ∈ run.multipliers, t.isMultiplier)
    (left : ∀ item ∈ run.items, item.IsLeft resolved) : Passes (Ready resolved) run.attach := by
  have lexical := isLexical_multipliers hm left
  have ready := ready_items hi hm left
  obtain ⟨item, ms⟩ := run
  cases ms with
  | nil => exact .ok (ready (.inr rfl))
  | cons t ms =>
    cases item with
    | node node => exact (passes_multiplyAll node false lexical).bind fun _ _ => .ok (ready_node _)
    | mark u =>
      simp only [Run.attach]
      split_ifs with closes
      · exact .ok (ready (.inl (by simpa [Item.closes] using closes)))
      · exact .error id

theorem passes_attachMultipliers (filled : items ≠ [])
    (left : ∀ item ∈ items, item.IsLeft resolved) :
    Passes (Ready resolved) (attachMultipliers items) := by
  have attached : ∀ run ∈ (splitRuns items).2, Passes (Ready resolved) run.attach := by
    intro run hr
    refine passes_attach (not_isMultiplier_of_mem_splitRuns run hr)
      ((splitRuns_items items).2 run hr) fun item hi => ?_
    exact left item ((items_infix_of_mem_splitRuns hr).subset hi)
  have runs_filled := splitRuns_snd_ne_nil filled
  rw [← splitRuns_fst] at runs_filled
  unfold attachMultipliers
  generalize splitRuns items = split at attached runs_filled ⊢
  obtain ⟨_ | ⟨t, ms⟩, runs⟩ := split
  · exact passes_runs (runs_filled rfl) attached
  · exact .error id

theorem passes_release {run : Run} (hm : ∀ t ∈ run.multipliers, t.isMultiplier)
    (h : Orderly resolved run.items) :
    Passes (Ready (.parenClose :: .parenOpen :: resolved)) run.release := by
  have lexical := isLexical_multipliers hm h.left
  have kept (opens : ¬ run.item.isMark .parenOpen) (closes : ¬ run.item.isMark .parenClose) :
      Passes (Ready (.parenClose :: .parenOpen :: resolved)) (.ok run.items) := by
    have without_open := h.resolve (free_items opens hm (by simp))
    exact .ok ⟨without_open.resolve (free_items closes hm (by simp)), List.cons_ne_nil _ _⟩
  obtain ⟨item, ms⟩ := run
  cases item with
  | node node => exact kept (by simp) (by simp)
  | mark t =>
    simp only [Run.release]
    split_ifs with paren
    · exact (passes_multiplyAll _ false lexical).bind fun _ _ => .ok (ready_node _)
    · simp only [Bool.or_eq_true, decide_eq_true_eq, not_or] at paren
      exact kept (by simpa using paren.1) (by simpa using paren.2)

theorem passes_releaseParens (h : Ready resolved items) :
    Passes (Ready (.parenClose :: .parenOpen :: resolved)) (releaseParens items) := by
  have released : ∀ run ∈ (splitRuns items).2,
      Passes (Ready (.parenClose :: .parenOpen :: resolved)) run.release := by
    intro run hr
    refine passes_release ((splitRuns_items items).2 run hr) ⟨?_, ?_⟩
    · exact h.part (items_infix_of_mem_splitRuns hr)
    · exact leadingMultipliers_cons_of_not (not_isMultiplier_of_mem_splitRuns run hr)
  have runs_filled := splitRuns_snd_ne_nil h.filled h.leads
  have leads := h.leads
  rw [← splitRuns_fst] at leads
  unfold releaseParens
  generalize splitRuns items = split at released runs_filled leads ⊢
  obtain ⟨ms, runs⟩ := split
  obtain rfl : ms = [] := leads
  exact passes_runs runs_filled released

/-! ### Combinators -/

/-- Components and combinators are combined, unless a combinator lacks an operand. -/
theorem passes_combine {cs : List Combinator} (filled : items ≠ [])
    (h : ∀ item ∈ items, item.symbol.IsOperand cs) :
    Passes (fun _ => True) (combine cs items) := by
  induction cs generalizing items with
  | nil =>
    obtain ⟨nodes, rfl⟩ := exists_nodes_of_isOperand h
    have nodes_filled : nodes ≠ [] := by simpa using filled
    rw [combine, juxtapose_map_node nodes_filled]
    exact .ok trivial
  | cons c tighter ih =>
    rw [combine]
    split_ifs with lone empty
    · have other := (eq_of_length_splitAt lone).2
      exact ih filled fun item hi => (h item hi).tighter (other item hi)
    · exact .error id
    · refine (ends_mapM fun part hp => ih ?_ fun item hi => ?_).bind fun nodes _ => .ok trivial
      · rintro rfl
        exact empty (List.any_eq_true.mpr ⟨[], hp, rfl⟩)
      · obtain ⟨mem, other⟩ := mem_splitAt hp hi
        exact (h item mem).tighter other

/-! ### Groups and functions -/

/-- What is closed takes the multipliers behind it and becomes a component. -/
theorem passes_multiplied (node : Node) (isGroup : Bool) (h : Tidy resolved rest) :
    Passes (Keeps resolved items) (multiplyAll node isGroup (leadingMultipliers rest) >>=
      fun node => pure (.node node :: afterMultipliers rest)) := by
  refine (passes_multiplyAll node isGroup h.isLexical_leadingMultipliers).bind fun whole _ => ?_
  exact .ok (h.node_afterMultipliers whole).keeps

theorem passes_closeGroup (h : Orderly (.bracketOpen :: parens) rest) :
    Passes (Keeps (.bracketOpen :: parens) items) (closeGroup rest) := by
  unfold closeGroup
  split
  · exact .error id
  · exact .error id
  · rename_i inside after filled split
    obtain ⟨t, -, rfl, free⟩ := splitAtGroupEnd_eq_some split
    have operands := (h.left_of_append.resolve free).isOperand
    refine (passes_combine (fun empty => filled empty) operands).bind fun node _ => ?_
    exact passes_multiplied node true h.right_of_append

theorem passes_closeGroups (h : Tidy parens items) :
    Passes (Keeps (.bracketOpen :: parens) items) (closeGroups items) := by
  induction items with
  | nil => exact .ok .nil
  | cons item rest ih =>
    obtain ⟨-, -, tidy⟩ := tidy_cons_iff.mp h
    rw [closeGroups]
    refine (ih tidy).bind fun closed keeps => ?_
    split_ifs with opens
    · exact passes_closeGroup (keeps.orderly (h.leads_behind opens (.inr rfl)))
    · exact .ok (keeps.cons h opens)

theorem passes_assembleFlat (h : Ready [.functionStart] items) :
    Passes (fun _ => True) (assembleFlat items) := by
  unfold assembleFlat
  refine (passes_releaseParens h).bind fun released h => ?_
  refine (passes_closeGroups h.toTidy).bind fun closed keeps => ?_
  split_ifs with ends
  · exact .error id
  · have ready := keeps.ready h
    have free : ∀ item ∈ closed, ¬ item.isMark .bracketClose := by simpa using ends
    exact passes_combine ready.filled (ready.resolve free).isOperand

theorem passes_argumentsOf (h : Orderly [.functionStart] items) :
    Passes (fun _ => True) (argumentsOf items) := by
  unfold argumentsOf
  split_ifs with empty
  · exact .ok trivial
  · exact passes_assembleFlat ⟨h, by simpa using empty⟩

theorem passes_closeFunction (name : String) (h : Orderly [.functionStart] rest) :
    Passes (Keeps [.functionStart] items) (closeFunction name rest) := by
  cases split : splitAtParenEnd 0 rest with
  | none =>
    rw [closeFunction, split]
    exact .error id
  | some parts =>
    obtain ⟨inside, after⟩ := parts
    obtain ⟨t, rfl⟩ := splitAtParenEnd_eq_some split
    rw [closeFunction_of_splitAtParenEnd split]
    refine (passes_argumentsOf h.left_of_append).bind fun tree _ => ?_
    exact passes_multiplied _ false h.right_of_append

theorem passes_closeFunctions (h : Tidy [] items) :
    Passes (Keeps [.functionStart] items) (closeFunctions items) := by
  induction items with
  | nil => exact .ok .nil
  | cons item rest ih =>
    obtain ⟨-, -, tidy⟩ := tidy_cons_iff.mp h
    rw [closeFunctions]
    refine (ih tidy).bind fun closed keeps => ?_
    split
    · rename_i t starts
      have opens : item.isMark .functionStart := by simp [Item.isMark, starts]
      exact passes_closeFunction _ (keeps.orderly (h.leads_behind opens (.inl rfl)))
    · rename_i other
      exact .ok (keeps.cons h (by simp [Item.isMark, other]))

theorem passes_assemble (h : Ready [] items) : Passes (fun _ => True) (assemble items) := by
  unfold assemble
  exact (passes_closeFunctions h.toTidy).bind fun closed keeps =>
    passes_assembleFlat (keeps.ready h)

end

/-! ### From the text on -/

variable {known : List String}

theorem passes_classify {t : Token} (lexical : t.IsLexical) :
    Passes (Item.IsLeft []) (t.classify known) := by
  unfold Token.classify
  by_cases structural : t.kind.isStructural
  · rw [if_pos structural]
    exact .ok ⟨lexical, structural, by simp⟩
  rw [if_neg structural]
  split
  · exact .ok trivial
  · exact .ok trivial
  · exact .ok trivial
  · exact .ok trivial
  · exact .ok trivial
  · split_ifs
    · exact .ok trivial
    · exact .error id

theorem passes_assembleTokens {ts : List Token} (filled : ts ≠ [])
    (lexical : ∀ t ∈ ts, t.IsLexical) : Passes (fun _ => True) (assembleTokens known ts) := by
  unfold assembleTokens
  refine (ends_mapM fun t ht => passes_classify (lexical t ht)).bind ?_
  intro items ⟨length, left⟩
  have items_filled := List.length_pos_iff.mp (length ▸ List.length_pos_iff.mpr filled)
  exact (passes_attachMultipliers items_filled left).bind fun attached => passes_assemble

theorem passes_tokens {source : String} (trimmed : Trimmed source.toList) (filled : source ≠ "") :
    Passes (fun ts => ts ≠ [] ∧ ∀ t ∈ ts, t.IsLexical) (tokens source) := by
  cases h : tokens source with
  | error fault =>
    refine .error fun fallback => ?_
    have inside := isSome_mode?_of_run h
    cases fault <;> first | exact fallback | cases inside
  | ok ts =>
    have tiles := Tiles.of_tokens h
    refine .ok ⟨fun none => ?_, tiles.isLexical⟩
    -- The first character would be a blank.
    obtain ⟨c, cs, hs⟩ := List.exists_cons_of_ne_nil (mt String.toList_eq_nil_iff.mp filled)
    exact trimmed.head c (by simp [hs]) (tiles.blank_of_nil none c (by simp [hs]))

/-! ### Definitions -/

/-- A sequence of a single component that says nothing of its own. -/
def Node.IsWrapper (node : Node) : Prop :=
  ∃ item repetition, node = .sequence [item] repetition false ∧ ¬ repetition.isStated

theorem unwrap_eq_self_iff {node : Node} : unwrap node = node ↔ ¬ node.IsWrapper := by
  constructor
  · rintro same ⟨item, repetition, rfl, plain⟩
    have inner : item = .sequence [item] repetition false := by simpa [unwrap, plain] using same
    have size := congrArg sizeOf inner
    simp at size
    omega
  · intro other
    cases node with
    | leaf | function | combined => rfl
    | sequence items repetition isOptional =>
      obtain _ | ⟨item, _ | ⟨next, items⟩⟩ := items
      · rfl
      · have said : repetition.isStated ∨ isOptional := by
          by_contra h
          simp only [not_or, Bool.not_eq_true] at h
          exact other ⟨item, repetition, by rw [h.2], by simp [h.1]⟩
        rw [unwrap, if_pos (by simpa using said)]
      · rfl

theorem unwrap_of_assembleTokens {ts : List Token} {node : Node}
    (h : assembleTokens known ts = .ok node) : unwrap node = node := by
  obtain ⟨items, hc, h⟩ := bind_eq_ok.mp h
  obtain ⟨attached, ha, h⟩ := bind_eq_ok.mp h
  exact Attaches.unwrap ⟨items, hc, ha⟩ h

/-- The tree of a definition as it is assembled. -/
def assembleText (text : String) (extraPrimitives : List String) : Except DefinitionError Node :=
  let source := Text.strip text
  if source = "" then .error ⟨.blankDefinition, text⟩
  else
    (tokens source >>= assembleTokens (primitives ++ extraPrimitives)).mapError
      fun fault => ⟨fault, source⟩

theorem parse_eq_assembleText (text : String) (extraPrimitives : List String) :
    parse text extraPrimitives = assembleText text extraPrimitives := by
  by_cases blank : Text.strip text = ""
  · simp [parse, assembleText, blank]
  cases ht : tokens (Text.strip text) with
  | error fault =>
    simp [parse, assembleText, blank, parseStripped, ht, bind, Except.bind]
  | ok ts =>
    rw [parse_eq_assembleTokens blank ht]
    simp only [assembleText, blank, if_false, ht, bind, Except.bind]
    cases h : assembleTokens (primitives ++ extraPrimitives) ts with
    | error => rfl
    | ok node => simp only [Except.map, unwrap_of_assembleTokens h]

/-- A text with extra primitive types is read without a fallback. The machine that knows its state
by name reads the tokens of the text or faults where they do, so it never is in a state that it does
not know. Assembling them ends with a tree that is no wrapper, or with a fault that is no fallback.
And what is assembled is what the definition is. -/
theorem parse_avoids_fallbacks (text : String) (extraPrimitives : List String) :
    Machine.tokens (Text.strip text) = (tokens (Text.strip text)).mapError .fault ∧
    Ends (fun node => ¬ node.IsWrapper) (fun e => ¬ e.fault.IsFallback)
      (assembleText text extraPrimitives) ∧
    parse text extraPrimitives = assembleText text extraPrimitives := by
  refine ⟨Machine.tokens_eq _, ?_, parse_eq_assembleText text extraPrimitives⟩
  simp only [assembleText]
  split_ifs with blank
  · exact .error id
  refine Ends.mapError ?_ fun fault h => h
  refine (passes_tokens (trimmed_strip text) blank).bind fun ts ⟨filled, lexical⟩ => ?_
  refine (passes_assembleTokens filled lexical).of_ok fun node h => ?_
  exact unwrap_eq_self_iff.mp (unwrap_of_assembleTokens h)

end WebSpec.Value
