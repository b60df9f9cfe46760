import WebSpec.Proofs.Value.Call
import WebSpec.Proofs.Value.Printing
import WebSpec.Value.Definition

/-!
# From tokens to phrases

What stands between the tokens of a value definition and its grammar: tokens become items, the
multipliers of leaves are applied (`Attaches`), and the symbols of what is left are a phrase
(`ReadsAs`). `Denotes` follows some of the tokens of a definition all that way, and says what is
open before and after them, since a closing parenthesis is read by that. Both halves of a definition
can be followed on their own: `Denotes.append`.

`Multiplies` says the same of printed multipliers from their characters on: what they make of the
node that they follow.
-/

namespace WebSpec.Value

/-! ### Multipliers of leaves -/

theorem attachMultipliers_eq_ok_iff {items attached : List Item} :
    attachMultipliers items = .ok attached ↔ leadingMultipliers items = [] ∧
      ∃ parts, (splitRuns items).2.mapM Run.attach = .ok parts ∧ attached = parts.flatten := by
  rw [attachMultipliers, ← splitRuns_fst]
  obtain ⟨ms, runs⟩ := splitRuns items
  cases ms with
  | cons t ms => simp
  | nil =>
    simp only [bind_eq_ok, true_and]
    refine exists_congr fun parts => and_congr_right fun _ => ?_
    exact ⟨fun h => (Except.ok.inj h).symm, fun h => h ▸ rfl⟩

theorem attachMultipliers_append {items items' attached attached' : List Item}
    (h : attachMultipliers items = .ok attached) (h' : attachMultipliers items' = .ok attached') :
    attachMultipliers (items ++ items') = .ok (attached ++ attached') := by
  obtain ⟨hl, parts, hp, rfl⟩ := attachMultipliers_eq_ok_iff.mp h
  obtain ⟨hl', parts', hp', rfl⟩ := attachMultipliers_eq_ok_iff.mp h'
  refine attachMultipliers_eq_ok_iff.mpr
    ⟨leadingMultipliers_append_eq_nil hl hl', parts ++ parts', ?_, by simp⟩
  rw [splitRuns_append hl']
  exact mapM_append_eq_ok hp hp'

/-- One item with its multipliers. -/
theorem attachMultipliers_run {item : Item} {ms : List Token} {attached : List Item}
    (hi : ¬ item.isMultiplier) (hm : ∀ t ∈ ms, t.isMultiplier)
    (h : Run.attach ⟨item, ms⟩ = .ok attached) :
    attachMultipliers (item :: ms.map .mark) = .ok attached := by
  refine attachMultipliers_eq_ok_iff.mpr
    ⟨leadingMultipliers_cons_of_not hi, [attached], ?_, by simp⟩
  rw [splitRuns_run hi hm]
  exact mapM_eq_ok.mpr (.cons h .nil)

theorem Run.attach_node {node whole : Node} {ms : List Token}
    (h : multiplyAll node false ms = .ok whole) :
    Run.attach ⟨.node node, ms⟩ = .ok [.node whole] := by
  cases ms with
  | nil =>
    obtain rfl := Except.ok.inj h
    rfl
  | cons t ms => exact bind_eq_ok.mpr ⟨whole, h, rfl⟩

/-- The multipliers of a component are applied to it; those of a mark stay where they are. -/
theorem Run.attach_cases {run : Run} {part : List Item} (h : run.attach = .ok part) :
    (∃ node whole, run.item = .node node ∧ multiplyAll node false run.multipliers = .ok whole ∧
      part = [.node whole]) ∨ (∃ t, run.item = .mark t) ∧ part = run.items := by
  obtain ⟨item, ms⟩ := run
  cases item with
  | node node =>
    cases ms with
    | nil => exact .inl ⟨node, node, rfl, rfl, (Except.ok.inj h).symm⟩
    | cons t ms =>
      obtain ⟨whole, hw, h⟩ := bind_eq_ok.mp h
      exact .inl ⟨node, whole, rfl, hw, (Except.ok.inj h).symm⟩
  | mark t =>
    refine .inr ⟨⟨t, rfl⟩, ?_⟩
    cases ms with
    | nil => exact (Except.ok.inj h).symm
    | cons u ms =>
      simp only [Run.attach] at h
      split_ifs at h
      exact (Except.ok.inj h).symm

/-- The multipliers of a component decide alone what becomes of it. -/
theorem attachMultipliers_node {node : Node} {ms : List Token} (hm : ∀ t ∈ ms, t.isMultiplier) :
    attachMultipliers (.node node :: ms.map .mark) =
      multiplyAll node false ms >>= fun whole => pure [.node whole] := by
  rw [attachMultipliers, splitRuns_run (by simp [Item.isMultiplier]) hm]
  cases h : multiplyAll node false ms with
  | ok whole => simp [Run.attach_node h, bind, Except.bind, pure, Except.pure]
  | error fault =>
    cases ms with
    | nil => cases h
    | cons t ms => simp [Run.attach, h, bind, Except.bind]

theorem exists_of_attachMultipliers_append {items items' attached : List Item}
    (h : attachMultipliers (items ++ items') = .ok attached)
    (leads : leadingMultipliers items' = []) :
    ∃ part part', attachMultipliers items = .ok part ∧ attachMultipliers items' = .ok part' ∧
      attached = part ++ part' := by
  obtain ⟨first, _, runs, rfl⟩ := attachMultipliers_eq_ok_iff.mp h
  rw [← splitRuns_fst, splitRuns_append leads, splitRuns_fst] at first
  rw [splitRuns_append leads] at runs
  obtain ⟨parts, parts', hp, hp', rfl⟩ := exists_of_mapM_append_eq_ok runs
  exact ⟨_, _, attachMultipliers_eq_ok_iff.mpr ⟨first, parts, hp, rfl⟩,
    attachMultipliers_eq_ok_iff.mpr ⟨leads, parts', hp', rfl⟩, List.flatten_append⟩

theorem exists_of_attachMultipliers_mark {t : Token} {items attached : List Item}
    (ht : ¬ t.isMultiplier) (h : attachMultipliers (.mark t :: items) = .ok attached) :
    ∃ rest, attached = .mark t :: rest := by
  obtain ⟨-, parts, hp, rfl⟩ := attachMultipliers_eq_ok_iff.mp h
  rw [splitRuns_cons (by simpa [Item.isMultiplier] using ht)] at hp
  cases mapM_eq_ok.mp hp with
  | cons ha =>
    obtain ⟨_, _, hn, -, -⟩ | ⟨-, rfl⟩ := Run.attach_cases ha
    · cases hn
    · exact ⟨_, rfl⟩

/-! ### Tokens -/

/-- The tree of the given tokens. -/
def assembleTokens (known : List String) (ts : List Token) : Except Fault Node := do
  let items ← ts.mapM (Token.classify known)
  let attached ← attachMultipliers items
  assemble attached

/-- A definition is what its tokens are assembled into, unless this is a wrapper. -/
theorem parse_eq_assembleTokens {text : String} {extraPrimitives : List String} {ts : List Token}
    (nonblank : Text.strip text ≠ "") (ht : tokens (Text.strip text) = .ok ts) :
    parse text extraPrimitives =
      ((assembleTokens (primitives ++ extraPrimitives) ts).map unwrap).mapError
        fun fault => ⟨fault, Text.strip text⟩ := by
  simp only [parse, nonblank, if_false, parseStripped, ht, assembleTokens, bind, Except.bind]
  congr 1
  cases ts.mapM (Token.classify (primitives ++ extraPrimitives)) with
  | error => rfl
  | ok items =>
    cases h : attachMultipliers items with
    | error => simp [h, Except.map]
    | ok attached => cases assemble attached <;> simp [h, Except.map, pure, Except.pure]

/-- What tokens become when the multipliers of their leaves are applied. -/
def Attaches (known : List String) (ts : List Token) (attached : List Item) : Prop :=
  ∃ items, ts.mapM (Token.classify known) = .ok items ∧ attachMultipliers items = .ok attached

/-- Where `opened` is open, the items are the phrase whatever is behind them, and `opened'` is open
after them. -/
def ReadsAs (opened : List Opening) (items : List Item) (phrase : List Symbol)
    (opened' : List Opening) : Prop :=
  ∀ rest, symbols opened (items ++ rest) = (symbols opened' rest).map (phrase ++ ·)

variable {known : List String} {o o' o'' : List Opening}

theorem Attaches.append {ts ts' : List Token} {items items' : List Item}
    (h : Attaches known ts items) (h' : Attaches known ts' items') :
    Attaches known (ts ++ ts') (items ++ items') := by
  obtain ⟨_, hc, ha⟩ := h
  obtain ⟨_, hc', ha'⟩ := h'
  exact ⟨_, mapM_append_eq_ok hc hc', attachMultipliers_append ha ha'⟩

theorem Attaches.assembleTokens_eq {ts : List Token} {attached : List Item}
    (h : Attaches known ts attached) : assembleTokens known ts = assemble attached := by
  obtain ⟨items, hc, ha⟩ := h
  simp only [assembleTokens, hc, ha, bind, Except.bind]

theorem ReadsAs.append {items items' : List Item} {p p' : List Symbol}
    (h : ReadsAs o items p o') (h' : ReadsAs o' items' p' o'') :
    ReadsAs o (items ++ items') (p ++ p') o'' := by
  intro rest
  rw [List.append_assoc, h, h', Option.map_map]
  simp [Function.comp_def]

theorem readsAs_multipliers {o : List Opening} {ms : List Token} (hm : ∀ t ∈ ms, t.isMultiplier) :
    ReadsAs o (ms.map .mark) (ms.map .multiplier) o :=
  symbols_multipliers hm o

/-- Where `opened` is open, the tokens read as the phrase, and `opened'` is open after them. -/
def Denotes (opened : List Opening) (ts : List Token) (phrase : List Symbol)
    (opened' : List Opening) : Prop :=
  ∃ items attached, ts.mapM (Token.classify primitives) = .ok items ∧
    attachMultipliers items = .ok attached ∧
    ∀ rest, symbols opened (attached ++ rest) = (symbols opened' rest).map (phrase ++ ·)

theorem Denotes.nil : Denotes o [] [] o :=
  ⟨[], [], rfl, rfl, by simp⟩

theorem Denotes.append {ts ts' : List Token} {p p' : List Symbol} (h : Denotes o ts p o')
    (h' : Denotes o' ts' p' o'') : Denotes o (ts ++ ts') (p ++ p') o'' := by
  obtain ⟨items, attached, hc, ha, hs⟩ := h
  obtain ⟨items', attached', hc', ha', hs'⟩ := h'
  obtain ⟨whole, hc, ha⟩ := Attaches.append ⟨items, hc, ha⟩ ⟨items', hc', ha'⟩
  exact ⟨whole, attached ++ attached', hc, ha, ReadsAs.append hs hs'⟩

theorem classify_multipliers {ms : List Token} (hm : ∀ t ∈ ms, t.isMultiplier) :
    ms.mapM (Token.classify known) = .ok (ms.map .mark) := by
  rw [mapM_eq_ok]
  induction ms with
  | nil => exact .nil
  | cons t ms ih =>
    obtain ⟨ht, hm⟩ := List.forall_mem_cons.mp hm
    refine .cons ?_ (ih hm)
    have hk : t.kind = .multiplier ∨ t.kind = .multiplierRange := by
      simpa [Token.isMultiplier] using ht
    rcases hk with h | h <;> simp [Token.classify, h, TokenKind.isStructural]

/-- A mark keeps its multipliers, which only what closes something can have. -/
theorem attaches_mark_multipliers {t : Token} {ms : List Token} (hk : t.kind.isStructural)
    (hn : ¬ t.isMultiplier) (hm : ∀ u ∈ ms, u.isMultiplier)
    (closes : ms = [] ∨ t.kind = .bracketClose ∨ t.kind = .parenClose) :
    Attaches known (t :: ms) (.mark t :: ms.map .mark) := by
  refine ⟨.mark t :: ms.map .mark, ?_,
    attachMultipliers_run (by simpa [Item.isMultiplier] using hn) hm ?_⟩
  · exact mapM_eq_ok.mpr (.cons (if_pos hk) (mapM_eq_ok.mp (classify_multipliers hm)))
  · cases ms with
    | nil => rfl
    | cons u ms =>
      have hclose := closes.resolve_left (by simp)
      exact if_pos (by simpa using hclose)

/-- A mark at the start stays there. -/
theorem Attaches.exists_mark {ts : List Token} {t : Token} {attached : List Item}
    (h : Attaches known (t :: ts) attached) (hk : t.kind.isStructural) (ht : ¬ t.isMultiplier) :
    ∃ rest, attached = .mark t :: rest := by
  obtain ⟨items, hc, ha⟩ := h
  cases mapM_eq_ok.mp hc with
  | cons classified =>
    rw [Token.classify, if_pos hk] at classified
    obtain rfl := Except.ok.inj classified
    exact exists_of_attachMultipliers_mark ht ha

/-- Behind a closing parenthesis at the end, multipliers stay where they are. -/
theorem Attaches.append_multipliers {ts ms : List Token} {t : Token} {attached : List Item}
    (h : Attaches known (ts ++ [t]) attached) (ht : t.kind = .parenClose)
    (hm : ∀ u ∈ ms, u.isMultiplier) :
    Attaches known (ts ++ [t] ++ ms) (attached ++ ms.map .mark) := by
  have structural : t.kind.isStructural := by simp [ht, TokenKind.isStructural]
  have other : ¬ t.isMultiplier := by simp [Token.isMultiplier, ht]
  have last_attached : attachMultipliers [.mark t] = .ok [.mark t] :=
    @attachMultipliers_run (.mark t) [] [.mark t] other (by simp) rfl
  obtain ⟨_, h, ha⟩ := h
  obtain ⟨items, last, hc, hl, rfl⟩ := exists_of_mapM_append_eq_ok h
  obtain rfl : [.mark t] = last := by
    simpa [Token.classify, structural, pure, Except.pure, bind, Except.bind] using hl
  obtain ⟨part, part', hp, hp', rfl⟩ := exists_of_attachMultipliers_append ha (if_neg other)
  obtain rfl := Except.ok.inj (last_attached.symm.trans hp')
  have closes : Attaches known (t :: ms) ([.mark t] ++ ms.map .mark) :=
    attaches_mark_multipliers structural other hm (.inr (.inr ht))
  rw [List.append_assoc, List.append_assoc]
  exact Attaches.append ⟨items, hc, hp⟩ closes

/-- A leaf with its multipliers. -/
theorem Denotes.leaf {t : Token} {ms : List Token} {node whole : Node}
    (hc : t.classify primitives = .ok (.node node)) (hm : ∀ u ∈ ms, u.isMultiplier)
    (h : multiplyAll node false ms = .ok whole) : Denotes o (t :: ms) [.component whole] o := by
  refine ⟨.node node :: ms.map .mark, [.node whole], ?_,
    attachMultipliers_run (by simp [Item.isMultiplier]) hm (Run.attach_node h), fun rest => ?_⟩
  · exact mapM_eq_ok.mpr (.cons hc (mapM_eq_ok.mp (classify_multipliers hm)))
  · simp [symbols, Item.resolve]

/-- A mark with its multipliers, which only what closes something can have. -/
theorem Denotes.mark {t : Token} {ms : List Token} {s : Symbol} (hk : t.kind.isStructural)
    (hn : ¬ t.isMultiplier) (hr : (Item.mark t).resolve o = (s, o'))
    (hm : ∀ u ∈ ms, u.isMultiplier)
    (closes : ms = [] ∨ t.kind = .bracketClose ∨ t.kind = .parenClose) :
    Denotes o (t :: ms) (s :: ms.map .multiplier) o' := by
  obtain ⟨items, hc, ha⟩ := attaches_mark_multipliers hk hn hm closes
  refine ⟨items, _, hc, ha, fun rest => ?_⟩
  simp only [List.cons_append, symbols, hr, symbols_multipliers hm, Option.map_map,
    Function.comp_def]

/-! ### Multipliers -/

/-- In front of anything, the characters are multipliers, and these turn `node` into `f node`. -/
def Multiplies (isGroup : Bool) (cs : List Char) (f : Node → Node) : Prop :=
  ∀ rest position, ∃ ms, Scans cs rest position ms ∧ (∀ t ∈ ms, t.isMultiplier) ∧
    ∀ node, multiplyAll node isGroup ms = .ok (f node)

theorem multiplies_nothing (isGroup : Bool) : Multiplies isGroup [] id :=
  fun rest position => ⟨[], .nil rest position, by simp, fun _ => rfl⟩

/-- After another multiplier, `?` marks what may be left out. -/
theorem multiplyRest_append_optional {q : Token} (hk : q.kind = .multiplier) (ht : q.text = "?") :
    ∀ (ms : List Token) (previous : Token) (node whole : Node),
      multiplyRest previous node ms = .ok whole →
        multiplyRest previous node (ms ++ [q]) = .ok whole.makeOptional
  | [], previous, node, whole, h => by
    obtain rfl := Except.ok.inj h
    have hq : multiplyNext previous q node = .ok node.makeOptional := by
      cases node <;> simp [multiplyNext, multiply, hk, ht]
    exact bind_eq_ok.mpr ⟨_, hq, rfl⟩
  | t :: ms, previous, node, whole, h => by
    obtain ⟨node', hn, h⟩ := bind_eq_ok.mp h
    exact bind_eq_ok.mpr ⟨node', hn, multiplyRest_append_optional hk ht ms t node' whole h⟩

/-- Marking what may be left out. -/
def Node.optionally (isOptional : Bool) (node : Node) : Node :=
  if isOptional then node.makeOptional else node

theorem multiplies_optional (isOptional : Bool) :
    Multiplies false (printOptional isOptional) (Node.optionally isOptional) := by
  intro rest position
  cases isOptional with
  | false => exact multiplies_nothing false rest position
  | true =>
    refine ⟨_, Scans.symbol (by rfl) rest position, ?_, fun node => ?_⟩
    · simp [Token.isMultiplier]
    · cases node <;> rfl

/-- A group with multipliers that may be left out. -/
theorem Multiplies.optional {cs : List Char} {f : Node → Node} (h : Multiplies true cs f)
    (hc : ∀ node, f node ≠ node) (isOptional : Bool) :
    Multiplies true (cs ++ printOptional isOptional) fun node =>
      (f node).optionally isOptional := by
  intro rest position
  cases isOptional with
  | false =>
    rw [printOptional, if_neg (by simp), List.append_nil]
    exact h rest position
  | true =>
    obtain ⟨ms, hs, hm, hf⟩ := h ('?' :: rest) position
    cases ms with
    | nil => exact absurd (Except.ok.inj (hf (.juxtaposed []))).symm (hc _)
    | cons t ms =>
      refine ⟨_, hs.append (Scans.symbol (by rfl) rest _), ?_, fun node => ?_⟩
      · exact List.forall_mem_append.mpr ⟨hm, by simp [Token.isMultiplier]⟩
      · obtain ⟨node', hn, hr⟩ := bind_eq_ok.mp (hf node)
        exact bind_eq_ok.mpr ⟨node', hn, multiplyRest_append_optional rfl rfl ms t node' _ hr⟩

section Bounds

variable {m : Nat} {upper : List Char} {high : Option Int}

theorem scans_printRange (ht : ∀ c ∈ upper, c.isDigit) (rest : List Char) (position : Nat) :
    Scans (printRange m upper) rest position
      [⟨.multiplierRange, String.ofList (printRange m upper), position⟩] := by
  have digit {c : Char} (hc : c.isDigit) : c ≠ '\x7b' ∧ c ≠ '\x7d' := by
    constructor <;> rintro rfl <;> cases hc
  have plain : ∀ c ∈ printBound m ++ ',' :: upper, c ≠ '\x7b' ∧ c ≠ '\x7d' := by
    intro c hc
    rcases List.mem_append.mp hc with hc | hc
    · exact digit (isDigit_of_mem_printBound hc)
    · rcases List.mem_cons.mp hc with rfl | hc
      · decide
      · exact digit (ht c hc)
  simpa [printRange] using Scans.range plain rest position

theorem multiplies_printRange (ht : ∀ c ∈ upper, c.isDigit)
    (hb : rangeBounds (String.ofList (printRange m upper)) = .ok (m, high)) :
    Multiplies true (printRange m upper) fun node =>
      .repeated node { least := some m, greatest := high } := by
  intro rest position
  refine ⟨_, scans_printRange ht rest position, by simp [Token.isMultiplier], fun node => ?_⟩
  simp [multiplyAll, multiply, hb, multiplyRest, bind, Except.bind, pure, Except.pure]

/-- A range after `#` bounds the list. -/
theorem multiplies_list_printRange (ht : ∀ c ∈ upper, c.isDigit)
    (hb : rangeBounds (String.ofList (printRange m upper)) = .ok (m, high)) :
    Multiplies true ('#' :: printRange m upper) fun node =>
      .repeated node { least := some m, greatest := high, separator := some "," } := by
  intro rest position
  have hash : Scans ['#'] (printRange m upper ++ rest) position [⟨.multiplier, "#", position⟩] :=
    Scans.symbol (by rfl) _ position
  refine ⟨_, hash.append (scans_printRange ht rest _), by simp [Token.isMultiplier],
    fun node => ?_⟩
  simp [multiplyAll, multiply, hb, multiplyRest, multiplyNext, bind, Except.bind, pure,
    Except.pure]

end Bounds

theorem multiplies_repetition {r : Repetition} (h : r.Canonical) (short : r.IsShort) :
    Multiplies true r.print fun node => .repeated node r := by
  have limit {n : Nat} (hn : (n : Int) ∈ r.bounds) : n < 10 ^ Text.maxDigits :=
    natCast_lt_iff.mp (short n hn)
  have digits (n : Nat) : ∀ c ∈ printBound n, c.isDigit := fun c hc => isDigit_of_mem_printBound hc
  have noDigits : ∀ c ∈ ([] : List Char), c.isDigit := by simp
  cases h with
  | @range m n h =>
    have bounds := rangeBounds_between h (limit (by simp [Repetition.bounds]))
    exact multiplies_printRange (digits n) bounds
  | atLeast m =>
    have bounds := rangeBounds_from (limit (n := m) (by simp [Repetition.bounds]))
    exact multiplies_printRange noDigits bounds
  | atMostOne =>
    intro rest position
    exact ⟨_, Scans.symbol (by rfl) rest position, by simp [Token.isMultiplier], fun _ => rfl⟩
  | list =>
    intro rest position
    exact ⟨_, Scans.symbol (by rfl) rest position, by simp [Token.isMultiplier], fun _ => rfl⟩
  | @listRange m n h =>
    have bounds := rangeBounds_between h (limit (by simp [Repetition.bounds]))
    exact multiplies_list_printRange (digits n) bounds
  | listAtLeast m =>
    have bounds := rangeBounds_from (limit (n := m) (by simp [Repetition.bounds]))
    exact multiplies_list_printRange noDigits bounds

end WebSpec.Value
