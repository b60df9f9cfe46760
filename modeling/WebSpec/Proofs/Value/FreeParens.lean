import Mathlib.Data.List.Chain
import WebSpec.Proofs.Value.Denotation

/-!
# Parentheses in quotes

A parenthesis that belongs to no function is a literal, as a quoted one is, but it becomes one
later: a quoted parenthesis is a component from the beginning and takes its multipliers with the
other components, a bare one is a mark until the functions are closed. In definitions without
functions this makes one difference. No mark that opens something can be multiplied, so behind a
bare opening parenthesis a multiplier is refused, where a quoted one would take it.

Applying multipliers and releasing parentheses are both done run by run, so both together are
(`exists_release_iff`). For a run it makes no difference whether its parenthesis is quoted, as long
as it may be multiplied (`settles_quoteParen`), and what comes after sees no parenthesis at all.
-/

namespace WebSpec.Value

/-! ### Quoting -/

/-- Whether a token is a parenthesis on its own. -/
def Token.isParen (t : Token) : Bool :=
  t.kind = .parenOpen || t.kind = .parenClose

/-- A parenthesis in quotes; other tokens stay. -/
def Token.quoteParen (t : Token) : Token :=
  if t.isParen then { t with kind := .string } else t

/-- What the item of a token becomes when the token is quoted. -/
def Item.quoteParen : Item → Item
  | .node tree => .node tree
  | .mark token => if token.isParen then .node (.required .string token.text) else .mark token

/-- The same run with its parenthesis in quotes. -/
def Run.quoteParen (run : Run) : Run :=
  ⟨run.item.quoteParen, run.multipliers⟩

/-- Right behind an opening parenthesis there is no multiplier. -/
def OpeningsBare (ts : List Token) : Prop :=
  ts.IsChain fun t u => t.kind = .parenOpen → ¬ u.isMultiplier

instance (ts : List Token) : Decidable (OpeningsBare ts) :=
  inferInstanceAs (Decidable (ts.IsChain fun t u => t.kind = .parenOpen → ¬ u.isMultiplier))

variable {known : List String}

theorem Token.isParen_iff {t : Token} : t.isParen ↔ t.kind = .parenOpen ∨ t.kind = .parenClose := by
  simp [Token.isParen]

theorem Token.not_isMultiplier_of_isParen {t : Token} (h : t.isParen) : ¬ t.isMultiplier := by
  rcases Token.isParen_iff.mp h with h | h <;> simp [Token.isMultiplier, h]

theorem classify_quoteParen (t : Token) :
    t.quoteParen.classify known = mapBoth id Item.quoteParen (t.classify known) := by
  obtain ⟨kind, text, position⟩ := t
  cases kind with
  | keyword =>
    simp only [Token.quoteParen, Token.isParen, Token.classify, TokenKind.isStructural]
    split_ifs <;> simp_all [mapBoth, Item.quoteParen]
  | _ => rfl

@[simp] theorem Item.isMultiplier_quoteParen (item : Item) :
    item.quoteParen.isMultiplier = item.isMultiplier := by
  cases item with
  | node => rfl
  | mark t =>
    rw [Item.quoteParen]
    split_ifs with paren
    · simpa [Item.isMultiplier] using Token.not_isMultiplier_of_isParen paren
    · rfl

theorem splitRuns_quoteParen (items : List Item) :
    splitRuns (items.map Item.quoteParen) =
      ((splitRuns items).1, (splitRuns items).2.map Run.quoteParen) := by
  induction items with
  | nil => rfl
  | cons item rest ih =>
    by_cases h : item.isMultiplier
    · cases item with
      | node => cases h
      | mark t =>
        have paren : ¬ t.isParen := fun paren => Token.not_isMultiplier_of_isParen paren h
        have ht : t.isMultiplier := h
        simp [splitRuns, Item.quoteParen, paren, ht, ih]
    · have h' : ¬ item.quoteParen.isMultiplier := by simpa using h
      have leads := congrArg Prod.fst ih
      rw [splitRuns_fst, splitRuns_fst] at leads
      rw [List.map_cons, splitRuns_cons h', splitRuns_cons h, ih, leads]
      rfl

/-! ### One run -/

/-- What a run becomes when its multipliers are applied and its parenthesis is released. -/
def Settles (run : Run) (part : List Item) : Prop :=
  ∃ attached, run.attach = .ok attached ∧ releaseParens attached = .ok part

/-- A run does not multiply an opening parenthesis. -/
def Run.OpensBare (run : Run) : Prop :=
  run.item.isMark .parenOpen → run.multipliers = []

theorem settles_node {node : Node} {ms : List Token} {part : List Item} :
    Settles ⟨.node node, ms⟩ part ↔
      ∃ whole, multiplyAll node false ms = .ok whole ∧ part = [.node whole] := by
  constructor
  · rintro ⟨attached, ha, hr⟩
    obtain ⟨_, whole, hn, multiplied, rfl⟩ | ⟨⟨t, ht⟩, -⟩ := Run.attach_cases ha
    · obtain rfl := Item.node.inj hn
      exact ⟨whole, multiplied, (Except.ok.inj hr).symm⟩
    · cases ht
  · rintro ⟨whole, multiplied, rfl⟩
    exact ⟨_, Run.attach_node multiplied, rfl⟩

theorem settles_paren {t : Token} {ms : List Token} {part : List Item} (paren : t.isParen)
    (hm : ∀ u ∈ ms, u.isMultiplier) :
    Settles ⟨.mark t, ms⟩ part ↔ Run.OpensBare ⟨.mark t, ms⟩ ∧
      ∃ whole, multiplyAll (.required .string t.text) false ms = .ok whole ∧
        part = [.node whole] := by
  have ht : ¬ (Item.mark t).isMultiplier := Token.not_isMultiplier_of_isParen paren
  have released : releaseParens (.mark t :: ms.map .mark) = .ok part ↔
      ∃ whole, multiplyAll (.required .string t.text) false ms = .ok whole ∧
        part = [.node whole] := by
    rw [releaseParens_paren_eq (Token.isParen_iff.mp paren) hm, bind_eq_ok]
    refine exists_congr fun whole => and_congr_right fun _ => ?_
    exact ⟨fun h => (Except.ok.inj h).symm, fun h => h ▸ rfl⟩
  rw [← released]
  cases ms with
  | nil => simp [Settles, Run.attach, Run.OpensBare]
  | cons u ms =>
    rcases Token.isParen_iff.mp paren with h | h <;>
      simp [Settles, Run.attach, Run.OpensBare, Run.items, h]

/-- A parenthesis that may be multiplied becomes what it becomes in quotes. -/
theorem settles_quoteParen {run : Run} {part : List Item}
    (hm : ∀ t ∈ run.multipliers, t.isMultiplier) :
    Settles run part ↔ run.OpensBare ∧ Settles run.quoteParen part := by
  obtain ⟨item, ms⟩ := run
  cases item with
  | node node => simp [Run.OpensBare, Run.quoteParen, Item.quoteParen]
  | mark t =>
    by_cases paren : t.isParen
    · rw [settles_paren paren hm, Run.quoteParen, Item.quoteParen, if_pos paren, settles_node]
    · have other : Run.OpensBare ⟨.mark t, ms⟩ := by
        intro h
        simp_all [Token.isParen]
      simp [Run.quoteParen, Item.quoteParen, paren, other]

/-! ### All runs -/

theorem leadingMultipliers_of_attach {run : Run} {part : List Item} (h : run.attach = .ok part)
    (hi : ¬ run.item.isMultiplier) (rest : List Item) :
    leadingMultipliers (part ++ rest) = [] := by
  obtain ⟨_, whole, -, -, rfl⟩ | ⟨-, rfl⟩ := Run.attach_cases h
  · rfl
  · exact leadingMultipliers_cons_of_not hi

theorem releaseParens_eq_ok_iff {items released : List Item} (h : leadingMultipliers items = []) :
    releaseParens items = .ok released ↔
      ∃ parts, (splitRuns items).2.mapM Run.release = .ok parts ∧ released = parts.flatten := by
  rw [← splitRuns_fst] at h
  unfold releaseParens
  generalize splitRuns items = split at h ⊢
  obtain ⟨ms, runs⟩ := split
  obtain rfl : ms = [] := h
  simp only [bind_eq_ok, List.map_nil, List.nil_append]
  refine exists_congr fun parts => and_congr_right fun _ => ?_
  exact ⟨fun h => (Except.ok.inj h).symm, fun h => h ▸ rfl⟩

/-- Parentheses are released part by part. -/
theorem releaseParens_append_eq_ok_iff {items items' released : List Item}
    (h : leadingMultipliers items = []) (h' : leadingMultipliers items' = []) :
    releaseParens (items ++ items') = .ok released ↔
      ∃ part part', releaseParens items = .ok part ∧ releaseParens items' = .ok part' ∧
        released = part ++ part' := by
  constructor
  · intro whole
    rw [releaseParens_eq_ok_iff (leadingMultipliers_append_eq_nil h h'), splitRuns_append h']
      at whole
    obtain ⟨_, parts_eq, rfl⟩ := whole
    obtain ⟨parts, parts', hp, hp', rfl⟩ := exists_of_mapM_append_eq_ok parts_eq
    exact ⟨_, _, (releaseParens_eq_ok_iff h).mpr ⟨parts, hp, rfl⟩,
      (releaseParens_eq_ok_iff h').mpr ⟨parts', hp', rfl⟩, List.flatten_append⟩
  · rintro ⟨part, part', hp, hp', rfl⟩
    exact releaseParens_append hp hp' h'

theorem leadingMultipliers_of_attachAll {runs : List Run} {parts : List (List Item)}
    (h : runs.mapM Run.attach = .ok parts) (hi : ∀ run ∈ runs, ¬ run.item.isMultiplier) :
    leadingMultipliers parts.flatten = [] := by
  cases mapM_eq_ok.mp h with
  | nil => rfl
  | cons ha => exact leadingMultipliers_of_attach ha (hi _ List.mem_cons_self) _

/-- Runs settle one by one. -/
theorem exists_release_runs_iff {runs : List Run} (hi : ∀ run ∈ runs, ¬ run.item.isMultiplier)
    {released : List Item} :
    (∃ parts, runs.mapM Run.attach = .ok parts ∧ releaseParens parts.flatten = .ok released) ↔
      ∃ parts, List.Forall₂ Settles runs parts ∧ released = parts.flatten := by
  induction runs generalizing released with
  | nil =>
    constructor
    · rintro ⟨parts, hp, hr⟩
      obtain rfl := Except.ok.inj hp
      exact ⟨[], .nil, (Except.ok.inj hr).symm⟩
    · rintro ⟨parts, hp, rfl⟩
      cases hp
      exact ⟨[], rfl, rfl⟩
  | cons run runs ih =>
    obtain ⟨hi, his⟩ := List.forall_mem_cons.mp hi
    constructor
    · rintro ⟨parts, hp, hr⟩
      cases mapM_eq_ok.mp hp with
      | @cons _ part _ parts ha has =>
        replace has := mapM_eq_ok.mpr has
        have leads := leadingMultipliers_of_attach ha hi []
        rw [List.append_nil] at leads
        obtain ⟨settled, _, hs, hs', rfl⟩ := (releaseParens_append_eq_ok_iff leads
          (leadingMultipliers_of_attachAll has his)).mp hr
        obtain ⟨settles, hss, rfl⟩ := (ih his).mp ⟨parts, has, hs'⟩
        exact ⟨settled :: settles, .cons ⟨part, ha, hs⟩ hss, rfl⟩
    · rintro ⟨parts, hp, rfl⟩
      cases hp with
      | cons hs hss =>
        obtain ⟨part, ha, hs⟩ := hs
        obtain ⟨parts, has, hss⟩ := (ih his).mpr ⟨_, hss, rfl⟩
        exact ⟨part :: parts, mapM_eq_ok.mpr (.cons ha (mapM_eq_ok.mp has)),
          releaseParens_append hs hss (leadingMultipliers_of_attachAll has his)⟩

/-- What items become when their multipliers are applied and parentheses are released. -/
theorem exists_release_iff {items released : List Item} :
    (∃ attached, attachMultipliers items = .ok attached ∧ releaseParens attached = .ok released) ↔
      leadingMultipliers items = [] ∧
        ∃ parts, List.Forall₂ Settles (splitRuns items).2 parts ∧ released = parts.flatten := by
  rw [← exists_release_runs_iff not_isMultiplier_of_mem_splitRuns]
  constructor
  · rintro ⟨attached, ha, hr⟩
    obtain ⟨leads, parts, hp, rfl⟩ := attachMultipliers_eq_ok_iff.mp ha
    exact ⟨leads, parts, hp, hr⟩
  · rintro ⟨leads, parts, hp, hr⟩
    exact ⟨_, attachMultipliers_eq_ok_iff.mpr ⟨leads, parts, hp, rfl⟩, hr⟩

theorem forall₂_settles_quoteParen {runs : List Run} {parts : List (List Item)}
    (hm : ∀ run ∈ runs, ∀ t ∈ run.multipliers, t.isMultiplier) :
    List.Forall₂ Settles runs parts ↔ (∀ run ∈ runs, run.OpensBare) ∧
      List.Forall₂ Settles (runs.map Run.quoteParen) parts := by
  induction runs generalizing parts with
  | nil => simp
  | cons run runs ih =>
    obtain ⟨hm, hms⟩ := List.forall_mem_cons.mp hm
    rw [List.map_cons, List.forall_mem_cons, List.forall₂_cons_left_iff,
      List.forall₂_cons_left_iff]
    simp only [settles_quoteParen hm, ih hms]
    tauto

/-- Items become the same when their parentheses are quoted, if they may be multiplied. -/
theorem exists_release_quoteParen_iff {items released : List Item} :
    (∃ attached, attachMultipliers items = .ok attached ∧ releaseParens attached = .ok released) ↔
      (∀ run ∈ (splitRuns items).2, run.OpensBare) ∧
        ∃ attached, attachMultipliers (items.map Item.quoteParen) = .ok attached ∧
          releaseParens attached = .ok released := by
  have leads : leadingMultipliers (items.map Item.quoteParen) = leadingMultipliers items := by
    rw [← splitRuns_fst, splitRuns_quoteParen, splitRuns_fst]
  simp only [exists_release_iff, leads, splitRuns_quoteParen,
    forall₂_settles_quoteParen (splitRuns_items items).2]
  tauto

/-! ### Classified tokens -/

theorem classify_cases {t : Token} {item : Item} (h : t.classify known = .ok item) :
    (t.kind.isStructural ∧ item = .mark t) ∨
      (¬ t.kind.isStructural ∧ ∃ node, item = .node node) := by
  by_cases structural : t.kind.isStructural
  · rw [Token.classify, if_pos structural] at h
    exact .inl ⟨structural, (Except.ok.inj h).symm⟩
  · refine .inr ⟨structural, ?_⟩
    cases item with
    | node node => exact ⟨node, rfl⟩
    | mark u =>
      rw [Token.classify, if_neg structural] at h
      split at h
      · cases h
      · cases h
      · cases h
      · cases h
      · cases h
      · split_ifs at h
        cases h

/-- A token of a structural kind is a mark of this kind. -/
theorem isMark_of_classify {t : Token} {item : Item} (h : t.classify known = .ok item)
    {kind : TokenKind} (structural : kind.isStructural) : item.isMark kind ↔ t.kind = kind := by
  obtain ⟨-, rfl⟩ | ⟨other, node, rfl⟩ := classify_cases h
  · simp
  · simp only [Item.isMark_node, Bool.false_eq_true, false_iff]
    rintro rfl
    exact other structural

theorem isMultiplier_of_classify {t : Token} {item : Item} (h : t.classify known = .ok item) :
    item.isMultiplier = t.isMultiplier := by
  obtain ⟨-, rfl⟩ | ⟨other, node, rfl⟩ := classify_cases h
  · rfl
  · have (kind : TokenKind) (structural : kind.isStructural) : t.kind ≠ kind := by
      rintro rfl
      exact other structural
    simp [Item.isMultiplier, Token.isMultiplier, this .multiplier rfl,
      this .multiplierRange rfl]

theorem openingsBare_cons {t : Token} {ts : List Token} :
    OpeningsBare (t :: ts) ↔
      (t.kind = .parenOpen → ∀ u ∈ ts.head?, ¬ u.isMultiplier) ∧ OpeningsBare ts := by
  rw [OpeningsBare, List.isChain_cons]
  exact and_congr_left fun _ => ⟨fun h hk u hu => h u hu hk, fun h u hu hk => h hk u hu⟩

theorem functionFree_of_classifyAll {ts : List Token} {items : List Item}
    (h : ts.mapM (Token.classify known) = .ok items) (ht : ∀ t ∈ ts, t.kind ≠ .functionStart) :
    FunctionFree items := by
  intro item hi
  obtain ⟨t, mem, hc⟩ := exists_of_mem_mapM_eq_ok h hi
  rw [isMark_of_classify hc rfl]
  exact ht t mem

theorem leadingMultipliers_of_classifyAll {ts : List Token} {items : List Item}
    (h : ts.mapM (Token.classify known) = .ok items) :
    leadingMultipliers items = [] ↔ ∀ t ∈ ts.head?, ¬ t.isMultiplier := by
  cases mapM_eq_ok.mp h with
  | nil => simp [leadingMultipliers]
  | @cons t item ts items hc =>
    have same := isMultiplier_of_classify hc
    simp only [List.head?_cons, Option.mem_def, Option.some.injEq, forall_eq', ← same]
    refine ⟨fun leads => ?_, leadingMultipliers_cons_of_not⟩
    cases item with
    | node => simp [Item.isMultiplier]
    | mark u =>
      rw [leadingMultipliers] at leads
      split_ifs at leads with hm
      exact hm

/-- Which opening parentheses are multiplied can be seen from the tokens. -/
theorem openingsBare_iff {ts : List Token} {items : List Item}
    (h : ts.mapM (Token.classify known) = .ok items) :
    OpeningsBare ts ↔ ∀ run ∈ (splitRuns items).2, run.OpensBare := by
  replace h := mapM_eq_ok.mp h
  induction h with
  | nil => simp [splitRuns, OpeningsBare]
  | @cons t item ts items hc hcs ih =>
    rw [openingsBare_cons]
    by_cases hm : item.isMultiplier
    · cases item with
      | node => cases hm
      | mark u =>
        have hu : u.isMultiplier := hm
        have other : t.kind ≠ .parenOpen := by
          intro hk
          have := isMultiplier_of_classify hc
          simp [hm, Token.isMultiplier, hk] at this
        simpa [splitRuns, hu, other] using ih
    · rw [splitRuns_cons hm, List.forall_mem_cons, Run.OpensBare, isMark_of_classify hc rfl,
        leadingMultipliers_of_classifyAll (mapM_eq_ok.mpr hcs)]
      exact and_congr_right fun _ => ih

/-! ### Whole definitions -/

theorem functionFree_of_attachMultipliers {items attached : List Item}
    (h : attachMultipliers items = .ok attached) (free : FunctionFree items) :
    FunctionFree attached := by
  obtain ⟨-, parts, hp, rfl⟩ := attachMultipliers_eq_ok_iff.mp h
  intro item hi
  obtain ⟨part, mem, hi⟩ := List.mem_flatten.mp hi
  obtain ⟨run, hr, ha⟩ := exists_of_mem_mapM_eq_ok hp mem
  obtain ⟨_, whole, -, -, rfl⟩ | ⟨-, rfl⟩ := Run.attach_cases ha
  · obtain rfl := List.mem_singleton.mp hi
    simp
  · refine free item ?_
    rw [← (splitRuns_items items).1]
    exact List.mem_append_right _ (List.mem_flatMap.mpr ⟨run, hr, hi⟩)

/-- Assembles items without functions and parentheses. -/
def assembleReleased (items : List Item) : Except Fault Node := do
  let items ← closeGroups items
  if items.any (Item.isMark .bracketClose) then .error .unexpectedGroupEnd
  else combine allCombinators items

/-- Tokens without function names make what they become when parentheses are released. -/
theorem assembleTokens_eq_ok_iff {ts : List Token} (ht : ∀ t ∈ ts, t.kind ≠ .functionStart)
    {node : Node} :
    assembleTokens known ts = .ok node ↔
      ∃ items released, ts.mapM (Token.classify known) = .ok items ∧
        (∃ attached, attachMultipliers items = .ok attached ∧
          releaseParens attached = .ok released) ∧ assembleReleased released = .ok node := by
  have closed {items attached : List Item} (hc : ts.mapM (Token.classify known) = .ok items)
      (ha : attachMultipliers items = .ok attached) :
      assemble attached = releaseParens attached >>= assembleReleased := by
    have free := functionFree_of_attachMultipliers ha (functionFree_of_classifyAll hc ht)
    simp only [assemble, closeFunctions_of_functionFree free, bind, Except.bind]
    rfl
  constructor
  · intro h
    obtain ⟨items, hc, h⟩ := bind_eq_ok.mp h
    obtain ⟨attached, ha, h⟩ := bind_eq_ok.mp h
    rw [closed hc ha] at h
    obtain ⟨released, hr, h⟩ := bind_eq_ok.mp h
    exact ⟨items, released, hc, ⟨attached, ha, hr⟩, h⟩
  · rintro ⟨items, released, hc, ⟨attached, ha, hr⟩, h⟩
    refine bind_eq_ok.mpr ⟨items, hc, bind_eq_ok.mpr ⟨attached, ha, ?_⟩⟩
    rw [closed hc ha]
    exact bind_eq_ok.mpr ⟨released, hr, h⟩

theorem classifyAll_quoteParen (ts : List Token) :
    (ts.map Token.quoteParen).mapM (Token.classify known) =
      mapBoth id (List.map Item.quoteParen) (ts.mapM (Token.classify known)) :=
  mapM_map_eq_mapBoth classify_quoteParen ts

theorem kind_quoteParen_ne {t : Token} (h : t.kind ≠ .functionStart) :
    t.quoteParen.kind ≠ .functionStart := by
  rw [Token.quoteParen]
  split_ifs
  · simp
  · exact h

/-- Tokens make a tree when they make it with their parentheses in quotes and no opening
parenthesis is multiplied. -/
theorem assembleTokens_quoteParen {ts : List Token} (ht : ∀ t ∈ ts, t.kind ≠ .functionStart)
    (node : Node) :
    assembleTokens known ts = .ok node ↔
      OpeningsBare ts ∧ assembleTokens known (ts.map Token.quoteParen) = .ok node := by
  have ht' : ∀ t ∈ ts.map Token.quoteParen, t.kind ≠ .functionStart := by
    simpa using fun t mem => kind_quoteParen_ne (ht t mem)
  rw [assembleTokens_eq_ok_iff ht, assembleTokens_eq_ok_iff ht', classifyAll_quoteParen]
  cases hc : ts.mapM (Token.classify known) with
  | error => simp [mapBoth]
  | ok items =>
    simp only [mapBoth, Except.ok.injEq, openingsBare_iff hc]
    constructor
    · rintro ⟨_, released, rfl, hr, h⟩
      obtain ⟨bare, hr⟩ := exists_release_quoteParen_iff.mp hr
      exact ⟨bare, _, released, rfl, hr, h⟩
    · rintro ⟨bare, _, released, rfl, hr, h⟩
      exact ⟨_, released, rfl, exists_release_quoteParen_iff.mpr ⟨bare, hr⟩, h⟩

/-- Without functions, a parenthesis is what it is in quotes, unless it opens something and is
multiplied: then the definition is refused. -/
theorem assembleTokens_free_parens (known : List String) {ts : List Token}
    (ht : ∀ t ∈ ts, t.kind ≠ .functionStart) :
    (OpeningsBare ts → (assembleTokens known (ts.map Token.quoteParen)).toOption =
      (assembleTokens known ts).toOption) ∧
    (¬ OpeningsBare ts → (assembleTokens known ts).toOption = none) := by
  have same := @assembleTokens_quoteParen known ts ht
  constructor
  · intro bare
    refine Option.ext fun node => ?_
    simp only [toOption_eq_some, same, bare, true_and]
  · intro multiplied
    refine Option.eq_none_iff_forall_ne_some.mpr fun node h => multiplied ?_
    exact ((same node).mp (toOption_eq_some.mp h)).1

/-- Parentheses beside brackets, combinators and multipliers. -/
theorem assembleTokens_free_parens_stacked :
    ∃ ts, tokens "[ ( | )#\x7b1,4\x7d? ]! (" = .ok ts ∧ OpeningsBare ts ∧
      (assembleTokens primitives (ts.map Token.quoteParen)).toOption =
        (assembleTokens primitives ts).toOption := by
  refine ⟨_, rfl, by decide, ?_⟩
  exact (assembleTokens_free_parens primitives (by decide)).1 (by decide)

/-- An opening parenthesis that is multiplied is refused, and the same in quotes is not. -/
theorem multiplied_opening_refused :
    ∃ ts, tokens "(*" = .ok ts ∧ (∀ t ∈ ts, t.kind ≠ .functionStart) ∧
      (assembleTokens primitives ts).toOption = none ∧
      (assembleTokens primitives (ts.map Token.quoteParen)).toOption =
        some (.repeated (.required .string "(") { least := some 0 }) :=
  ⟨_, rfl, by decide, rfl, rfl⟩

end WebSpec.Value
