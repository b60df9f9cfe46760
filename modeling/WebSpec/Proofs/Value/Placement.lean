import WebSpec.Proofs.Value.Denotation

/-!
# Where a definition stands

The tokens of a definition are the same wherever it stands in a longer text, as long as a blank is
behind it: only their positions move. Positions mean nothing to what the tokens are made into. So a
definition that has a grammar tree has the same one in its place.

`Scans.of_tokens` is the first half, `attachMultipliers_shift` and `Derives.shift` are the second
one.
-/

namespace WebSpec.Value

/-! ### Reading at another position -/

/-- The same token, further behind. -/
def Token.shift (k : Nat) (t : Token) : Token :=
  { t with position := t.position + k }

theorem Token.shift_zero (t : Token) : t.shift 0 = t := by
  simp [Token.shift]

namespace Reading

/-- The same reading, further behind. -/
def shift (k : Nat) : Reading → Reading
  | .between => .between
  | .word first text => .word (first + k) text
  | .quoted first text => .quoted (first + k) text
  | .typeRef first text => .typeRef (first + k) text
  | .propertyRef first text => .propertyRef (first + k) text
  | .propertyRefEnd first text => .propertyRefEnd (first + k) text
  | .range first text => .range (first + k) text
  | .ampersand first => .ampersand (first + k)
  | .bar first => .bar (first + k)

variable {r r' : Reading} {position k : Nat} {c : Char} {ts : List Token}

theorem start_shift (h : start position c = .ok (ts, r')) :
    start (position + k) c = .ok (ts.map (Token.shift k), r'.shift k) := by
  unfold start at h ⊢
  split_ifs at h ⊢
  any_goals
    obtain ⟨rfl, rfl⟩ := Prod.mk.inj (Except.ok.inj h)
    rfl
  -- Otherwise the character is a symbol, begins a word, or is refused.
  all_goals
    split at h
    · obtain ⟨rfl, rfl⟩ := Prod.mk.inj (Except.ok.inj h)
      rfl
  · cases h
  · obtain ⟨rfl, rfl⟩ := Prod.mk.inj (Except.ok.inj h)
    rfl

theorem endBefore_shift {t : Token} (h : endBefore t position c = .ok (ts, r')) :
    endBefore (t.shift k) (position + k) c = .ok (ts.map (Token.shift k), r'.shift k) := by
  obtain ⟨others, hs, rfl⟩ := endBefore_eq_ok.mp h
  exact endBefore_eq_ok.mpr ⟨_, start_shift hs, rfl⟩

/-- A step further behind is the same step. -/
theorem step_shift (h : r.step position c = .ok (ts, r')) :
    (r.shift k).step (position + k) c = .ok (ts.map (Token.shift k), r'.shift k) := by
  cases r with
  | between => exact start_shift h
  | _ =>
    simp only [step, shift, refuse] at h ⊢
    split_ifs at h ⊢
    all_goals first
      | exact endBefore_shift h
      | obtain ⟨rfl, rfl⟩ := Prod.mk.inj (Except.ok.inj h)
        rfl

theorem finish_shift {source source' : List Char} (h : r.finish source = .ok ts) :
    (r.shift k).finish source' = .ok (ts.map (Token.shift k)) := by
  cases r with
  | between =>
    obtain rfl := Except.ok.inj h
    rfl
  | word first text =>
    obtain rfl := Except.ok.inj h
    rfl
  | _ => cases h

/-- What completes a text is completed in front of what may follow a word. -/
theorem run_of_finish {source : List Char} (h : r.finish source = .ok ts) {rest : List Char}
    (ends : EndsWord rest) (source' : List Char) (position : Nat) :
    run source' position r rest = (run source' position .between rest).map (ts ++ ·) := by
  cases r with
  | between =>
    obtain rfl := Except.ok.inj h
    cases run source' position .between rest <;> rfl
  | word first text =>
    obtain rfl := Except.ok.inj h
    exact run_endsWord ends source' position text first
  | _ => cases h

theorem run_shift {cs : List Char} {source : List Char} (h : run source position r cs = .ok ts)
    {rest : List Char} (ends : EndsWord rest) (source' : List Char) :
    run source' (position + k) (r.shift k) (cs ++ rest) =
      (run source' (position + k + cs.length) .between rest).map
        (ts.map (Token.shift k) ++ ·) := by
  induction cs generalizing position r ts with
  | nil => exact run_of_finish (@finish_shift r k ts source source h) ends source' (position + k)
  | cons c' cs ih =>
    obtain ⟨⟨ts₁, r'⟩, hs, h⟩ := bind_eq_ok.mp h
    obtain ⟨ts₂, hr, h⟩ := bind_eq_ok.mp h
    obtain rfl := Except.ok.inj h
    have tail := ih hr
    rw [List.cons_append, run_cons_of_step (step_shift hs), Nat.add_right_comm, tail,
      List.length_cons, Nat.add_right_comm position 1 k, Nat.add_assoc (position + k) 1,
      Nat.add_comm 1, List.map_append]
    cases run source' (position + k + (cs.length + 1)) .between rest <;> simp [Except.map]

end Reading

/-- The tokens of a text are read wherever it stands in front of what may follow a word. -/
theorem Scans.of_tokens_endsWord {text : String} {ts : List Token} (h : tokens text = .ok ts)
    {rest : List Char} (ends : EndsWord rest) (position : Nat) :
    Scans text.toList rest position (ts.map (Token.shift position)) := by
  intro source
  have hr : Reading.run source (0 + position) .between (text.toList ++ rest) = _ :=
    Reading.run_shift h ends source
  rwa [Nat.zero_add] at hr

/-- The tokens of a text are read wherever it stands in front of a blank. -/
theorem Scans.of_tokens {text : String} {ts : List Token} (h : tokens text = .ok ts) {c : Char}
    (hc : Text.isBlank c) (rest : List Char) (position : Nat) :
    Scans (text.toList ++ [c]) rest position (ts.map (Token.shift position)) := by
  have ends : EndsWord ([c] ++ rest) := fun c' hc' => .inl (Option.some.inj hc' ▸ hc)
  have whole := (Scans.of_tokens_endsWord h ends position).append (Scans.blank hc rest _)
  rwa [List.append_nil] at whole

/-! ### Positions mean nothing -/

/-- The same item, further behind. -/
def Item.shift (k : Nat) : Item → Item
  | .node tree => .node tree
  | .mark token => .mark (token.shift k)

/-- The same symbol, further behind. -/
def Symbol.shift (k : Nat) : Symbol → Symbol
  | .multiplier t => .multiplier (t.shift k)
  | .stray t => .stray (t.shift k)
  | symbol => symbol

/-- The same run, further behind. -/
def Run.shift (k : Nat) (run : Run) : Run :=
  ⟨run.item.shift k, run.multipliers.map (Token.shift k)⟩

variable {k : Nat}

@[simp] theorem Token.isMultiplier_shift (t : Token) :
    (t.shift k).isMultiplier = t.isMultiplier := rfl

theorem classify_shift {known : List String} {t : Token} {item : Item}
    (h : t.classify known = .ok item) : (t.shift k).classify known = .ok (item.shift k) := by
  obtain ⟨kind, text, position⟩ := t
  cases kind with
  | keyword =>
    simp only [Token.classify] at h ⊢
    by_cases starts : startsKeyword text
    · simp [TokenKind.isStructural, starts, Token.shift] at h ⊢
      subst h
      rfl
    · simp [TokenKind.isStructural, starts] at h
  | _ =>
    obtain rfl := Except.ok.inj h
    rfl

theorem classifyAll_shift {known : List String} {ts : List Token} {items : List Item}
    (h : ts.mapM (Token.classify known) = .ok items) :
    (ts.map (Token.shift k)).mapM (Token.classify known) = .ok (items.map (Item.shift k)) := by
  rw [mapM_eq_ok] at h ⊢
  induction h with
  | nil => exact .nil
  | cons hc _ ih => exact .cons (classify_shift hc) ih

theorem multiplyRest_shift (previous : Token) (node : Node) (ts : List Token) :
    multiplyRest (previous.shift k) node (ts.map (Token.shift k)) =
      multiplyRest previous node ts := by
  induction ts generalizing previous node with
  | nil => rfl
  | cons t ts ih =>
    have next :
        multiplyNext (previous.shift k) (t.shift k) node = multiplyNext previous t node := by
      cases node <;> rfl
    simp only [List.map_cons, multiplyRest, next, ih]

theorem multiplyAll_shift (node : Node) (isGroup : Bool) (ts : List Token) :
    multiplyAll node isGroup (ts.map (Token.shift k)) = multiplyAll node isGroup ts := by
  cases ts with
  | nil => rfl
  | cons t ts =>
    have first : multiply (t.shift k) node isGroup = multiply t node isGroup := rfl
    simp only [List.map_cons, multiplyAll, first, multiplyRest_shift]

theorem splitRuns_shift (items : List Item) :
    splitRuns (items.map (Item.shift k)) =
      ((splitRuns items).1.map (Token.shift k), (splitRuns items).2.map (Run.shift k)) := by
  induction items with
  | nil => rfl
  | cons item rest ih =>
    cases item with
    | node node => simp [splitRuns, Item.shift, Run.shift, ih]
    | mark t => by_cases ht : t.isMultiplier <;> simp [splitRuns, Item.shift, Run.shift, ih, ht]

theorem attach_shift {run : Run} {items : List Item} (h : run.attach = .ok items) :
    (run.shift k).attach = .ok (items.map (Item.shift k)) := by
  obtain ⟨item, ms⟩ := run
  cases ms with
  | nil =>
    obtain rfl := Except.ok.inj h
    rfl
  | cons t ms =>
    cases item with
    | node node =>
      obtain ⟨whole, hw, h⟩ := bind_eq_ok.mp h
      obtain rfl := Except.ok.inj h
      exact bind_eq_ok.mpr ⟨whole, (multiplyAll_shift node false (t :: ms)).trans hw, rfl⟩
    | mark u =>
      simp only [Run.attach, Run.shift, Item.shift, List.map_cons, Token.shift] at h ⊢
      split_ifs at h ⊢
      obtain rfl := Except.ok.inj h
      simp [Run.items, Item.shift, Token.shift]

theorem attachMultipliers_shift {items attached : List Item}
    (h : attachMultipliers items = .ok attached) :
    attachMultipliers (items.map (Item.shift k)) = .ok (attached.map (Item.shift k)) := by
  rw [attachMultipliers_eq_ok_iff, ← splitRuns_fst] at h ⊢
  obtain ⟨leads, parts, hp, rfl⟩ := h
  rw [splitRuns_shift, leads]
  refine ⟨rfl, parts.map (List.map (Item.shift k)), ?_, List.map_flatten⟩
  rw [mapM_eq_ok] at hp ⊢
  simp only
  generalize (splitRuns items).2 = runs at hp ⊢
  clear leads
  induction hp with
  | nil => exact .nil
  | cons ha _ ih => exact .cons (attach_shift ha) ih

theorem Token.symbol_shift (t : Token) : (t.shift k).symbol = t.symbol.shift k := by
  obtain ⟨kind, text, position⟩ := t
  cases kind with
  | combinator =>
    have same : (Token.shift k ⟨.combinator, text, position⟩).combinator? =
      Token.combinator? ⟨.combinator, text, position⟩ := rfl
    have spelled : (Token.shift k ⟨.combinator, text, position⟩).kind = .combinator := rfl
    simp only [Token.symbol, spelled, same]
    cases Token.combinator? ⟨.combinator, text, position⟩ <;> rfl
  | _ => rfl

theorem Item.resolve_shift (opened : List Opening) (item : Item) :
    (item.shift k).resolve opened =
      ((item.resolve opened).1.shift k, (item.resolve opened).2) := by
  have marks (kind : TokenKind) : (item.shift k).isMark kind = item.isMark kind := by
    cases item with
    | node => rfl
    | mark t => simp [shift, Token.shift]
  have plain : (item.shift k).symbol = item.symbol.shift k := by
    cases item with
    | node => rfl
    | mark t => exact Token.symbol_shift t
  unfold Item.resolve
  rw [marks, marks, marks, plain]
  split_ifs
  · rfl
  · rfl
  · cases opened with
    | nil => rfl
    | cons o opened => cases o <;> rfl
  · rfl

theorem symbols_shift (opened : List Opening) (items : List Item) :
    symbols opened (items.map (Item.shift k)) =
      (symbols opened items).map (List.map (Symbol.shift k)) := by
  induction items generalizing opened with
  | nil =>
    rw [List.map_nil, symbols]
    split_ifs <;> rfl
  | cons item rest ih =>
    rw [List.map_cons, symbols, symbols, Item.resolve_shift]
    simp only [ih, Option.map_map]
    rfl

/-- A phrase further behind derives the same. -/
theorem Derives.shift {sort : Phrase} {phrase : List Symbol} {nodes : List Node}
    (h : Derives sort phrase nodes) : Derives sort (phrase.map (Symbol.shift k)) nodes := by
  have multipliers (ms : List Token) : (ms.map .multiplier).map (Symbol.shift k) =
      (ms.map (Token.shift k)).map .multiplier := by
    rw [List.map_map, List.map_map]
    rfl
  induction h with
  | leaf => exact .leaf
  | @paren text ms node multiplied =>
    rw [List.map_cons, multipliers]
    exact .paren ((multiplyAll_shift _ _ ms).trans multiplied)
  | @group inside inner ms node _ multiplied ih =>
    rw [List.map_cons, List.map_append, List.map_cons, multipliers]
    exact .group ih ((multiplyAll_shift _ _ ms).trans multiplied)
  | @call name inside arguments ms node _ multiplied ih =>
    rw [List.map_cons, List.map_append, List.map_cons, multipliers]
    exact .call ih ((multiplyAll_shift _ _ ms).trans multiplied)
  | noArguments => exact .noArguments
  | someArguments _ ih => exact .someArguments ih
  | lastComponent _ ih => exact .lastComponent ih
  | nextComponent _ _ ih ihs =>
    rw [List.map_append]
    exact .nextComponent ih ihs
  | juxtaposition _ ih => exact .juxtaposition ih
  | lastOperand _ ih => exact .lastOperand ih
  | nextOperand _ _ ih ihs =>
    rw [List.map_append, List.map_cons]
    exact .nextOperand ih ihs
  | combination _ ih => exact .combination ih

end WebSpec.Value
