import WebSpec.Proofs.Value.Call

/-!
# Assembly is recursive descent

A parser that follows the grammar from the loosest combinator down to the components, and reads a
phrase once, from left to right. `assemble` works the other way around: it rewrites a flat list of
items in several passes, the innermost constructs first. `toOption_assemble`: both refuse the same
items and build the same trees.

Each reader returns the value it read with the rest of the phrase, which is shorter, so that the
readers terminate. They are deterministic, so the grammar gives a phrase at most one tree.
-/

namespace WebSpec.Value

namespace Descent

/-! ### The parser -/

/-- What was read at the start of a phrase, and the rest of the phrase. -/
structure Parsed (α : Type) (phrase : List Symbol) where
  value : α
  rest : List Symbol
  shorter : rest.length < phrase.length

/-- The multipliers at the start of a phrase, and what follows them. -/
def takeMultipliers : List Symbol → List Token × List Symbol
  | .multiplier t :: rest =>
    let (multipliers, after) := takeMultipliers rest
    (t :: multipliers, after)
  | phrase => ([], phrase)

theorem takeMultipliers_append : ∀ phrase : List Symbol,
    (takeMultipliers phrase).1.map .multiplier ++ (takeMultipliers phrase).2 = phrase
  | [] => rfl
  | symbol :: rest => by
    have ih := takeMultipliers_append rest
    cases symbol <;> simp [takeMultipliers, ih]

theorem length_takeMultipliers (phrase : List Symbol) :
    (takeMultipliers phrase).2.length ≤ phrase.length := by
  have h := congrArg List.length (takeMultipliers_append phrase)
  rw [List.length_append] at h
  omega

/-- A node with the multipliers that follow it. -/
def multiplied {phrase : List Symbol} (node : Node) (isGroup : Bool) (after : List Symbol)
    (shorter : after.length < phrase.length) : Option (Parsed Node phrase) :=
  match multiplyAll node isGroup (takeMultipliers after).1 with
  | .ok node =>
    some ⟨node, (takeMultipliers after).2,
      Nat.lt_of_le_of_lt (length_takeMultipliers after) shorter⟩
  | .error _ => none

/-- Whether a phrase starts with what a component starts with. -/
def startsComponent : List Symbol → Bool
  | .component _ :: _ | .paren _ :: _ | .groupStart :: _ | .functionStart _ :: _ => true
  | _ => false

/-- Whether a phrase starts with a combinator. -/
def startsWith (c : Combinator) : List Symbol → Bool
  | .combinator c' :: _ => c' = c
  | _ => false

mutual

/-- Reads a component with its multipliers. -/
def component : (phrase : List Symbol) → Option (Parsed Node phrase)
  | .component node :: rest => some ⟨node, rest, by simp⟩
  | .paren text :: rest => multiplied (.required .string text) false rest (by simp)
  | .groupStart :: rest =>
    match level allCombinators rest with
    | some ⟨inner, .groupEnd :: after, h⟩ =>
      multiplied inner true after (by simp only [List.length_cons] at h ⊢; omega)
    | _ => none
  | .functionStart name :: rest =>
    match arguments rest with
    | some ⟨node, after, h⟩ =>
      multiplied (.function name node false) false after (by simp only [List.length_cons]; omega)
    | none => none
  | _ => none
termination_by phrase => (phrase.length, 0)

/-- Reads the arguments of a function and the parenthesis that ends it. -/
def arguments : (phrase : List Symbol) → Option (Parsed Node phrase)
  | .functionEnd :: rest => some ⟨.juxtaposed [], rest, by simp⟩
  | phrase =>
    match level allCombinators phrase with
    | some ⟨node, .functionEnd :: rest, h⟩ =>
      some ⟨node, rest, by simp only [List.length_cons] at h; omega⟩
    | _ => none
termination_by phrase => (phrase.length, 2 * allCombinators.length + 3)

/-- Reads components side by side, as many as there are. -/
def components (phrase : List Symbol) : Option (Parsed (List Node) phrase) :=
  match component phrase with
  | none => none
  | some ⟨node, rest, h⟩ =>
    if startsComponent rest then
      match components rest with
      | none => none
      | some ⟨nodes, rest', h'⟩ => some ⟨node :: nodes, rest', Nat.lt_trans h' h⟩
    else some ⟨[node], rest, h⟩
termination_by (phrase.length, 1)

/-- Reads operands of the given combinators, the loosest first. -/
def level : (combinators : List Combinator) → (phrase : List Symbol) → Option (Parsed Node phrase)
  | [], phrase =>
    match components phrase with
    | none => none
    | some ⟨nodes, rest, h⟩ => some ⟨collapse .juxtaposed nodes, rest, h⟩
  | c :: tighter, phrase =>
    match operands c tighter phrase with
    | none => none
    | some ⟨nodes, rest, h⟩ =>
      some ⟨collapse (fun nodes => .combined c nodes false) nodes, rest, h⟩
termination_by combinators phrase => (phrase.length, 2 * combinators.length + 2)

/-- Reads the operands of one combinator, as many as there are. -/
def operands (c : Combinator) (tighter : List Combinator) (phrase : List Symbol) :
    Option (Parsed (List Node) phrase) :=
  match level tighter phrase with
  | none => none
  | some ⟨node, rest, h⟩ =>
    if startsWith c rest then
      match operands c tighter rest.tail with
      | none => none
      | some ⟨nodes, rest', h'⟩ =>
        some ⟨node :: nodes, rest', by rw [List.length_tail] at h'; omega⟩
    else some ⟨[node], rest, h⟩
termination_by (phrase.length, 2 * tighter.length + 3)
decreasing_by all_goals simp_wf; grind

end

/-- The tree of a whole phrase. -/
def parsePhrase (phrase : List Symbol) : Option Node :=
  match level allCombinators phrase with
  | some ⟨node, [], _⟩ => some node
  | _ => none

/-! ### What is read is derived -/

theorem multiplied_eq_some {phrase after : List Symbol} {node : Node} {isGroup : Bool}
    {shorter : after.length < phrase.length} {r : Parsed Node phrase}
    (h : multiplied node isGroup after shorter = some r) :
    ∃ ms, after = ms.map .multiplier ++ r.rest ∧ multiplyAll node isGroup ms = .ok r.value := by
  unfold multiplied at h
  split at h
  · rename_i node' hm
    obtain rfl := Option.some.inj h
    exact ⟨_, (takeMultipliers_append after).symm, hm⟩
  · cases h

theorem eq_cons_of_startsWith {c : Combinator} {phrase : List Symbol}
    (h : startsWith c phrase = true) : phrase = .combinator c :: phrase.tail := by
  cases phrase with
  | nil => cases h
  | cons symbol rest =>
    cases symbol <;> simp_all [startsWith]

mutual

theorem derives_of_component {phrase : List Symbol} {r : Parsed Node phrase}
    (h : component phrase = some r) :
    ∃ part, phrase = part ++ r.rest ∧ Derives .component part [r.value] := by
  unfold component at h
  split at h
  · obtain rfl := Option.some.inj h
    exact ⟨[_], rfl, .leaf⟩
  · obtain ⟨ms, hr, hm⟩ := multiplied_eq_some h
    exact ⟨_, congrArg _ hr, .paren hm⟩
  · split at h
    · rename_i inner after _ hl
      obtain ⟨inside, hi, hd⟩ := derives_of_level hl
      obtain ⟨ms, hr, hm⟩ := multiplied_eq_some h
      exact ⟨_, by simp [hi, hr], .group hd hm⟩
    · cases h
  · split at h
    · rename_i node after _ ha
      obtain ⟨inside, hi, hd⟩ := derives_of_arguments ha
      obtain ⟨ms, hr, hm⟩ := multiplied_eq_some h
      exact ⟨_, by simp [hi, hr], .call hd hm⟩
    · cases h
  · cases h
termination_by (phrase.length, 0)

theorem derives_of_arguments {phrase : List Symbol} {r : Parsed Node phrase}
    (h : arguments phrase = some r) :
    ∃ part, phrase = part ++ .functionEnd :: r.rest ∧ Derives .arguments part [r.value] := by
  unfold arguments at h
  split at h
  · obtain rfl := Option.some.inj h
    exact ⟨[], rfl, .noArguments⟩
  · split at h
    · rename_i node rest _ hl
      obtain ⟨part, hp, hd⟩ := derives_of_level hl
      obtain rfl := Option.some.inj h
      exact ⟨part, hp, .someArguments hd⟩
    · cases h
termination_by (phrase.length, 2 * allCombinators.length + 3)

theorem derives_of_components {phrase : List Symbol} {r : Parsed (List Node) phrase}
    (h : components phrase = some r) :
    ∃ part, phrase = part ++ r.rest ∧ Derives .components part r.value := by
  unfold components at h
  split at h
  · cases h
  · rename_i node rest shorter hc
    obtain ⟨part, hp, hd⟩ := derives_of_component hc
    split_ifs at h
    · split at h
      · cases h
      · rename_i nodes rest' _ hs
        obtain ⟨part', hp', hd'⟩ := derives_of_components hs
        obtain rfl := Option.some.inj h
        exact ⟨part ++ part', by simp [hp, hp'], .nextComponent hd hd'⟩
    · obtain rfl := Option.some.inj h
      exact ⟨part, hp, .lastComponent hd⟩
termination_by (phrase.length, 1)

theorem derives_of_level {combinators : List Combinator} {phrase : List Symbol}
    {r : Parsed Node phrase} (h : level combinators phrase = some r) :
    ∃ part, phrase = part ++ r.rest ∧ Derives (.level combinators) part [r.value] := by
  cases combinators with
  | nil =>
    unfold level at h
    split at h
    · cases h
    · rename_i hc
      obtain ⟨part, hp, hd⟩ := derives_of_components hc
      obtain rfl := Option.some.inj h
      exact ⟨part, hp, .juxtaposition hd⟩
  | cons c tighter =>
    unfold level at h
    split at h
    · cases h
    · rename_i ho
      obtain ⟨part, hp, hd⟩ := derives_of_operands ho
      obtain rfl := Option.some.inj h
      exact ⟨part, hp, .combination hd⟩
termination_by (phrase.length, 2 * combinators.length + 2)

theorem derives_of_operands {c : Combinator} {tighter : List Combinator} {phrase : List Symbol}
    {r : Parsed (List Node) phrase} (h : operands c tighter phrase = some r) :
    ∃ part, phrase = part ++ r.rest ∧ Derives (.operands c tighter) part r.value := by
  unfold operands at h
  split at h
  · cases h
  · rename_i node rest shorter hl
    obtain ⟨part, hp, hd⟩ := derives_of_level hl
    split_ifs at h with hs
    · split at h
      · cases h
      · rename_i nodes rest' _ ho
        obtain ⟨part', hp', hd'⟩ := derives_of_operands ho
        obtain rfl := Option.some.inj h
        refine ⟨part ++ .combinator c :: part', ?_, .nextOperand hd hd'⟩
        rw [List.append_assoc]
        exact hp.trans (congrArg (part ++ ·) ((eq_cons_of_startsWith hs).trans (congrArg _ hp')))
    · obtain rfl := Option.some.inj h
      exact ⟨part, hp, .lastOperand hd⟩
termination_by (phrase.length, 2 * tighter.length + 3)
decreasing_by all_goals simp_wf; grind

end

/-! ### What is derived is read -/

/-- Whether a phrase starts with a multiplier. -/
def startsMultiplier : List Symbol → Bool
  | .multiplier _ :: _ => true
  | _ => false

theorem takeMultipliers_map_append {rest : List Symbol} (hr : startsMultiplier rest = false) :
    ∀ ms : List Token, takeMultipliers (ms.map .multiplier ++ rest) = (ms, rest)
  | [] => by
    rw [List.map_nil, List.nil_append]
    cases rest with
    | nil => rfl
    | cons symbol rest => cases symbol <;> simp_all [takeMultipliers, startsMultiplier]
  | t :: ms => by simp [takeMultipliers, takeMultipliers_map_append hr ms]

theorem multiplied_append (phrase : List Symbol) {rest : List Symbol} {node whole : Node}
    {isGroup : Bool} {ms : List Token} (hr : startsMultiplier rest = false)
    (hm : multiplyAll node isGroup ms = .ok whole)
    (shorter : (ms.map Symbol.multiplier ++ rest).length < phrase.length) :
    ∃ h, multiplied node isGroup (ms.map .multiplier ++ rest) shorter =
      some (⟨whole, rest, h⟩ : Parsed Node phrase) := by
  refine ⟨by rw [List.length_append] at shorter; omega, ?_⟩
  unfold multiplied
  split
  · rename_i node' hn
    rw [takeMultipliers_map_append hr, hm] at hn
    obtain rfl := Except.ok.inj hn
    simp only [takeMultipliers_map_append hr]
  · rename_i hn
    rw [takeMultipliers_map_append hr, hm] at hn
    cases hn

/-- No combinator is both looser and tighter than another. -/
def Distinct : Phrase → Prop
  | .level cs => cs.Nodup
  | .operands c cs => (c :: cs).Nodup
  | _ => True

theorem distinct_allCombinators : Distinct (.level allCombinators) := by
  simp [Distinct, allCombinators]

/-- What may follow a phrase of each sort, so that its reader does not read on. -/
def Stops : Phrase → List Symbol → Prop
  | .component, rest => startsMultiplier rest = false
  | .components, rest => startsMultiplier rest = false ∧ startsComponent rest = false
  | .arguments, rest => ∃ after, rest = .functionEnd :: after
  | .level cs, rest => startsMultiplier rest = false ∧ startsComponent rest = false ∧
      ∀ c ∈ cs, startsWith c rest = false
  | .operands c cs, rest => startsMultiplier rest = false ∧ startsComponent rest = false ∧
      ∀ c' ∈ c :: cs, startsWith c' rest = false

/-- The reader of a sort reads the given nodes and leaves the rest, without the parenthesis that
ends the arguments of a function. -/
def Reads : Phrase → List Symbol → List Node → List Symbol → Prop
  | .component, phrase, nodes, rest =>
    ∃ node h, nodes = [node] ∧ component phrase = some ⟨node, rest, h⟩
  | .components, phrase, nodes, rest => ∃ h, components phrase = some ⟨nodes, rest, h⟩
  | .arguments, phrase, nodes, rest =>
    ∃ node h, nodes = [node] ∧ arguments phrase = some ⟨node, rest.tail, h⟩
  | .level cs, phrase, nodes, rest =>
    ∃ node h, nodes = [node] ∧ level cs phrase = some ⟨node, rest, h⟩
  | .operands c cs, phrase, nodes, rest => ∃ h, operands c cs phrase = some ⟨nodes, rest, h⟩

theorem startsComponent_of_derives {sort : Phrase} {part : List Symbol} {nodes : List Node}
    (h : Derives sort part nodes) (hs : sort ≠ .arguments) (rest : List Symbol) :
    startsComponent (part ++ rest) = true := by
  induction h generalizing rest with
  | leaf | paren | group | call => rfl
  | noArguments | someArguments => exact absurd rfl hs
  | lastComponent _ ih | juxtaposition _ ih | lastOperand _ ih | combination _ ih =>
    exact ih (by simp) rest
  | nextComponent _ _ ih | nextOperand _ _ ih =>
    rw [List.append_assoc]
    exact ih (by simp) _

theorem startsMultiplier_of_startsComponent {phrase : List Symbol}
    (h : startsComponent phrase = true) : startsMultiplier phrase = false := by
  cases phrase with
  | nil => rfl
  | cons symbol rest => cases symbol <;> simp_all [startsComponent, startsMultiplier]

/-- The parser reads every phrase of the grammar, up to where it has to stop. -/
theorem reads_of_derives {sort : Phrase} {part : List Symbol} {nodes : List Node}
    (h : Derives sort part nodes) (hn : Distinct sort) {rest : List Symbol} (hs : Stops sort rest) :
    Reads sort (part ++ rest) nodes rest := by
  induction h generalizing rest with
  | leaf => exact ⟨_, by simp, rfl, by simp [component]⟩
  | @paren text ms _ hm =>
    obtain ⟨h, hr⟩ := multiplied_append (.paren text :: (ms.map .multiplier ++ rest)) hs hm
      (by simp)
    exact ⟨_, h, rfl, by simpa [component] using hr⟩
  | @group inside inner ms node _ hm ih =>
    have hstop : Stops (.level allCombinators) (.groupEnd :: (ms.map .multiplier ++ rest)) :=
      ⟨rfl, rfl, fun _ _ => rfl⟩
    obtain ⟨_, h, ⟨⟩, hl⟩ := ih distinct_allCombinators hstop
    obtain ⟨h', hr⟩ := multiplied_append
      (.groupStart :: (inside ++ .groupEnd :: (ms.map .multiplier ++ rest))) hs hm
      (by simp only [List.length_cons, List.length_append]; omega)
    simp only [List.cons_append, List.append_assoc]
    exact ⟨node, h', rfl, by rw [component]; simp only [hl, hr]⟩
  | @call name inside arguments ms node _ hm ih =>
    have hstop : Stops .arguments (.functionEnd :: (ms.map .multiplier ++ rest)) := ⟨_, rfl⟩
    obtain ⟨_, h, ⟨⟩, ha⟩ := ih trivial hstop
    obtain ⟨h', hr⟩ := multiplied_append
      (.functionStart name :: (inside ++ .functionEnd :: (ms.map .multiplier ++ rest))) hs hm
      (by simp only [List.length_cons, List.length_append]; omega)
    simp only [List.cons_append, List.append_assoc]
    exact ⟨node, h', rfl, by rw [component]; simp only [ha, List.tail_cons, hr]⟩
  | noArguments =>
    obtain ⟨after, rfl⟩ := hs
    exact ⟨_, by simp, rfl, by simp [arguments]⟩
  | @someArguments phrase node hd ih =>
    obtain ⟨after, rfl⟩ := hs
    have hstop : Stops (.level allCombinators) (.functionEnd :: after) :=
      ⟨rfl, rfl, fun _ _ => rfl⟩
    obtain ⟨_, h, ⟨⟩, hl⟩ := ih distinct_allCombinators hstop
    refine ⟨node, by rw [List.length_append, List.length_cons, List.tail_cons]; omega, rfl, ?_⟩
    have hp := startsComponent_of_derives hd (by simp) (.functionEnd :: after)
    rw [arguments]
    · simp [hl]
    · intro rest hr
      rw [hr] at hp
      cases hp
  | lastComponent _ ih =>
    obtain ⟨_, h, ⟨⟩, hc⟩ := ih trivial hs.1
    exact ⟨h, by rw [components]; simp [hc, hs.2]⟩
  | @nextComponent phrase tail node nodes _ hds ih ihs =>
    have ht := startsComponent_of_derives hds (by simp) rest
    obtain ⟨_, h, ⟨⟩, hc⟩ := ih trivial (startsMultiplier_of_startsComponent ht)
    obtain ⟨h', hcs⟩ := ihs trivial hs
    rw [List.append_assoc]
    exact ⟨Nat.lt_trans h' h, by rw [components]; simp [hc, ht, hcs]⟩
  | juxtaposition _ ih =>
    obtain ⟨h, hc⟩ := ih trivial ⟨hs.1, hs.2.1⟩
    exact ⟨_, h, rfl, by rw [level]; simp [hc]⟩
  | lastOperand _ ih =>
    obtain ⟨hm, hc, ho⟩ := hs
    obtain ⟨ho, hos⟩ := List.forall_mem_cons.mp ho
    obtain ⟨_, h, ⟨⟩, hl⟩ := ih (List.nodup_cons.mp hn).2 ⟨hm, hc, hos⟩
    exact ⟨h, by rw [operands]; simp [hl, ho]⟩
  | @nextOperand c tighter phrase tail node nodes _ _ ih ihs =>
    -- The operand ends before the combinator, which is none of the tighter ones.
    have hstop : Stops (.level tighter) (.combinator c :: (tail ++ rest)) := by
      refine ⟨rfl, rfl, fun c' hc => ?_⟩
      obtain ⟨hnot, -⟩ := List.nodup_cons.mp hn
      exact decide_eq_false fun hcc => hnot (hcc ▸ hc)
    obtain ⟨_, h, ⟨⟩, hl⟩ := ih (List.nodup_cons.mp hn).2 hstop
    obtain ⟨h', ho⟩ := ihs hn hs
    simp only [List.append_assoc, List.cons_append]
    refine ⟨by simp only [List.length_append, List.length_cons]; omega, ?_⟩
    rw [operands]
    simp [hl, startsWith, ho]
  | combination _ ih =>
    obtain ⟨h, ho⟩ := ih hn hs
    exact ⟨_, h, rfl, by rw [level]; simp [ho]⟩

/-- The parser decides the grammar, and finds the one tree of a phrase. -/
theorem parsePhrase_eq_some_iff {phrase : List Symbol} {node : Node} :
    parsePhrase phrase = some node ↔ Derives (.level allCombinators) phrase [node] := by
  unfold parsePhrase
  constructor
  · intro h
    split at h
    · rename_i node' _ hl
      obtain rfl := Option.some.inj h
      obtain ⟨part, hp, hd⟩ := derives_of_level hl
      rw [List.append_nil] at hp
      exact hp ▸ hd
    · cases h
  · intro h
    have hstop : Stops (.level allCombinators) [] := ⟨rfl, rfl, fun _ _ => rfl⟩
    have hr := reads_of_derives h distinct_allCombinators hstop
    rw [List.append_nil] at hr
    obtain ⟨_, h', ⟨⟩, hl⟩ := hr
    simp only [hl]

end Descent

/-! ### Assembly -/

/-- `assemble` accepts exactly what the recursive descent accepts, and builds the same tree. -/
theorem toOption_assemble (items : List Item) :
    (assemble items).toOption = (symbols [] items).bind Descent.parsePhrase := by
  refine Option.ext fun node => ?_
  rw [Option.bind_eq_some_iff]
  simp only [Descent.parsePhrase_eq_some_iff, ← assemble_eq_ok_iff]
  cases assemble items <;> simp [Except.toOption]

end WebSpec.Value
