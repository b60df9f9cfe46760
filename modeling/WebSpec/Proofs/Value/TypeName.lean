import WebSpec.Proofs.Value.Conservation
import WebSpec.Proofs.Value.Tiling

/-!
# The names in type references

A type reference names a production, and may restrict it to a range, which is no part of the name.
`withoutRange_cases` says what is dropped: from a bracketed part at the very end on, with the blanks
before it. That the reference is not empty has been seen to before, when its token was read, and of
several ranges only one is dropped.

So most names are good for a type reference of their own, which is the same leaf again, but two
sorts are not: the name of a reference that is nothing but a range is empty, and a name may end with
a range itself. `isReadAs_iff` says that these are all.
-/

namespace WebSpec.Value

/-! ### Ranges -/

/-- Behind `before`, the characters are a bracketed part and blanks. -/
def RangeBehind (before cs : List Char) : Prop :=
  ∃ inside behind, cs = before ++ '[' :: (inside ++ ']' :: behind) ∧ ']' ∉ inside ∧
    ∀ c ∈ behind, Text.isBlank c

/-- What `beforeRange?` looks for is behind the last bracket that closes something. -/
theorem exists_beforeRange?_eq (cs : List Char) :
    ∃ front last, cs = front ++ last ∧ (∀ c ∈ front.getLast?, c = ']') ∧ ']' ∉ last ∧
      beforeRange? cs =
        if '[' ∈ last then some (front ++ last.takeWhile (· != '[')) else none := by
  have parts := congrArg List.reverse (@List.takeWhile_append_dropWhile _ (· != ']') cs.reverse)
  rw [List.reverse_append, List.reverse_reverse] at parts
  refine ⟨_, _, parts.symm, fun c hc => ?_, fun h => ?_, ?_⟩
  · have stops := List.head?_dropWhile_not (· != ']') cs.reverse
    rw [List.getLast?_reverse] at hc
    simpa [Option.mem_def.mp hc] using stops
  · simpa using List.mem_takeWhile_imp (List.mem_reverse.mp h)
  · simp only [beforeRange?, List.contains_iff_mem]
    generalize (cs.reverse.takeWhile (· != ']')).reverse = last at parts ⊢
    rw [← parts, List.length_append, Nat.add_sub_cancel, List.take_left, parts]

theorem exists_of_beforeRange?_eq_some {cs before : List Char} (h : beforeRange? cs = some before) :
    ∃ inside, cs = before ++ '[' :: inside ∧ ']' ∉ inside := by
  obtain ⟨front, inside, rfl, -, closed, eq⟩ := exists_beforeRange?_eq cs
  rw [eq] at h
  split_ifs at h with opens
  obtain rfl := Option.some.inj h
  obtain ⟨c, rest, hd⟩ : ∃ c rest, inside.dropWhile (· != '[') = c :: rest := by
    refine List.exists_cons_of_ne_nil fun empty => ?_
    simpa using List.dropWhile_eq_nil_iff.mp empty '[' opens
  have stops := List.head?_dropWhile_not (· != '[') inside
  obtain rfl : c = '[' := by simpa [hd] using stops
  have parts := @List.takeWhile_append_dropWhile _ (· != '[') inside
  rw [hd] at parts
  refine ⟨rest, by rw [List.append_assoc, parts], fun h => closed ?_⟩
  rw [← parts]
  simp [h]

theorem mem_of_beforeRange?_eq_none {before inside : List Char}
    (h : beforeRange? (before ++ '[' :: inside) = none) : ']' ∈ inside := by
  obtain ⟨front, last, split, ends, closed, eq⟩ := exists_beforeRange?_eq (before ++ '[' :: inside)
  rw [eq] at h
  split_ifs at h with opens
  -- The bracket that opens is in front of the last one that closes.
  obtain ⟨middle, rfl, hm⟩ | ⟨middle, -, rfl⟩ := List.append_eq_append_iff.mp split
  · cases middle with
    | nil =>
      obtain rfl : '[' :: inside = last := hm
      exact absurd List.mem_cons_self opens
    | cons c middle =>
      obtain ⟨rfl, rfl⟩ : '[' = c ∧ inside = middle ++ last := by simpa using hm
      refine List.mem_append_left _ ?_
      rcases List.eq_nil_or_concat' middle with rfl | ⟨middle, c, rfl⟩
      · exact absurd (ends '[' (by simp)) (by decide)
      · have last_char : c ∈ (before ++ '[' :: (middle ++ [c])).getLast? := by
          rw [Option.mem_def, ← List.cons_append, ← List.append_assoc, List.getLast?_concat]
        simp [ends c last_char]
  · exact absurd (by simp) opens

theorem RangeBehind.exists_stripRight {before cs : List Char} (h : RangeBehind before cs) :
    ∃ inside, Text.stripRight cs = before ++ '[' :: inside ++ [']'] ∧ ']' ∉ inside := by
  obtain ⟨inside, behind, rfl, closed, blank⟩ := h
  refine ⟨inside, ?_, closed⟩
  rw [List.append_cons inside, ← List.cons_append, ← List.append_assoc,
    stripRight_append_of_blank blank]
  simp [Text.stripRight, Text.isBlank]

/-- What may be a range ends with a bracket. -/
theorem withoutRange_of_stripRight {cs init : List Char}
    (h : Text.stripRight cs = init ++ [']']) :
    withoutRange cs =
      match beforeRange? init with
      | some name => Text.stripRight name
      | none => cs := by
  cases hb : beforeRange? init <;> simp [withoutRange, h, hb]

/-- A range at the end is dropped, with the blanks before it; anything else stays. -/
theorem withoutRange_cases (cs : List Char) :
    (∃ before, RangeBehind before cs ∧ withoutRange cs = Text.stripRight before) ∨
      (∀ before, ¬ RangeBehind before cs) ∧ withoutRange cs = cs := by
  obtain ⟨behind, blank, h⟩ := exists_stripRight cs
  rcases List.eq_nil_or_concat' (Text.stripRight cs) with empty | ⟨init, c, hs⟩
  · refine .inr ⟨fun before range => ?_, by simp [withoutRange, empty]⟩
    obtain ⟨inside, split, -⟩ := range.exists_stripRight
    simp [empty] at split
  by_cases hc : c = ']'
  · subst hc
    rw [withoutRange_of_stripRight hs]
    split
    · rename_i before hb
      obtain ⟨inside, rfl, closed⟩ := exists_of_beforeRange?_eq_some hb
      exact .inl ⟨before, ⟨inside, behind, by simpa [hs] using h, closed, blank⟩, rfl⟩
    · rename_i hb
      refine .inr ⟨fun before range => ?_, rfl⟩
      obtain ⟨inside, split, closed⟩ := range.exists_stripRight
      obtain rfl := List.append_cancel_right (hs.symm.trans split)
      exact closed (mem_of_beforeRange?_eq_none hb)
  · refine .inr ⟨fun before range => ?_, ?_⟩
    · obtain ⟨inside, split, -⟩ := range.exists_stripRight
      have ends := (List.append_inj' (hs.symm.trans split) rfl).2
      exact hc (List.singleton_inj.mp ends)
    · simp only [withoutRange, hs, List.reverse_append, List.reverse_singleton,
        List.singleton_append]
      split
      · rename_i other
        exact absurd (List.cons.inj other).1 hc
      · rfl

theorem withoutRange_eq_self_iff {cs : List Char} :
    withoutRange cs = cs ↔ ∀ before, ¬ RangeBehind before cs := by
  obtain ⟨before, range, dropped⟩ | ⟨none, same⟩ := withoutRange_cases cs
  · refine ⟨fun same => ?_, fun none => absurd range (none before)⟩
    obtain ⟨inside, behind, split, -, -⟩ := range
    obtain ⟨blanks, -, whole⟩ := exists_stripRight before
    have shorter := congrArg List.length split
    have shorter' := congrArg List.length whole
    rw [← dropped, same] at shorter'
    simp only [List.length_append, List.length_cons] at shorter shorter'
    omega
  · exact ⟨fun _ => none, fun _ => same⟩

/-- Only what is nothing but a range has no name. -/
theorem withoutRange_eq_nil_iff {cs : List Char} (trimmed : Trimmed cs) (nonempty : cs ≠ []) :
    withoutRange cs = [] ↔ RangeBehind [] cs := by
  constructor
  · intro unnamed
    obtain ⟨before, range, dropped⟩ | ⟨-, same⟩ := withoutRange_cases cs
    · obtain ⟨blanks, blank, whole⟩ := exists_stripRight before
      rw [← dropped, unnamed, List.nil_append] at whole
      subst whole
      cases before with
      | nil => exact range
      | cons c before =>
        obtain ⟨inside, behind, rfl, -, -⟩ := range
        exact absurd (blank c List.mem_cons_self) (trimmed.head c rfl)
    · exact absurd (same.symm.trans unnamed) nonempty
  · intro range
    obtain ⟨inside, split, closed⟩ := range.exists_stripRight
    rw [withoutRange_of_stripRight split]
    obtain ⟨front, last, parts, ends, -, eq⟩ := exists_beforeRange?_eq ('[' :: inside)
    -- No bracket closes anything before the one at the end.
    obtain rfl : front = [] := by
      rcases List.eq_nil_or_concat' front with rfl | ⟨front, c, rfl⟩
      · rfl
      · obtain rfl := ends c (by simp)
        have : ']' ∈ '[' :: inside := by simp [parts]
        exact absurd this (by simpa using closed)
    obtain rfl : '[' :: inside = last := parts
    simp [eq, Text.stripRight]

theorem exists_withoutRange_append (cs : List Char) : ∃ behind, withoutRange cs ++ behind = cs := by
  obtain ⟨before, ⟨inside, behind, rfl, -, -⟩, dropped⟩ | ⟨-, same⟩ := withoutRange_cases cs
  · obtain ⟨blanks, -, whole⟩ := exists_stripRight before
    rw [dropped]
    exact ⟨_, by rw [← List.append_assoc, ← whole]⟩
  · exact ⟨[], by rw [same, List.append_nil]⟩

theorem Trimmed.withoutRange {cs : List Char} (h : Trimmed cs) : Trimmed (withoutRange cs) where
  head c hc := by
    obtain ⟨behind, whole⟩ := exists_withoutRange_append cs
    refine h.head c ?_
    rw [← whole, Option.mem_def, List.head?_append, Option.mem_def.mp hc, Option.some_or]
  last c hc := by
    obtain ⟨before, -, dropped⟩ | ⟨-, same⟩ := withoutRange_cases cs
    · rw [dropped, Text.stripRight, List.getLast?_reverse] at hc
      exact not_isBlank_of_dropWhile hc
    · exact h.last c (same ▸ hc)

/-! ### Names -/

/-- The name in a type reference. -/
def referredName (text : String) : String :=
  String.ofList (withoutRange text.toList)

/-- Between angle brackets, the name is a single token, and this token is the leaf. -/
def IsReadAs (known : List String) (kind : LeafKind) (name : String) : Prop :=
  ∃ t, tokens ("<" ++ name ++ ">") = .ok [t] ∧ t.classify known = .ok (.node (.required kind name))

variable {known : List String} {kind : LeafKind} {text name : String}

theorem isTypeText_referredName (h : IsTypeText text) (named : referredName text ≠ "") :
    IsTypeText (referredName text) where
  nonempty := named
  trimmed := by simpa [referredName] using h.trimmed.withoutRange
  plain c hc := by
    obtain ⟨behind, whole⟩ := exists_withoutRange_append text.toList
    rw [referredName, String.toList_ofList] at hc
    exact h.plain c (whole ▸ List.mem_append_left behind hc)

theorem referredName_eq_empty_iff (h : IsTypeText text) :
    referredName text = "" ↔ RangeBehind [] text.toList := by
  rw [← withoutRange_eq_nil_iff h.trimmed (mt String.toList_eq_nil_iff.mp h.nonempty)]
  simp [referredName]

theorem tokens_typeRef (h : IsTypeText name) :
    tokens ("<" ++ name ++ ">") = .ok [⟨.typeRef, name, 0⟩] := by
  have spelled : String.ofList ('<' :: (name.toList ++ ['>'])) = "<" ++ name ++ ">" :=
    String.toList_inj.mp (by simp)
  rw [← spelled]
  exact (Scans.typeRef h [] 0).tokens_eq

/-- What a name stands for in a type reference. -/
def productionKind (known : List String) (name : String) : LeafKind :=
  if known.contains name then .primitive else .valueSpace

theorem classify_typeRef (position : Int) : Token.classify known ⟨.typeRef, text, position⟩ =
    .ok (.node (.required (productionKind known (referredName text)) (referredName text))) := rfl

/-- A name is read back unless it is empty or ends with a range. -/
theorem isReadAs_iff (known : List String) (h : IsTypeText text) :
    IsReadAs known (productionKind known (referredName text)) (referredName text) ↔
      referredName text ≠ "" ∧ ∀ before, ¬ RangeBehind before (referredName text).toList := by
  by_cases named : referredName text = ""
  · refine ⟨?_, fun ⟨named', _⟩ => absurd named named'⟩
    rintro ⟨t, ht, -⟩
    rw [named] at ht
    cases ht
  · rw [← withoutRange_eq_self_iff]
    have read := tokens_typeRef (isTypeText_referredName h named)
    constructor
    · rintro ⟨t, ht, hc⟩
      obtain rfl : ⟨.typeRef, referredName text, 0⟩ = t := by simpa [read] using ht
      rw [classify_typeRef] at hc
      have same : referredName (referredName text) = referredName text :=
        (Node.leaf.inj (Item.node.inj (Except.ok.inj hc))).2.1
      refine ⟨named, ?_⟩
      conv_rhs => rw [← same]
      simp [referredName]
    · rintro ⟨-, same⟩
      refine ⟨_, read, ?_⟩
      have : referredName (referredName text) = referredName text := by
        rw [referredName, same, String.ofList_toList]
      rw [classify_typeRef, this]

/-! ### Definitions -/

theorem mem_of_mem_withoutFunctionEnds {t : Token} {ts : List Token} {opened : List Opening}
    (h : t ∈ withoutFunctionEnds opened ts) : t ∈ ts := by
  induction ts generalizing opened with
  | nil => exact h
  | cons u ts ih =>
    rw [withoutFunctionEnds] at h
    split_ifs at h with closes
    · exact List.mem_cons_of_mem _ (ih h)
    · rcases List.mem_cons.mp h with rfl | h
      · exact List.mem_cons_self
      · exact List.mem_cons_of_mem _ (ih h)

/-- A leaf that refers to a production comes from a type reference. -/
theorem exists_typeRef_of_leaf {extraPrimitives : List String} {node : Node}
    (h : parse text extraPrimitives = .ok node) (leaf : .leaf kind name ∈ node.leaves)
    (production : kind = .primitive ∨ kind = .valueSpace) :
    ∃ ts, tokens (Text.strip text) = .ok ts ∧ ∃ t ∈ ts, t.kind = .typeRef ∧
      name = referredName t.text ∧
      kind = productionKind (primitives ++ extraPrimitives) (referredName t.text) := by
  obtain ⟨ts, ht, said⟩ := signs_of_parse h
  rw [leaves_eq_filter, said, ← leaf?_eq_filter, List.mem_filterMap] at leaf
  obtain ⟨t, mem, leaf⟩ := leaf
  refine ⟨ts, ht, t, mem_of_mem_withoutFunctionEnds mem, ?_⟩
  obtain ⟨tokenKind, content, position⟩ := t
  cases tokenKind
  case typeRef =>
    obtain ⟨rfl, rfl⟩ := Sign.leaf.inj (Option.some.inj leaf)
    exact ⟨rfl, rfl, rfl⟩
  all_goals
    rcases production with rfl | rfl <;> cases leaf

/-- The productions in a tree have the names of type references without a range at their end. Such
a name is empty for references that are nothing but a range, and is read back as the same leaf in
angle brackets unless it is empty or ends with another range. -/
theorem productions_of_parse {extraPrimitives : List String} {node : Node}
    (h : parse text extraPrimitives = .ok node) (leaf : .leaf kind name ∈ node.leaves)
    (production : kind = .primitive ∨ kind = .valueSpace) :
    (∃ ts, tokens (Text.strip text) = .ok ts ∧ ∃ t ∈ ts, t.kind = .typeRef ∧
      name = referredName t.text ∧ (name = "" ↔ RangeBehind [] t.text.toList)) ∧
    (IsReadAs (primitives ++ extraPrimitives) kind name ↔
      name ≠ "" ∧ ∀ before, ¬ RangeBehind before name.toList) := by
  obtain ⟨ts, ht, t, mem, isRef, rfl, rfl⟩ := exists_typeRef_of_leaf h leaf production
  have lexical : IsTypeText t.text := by
    have := (Tiles.of_tokens ht).isLexical t mem
    rwa [Token.IsLexical, isRef] at this
  exact ⟨⟨ts, ht, t, mem, isRef, rfl, referredName_eq_empty_iff lexical⟩,
    isReadAs_iff (primitives ++ extraPrimitives) lexical⟩

/-- A reference that is nothing but a range is accepted, though one without a name is not. -/
theorem parse_rangeOnly :
    parse "<[0,1]>" = .ok (.required .valueSpace "") ∧
      tokens "<>" = .error (.unexpectedCharacter '>' 1 .typeRef) :=
  ⟨rfl, rfl⟩

/-- Of two ranges the first one stays in the name. -/
theorem parse_twoRanges :
    parse "<length [0,1] [2,3]>" = .ok (.required .valueSpace "length [0,1]") ∧
      parse "<length [0,1]>" = .ok (.required .primitive "length") :=
  ⟨rfl, rfl⟩

end WebSpec.Value
