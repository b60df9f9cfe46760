import WebSpec.Proofs.Value.Bracketing

/-!
# How long bounds may be

A tree can be written with any bounds, but a number is read from at most `Text.maxDigits` digits. So
no text has a tree with longer bounds (`parseInvariant_isShort`), and of the trees that can be
written just those are read again whose bounds are short (`parse_print_iff`). A bound behind
brackets that is too long ends in a fault that blames no part of the definition and only says how
many digits there are (`parse_bracketed_of_long`).
-/

namespace WebSpec.Value

variable {node whole : Node}

/-! ### Multipliers -/

theorem Node.IsShort.makeOptional (h : node.IsShort) : node.makeOptional.IsShort := by
  cases node <;> exact h

theorem Node.IsShort.repeated {r : Repetition} (h : node.IsShort) (short : r.IsShort) :
    (Node.repeated node r).IsShort :=
  isShort_sequence_iff.mpr ⟨by simpa using h, short⟩

theorem isShort_of_multiply {t : Token} {isGroup : Bool} (h : node.IsShort)
    (he : multiply t node isGroup = .ok whole) : whole.IsShort := by
  unfold multiply at he
  split_ifs at he
  · obtain ⟨bounds, read, he⟩ := bind_eq_ok.mp he
    obtain rfl := Except.ok.inj he
    exact h.repeated (isRange_of_rangeBounds read).isShort
  all_goals
    obtain rfl := Except.ok.inj he
    first
      | exact h.makeOptional
      | exact h.repeated (forall_lt_of_lt_ten (by simp [Repetition.bounds]))

theorem isShort_of_multiplyNext {previous t : Token} (h : node.IsShort)
    (he : multiplyNext previous t node = .ok whole) : whole.IsShort := by
  unfold multiplyNext at he
  split at he
  · split_ifs at he
    · obtain ⟨bounds, read, he⟩ := bind_eq_ok.mp he
      obtain rfl := Except.ok.inj he
      -- Only the bounds of the list change, and they are those of the range now.
      have range := (isRange_of_rangeBounds read).isShort
      exact isShort_sequence_iff.mpr ⟨(isShort_sequence_iff.mp h).1, range⟩
    · exact isShort_of_multiply h he
  · exact isShort_of_multiply h he

/-- Multipliers give short bounds, or none. -/
theorem isShort_of_multiplyAll {isGroup : Bool} {ts : List Token} (h : node.IsShort)
    (he : multiplyAll node isGroup ts = .ok whole) : whole.IsShort := by
  cases ts with
  | nil =>
    obtain rfl := Except.ok.inj he
    exact h
  | cons t ts =>
    obtain ⟨next, hn, he⟩ := bind_eq_ok.mp he
    exact holds_multiplyRest isShort_of_multiplyNext (isShort_of_multiply h hn) he

/-! ### Trees -/

/-- Whatever is parsed, the bounds are short. -/
theorem parseInvariant_isShort {known : List String} :
    ParseInvariant known Node.IsShort Node.IsShort where
  leaf h := by
    obtain ⟨kind, text, rfl⟩ := exists_leaf_of_classify h
    exact isShort_leaf kind text
  literal text := isShort_leaf .string text
  call h := by
    rcases h with h | rfl
    · exact h
    · exact List.forall_mem_nil _
  multiplied := isShort_of_multiplyAll
  group := isShort_of_multiplyAll
  juxtaposition _ h := isShort_sequence_iff.mpr ⟨h, List.forall_mem_nil _⟩
  combination _ h := isShort_combined_iff.mpr h
  unwrap h := by
    unfold Value.unwrap
    split
    · split_ifs
      · exact h
      · exact (isShort_sequence_iff.mp h).1 _ List.mem_cons_self
    · exact h

/-- Parsing a printed tree gives the tree, unless one of its bounds has more digits than a number is
read from. -/
theorem parse_print_iff {node : Node} (h : Canonical node) :
    parse node.print = .ok node ↔ ∀ bound ∈ node.bounds, bound < 10 ^ Text.maxDigits :=
  ⟨fun parsed => parseInvariant_isShort.of_parse parsed, h.parse_print⟩

/-- `[ auto? ] | [ [ <length> ]#{1,4}? ]` is what its tree prints, and gives the tree back. -/
theorem parse_print_iff_autoOrLengths :
    let tree := Node.combined .oneOf [.leaf .keyword "auto" true,
      .sequence [.required .primitive "length"]
        { least := some 1, greatest := some 4, separator := some "," } true] false
    tree.print = "[ auto? ] | [ [ <length> ]#\x7b1,4\x7d? ]" ∧ Canonical tree ∧
      parse tree.print = .ok tree := by
  have canonical : Canonical (.combined .oneOf [.leaf .keyword "auto" true,
      .sequence [.required .primitive "length"]
        { least := some (1 : Nat), greatest := some (4 : Nat), separator := some "," } true]
      false) := by
    refine .combination (by decide)
      (List.forall_mem_cons.mpr ⟨?_, List.forall_mem_singleton.mpr ?_⟩)
    · exact .keyword ⟨by decide, by simp [IsWordChar]; decide⟩ (by decide)
    · exact .repetition (.primitive (by decide)) (.listRange (by decide))
  refine ⟨by rfl, canonical, (parse_print_iff canonical).mpr (forall_lt_of_lt_ten ?_)⟩
  decide

/-- A range without an upper bound. -/
def rangeFrom (m : Int) : String :=
  String.ofList (printRange m [])

theorem tokens_rangeFrom (m : Nat) :
    tokens (Text.strip (rangeFrom m)) = .ok [⟨.multiplierRange, rangeFrom m, 0⟩] := by
  have scans := @scans_printRange m [] (by simp) [] 0
  have strip : Text.strip (rangeFrom m) = rangeFrom m :=
    Trimmed.strip (by simpa [rangeFrom] using (solid_printRange m []).2)
  rw [strip]
  exact scans.tokens_eq

/-- A definition in brackets is refused for a bound behind it that is too long. -/
theorem parse_bracketed_of_long {text : String} {extraPrimitives : List String} {node : Node}
    (h : parse text extraPrimitives = .ok node) {m : Nat} (long : 10 ^ Text.maxDigits ≤ m) :
    parse ("[ " ++ text ++ " ]" ++ rangeFrom m) extraPrimitives =
      .error ⟨.longBound (printBound m).length, "[ " ++ text ++ " ]" ++ rangeFrom m⟩ := by
  obtain ⟨ts, attached, phrase, read, derived⟩ := exists_of_parse h
  have assembled := assembleTokens_eq_ok_iff_derives.mpr ⟨attached, phrase, derived⟩
  cases ts with
  | nil => cases assembled
  | cons t ts =>
    have chars : ("[ " ++ text ++ " ]" ++ rangeFrom m).toList =
        bracketed text.toList ++ printRange m [] := by
      simp [bracketed, rangeFrom]
    have solid : Solid (bracketed text.toList ++ printRange m []) :=
      (solid_bracketed _).append fun _ => solid_printRange m []
    have strip : Text.strip ("[ " ++ text ++ " ]" ++ rangeFrom m) =
        "[ " ++ text ++ " ]" ++ rangeFrom m := Trimmed.strip (chars ▸ solid.2)
    have refused : rangeBounds (rangeFrom m) = .error (.longBound (printBound m).length) :=
      rangeBounds_from_of_le long
    rw [parse_bracketed_multipliers read assembled (tokens_rangeFrom m)
      (by simp [Token.isMultiplier]), strip]
    simp [multiplyAll, multiply, refused, bind, Except.bind, Except.map, Except.mapError]

/-- A printed tree is refused for a bound that is too long, if it has no other. -/
theorem parse_print_of_long {item : Node} (h : Canonical item) (short : item.IsShort) {m : Nat}
    (long : 10 ^ Text.maxDigits ≤ m) :
    let tree := Node.repeated item { least := some m }
    parse tree.print = .error ⟨.longBound (printBound m).length, tree.print⟩ := by
  intro tree
  have printed : tree.print = "[ " ++ item.print ++ " ]" ++ rangeFrom m := by
    rw [← String.toList_inj]
    simp [tree, Node.print, Node.chars, Node.partsChars, bracketed, Repetition.print, rangeFrom,
      printOptional]
  rw [printed]
  exact parse_bracketed_of_long (h.parse_print short) long

theorem length_printBound_pow {k : Nat} (hk : 0 < k) :
    (printBound (10 ^ k : Nat)).length = k + 1 := by
  have upper := (length_printBound_le_iff k.succ_pos).mpr
    (Nat.pow_lt_pow_right (by decide : 1 < 10) k.lt_succ_self)
  have lower := mt (length_printBound_le_iff hk).mp (Nat.lt_irrefl (10 ^ k))
  omega

/-- The first number with a digit too many can be written, but what is written is refused. -/
theorem parse_print_of_long_keyword :
    let tree := Node.repeated (.required .keyword "a")
      { least := some ((10 ^ Text.maxDigits : Nat) : Int) }
    Canonical tree ∧ parse tree.print = .error ⟨.longBound (Text.maxDigits + 1), tree.print⟩ := by
  have canonical : Canonical (.required .keyword "a") :=
    .keyword ⟨by decide, by simp [IsWordChar]; decide⟩ (by decide)
  refine ⟨.repetition canonical (.atLeast (10 ^ Text.maxDigits)), ?_⟩
  have refused := parse_print_of_long canonical (isShort_leaf .keyword "a") le_rfl
  rwa [length_printBound_pow (by decide)] at refused

end WebSpec.Value
