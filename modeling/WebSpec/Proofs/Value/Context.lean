import WebSpec.Proofs.Value.Placement
import WebSpec.Proofs.Value.RoundTrip
import WebSpec.Proofs.Value.Shape

/-!
# A definition in brackets inside another one

A definition that has a grammar tree can stand in brackets inside a longer one. There it is a single
component, its tree, whatever is before and behind it: its functions end inside of it, its
parentheses are literals wherever others are open, and its multipliers belong to its own parts.

`ReadsAs` is what items are in the grammar wherever they stand, and `StandsFor` what characters are:
parts that become components, with combinators between them. `standsFor_bracketed` says it of a
definition in brackets.
-/

namespace WebSpec.Value

/-! ### Items in their place -/

variable {known : List String} {o o' : List Opening}

theorem Attaches.shift {ts : List Token} {items : List Item} (h : Attaches known ts items)
    (k : Nat) : Attaches known (ts.map (Token.shift k)) (items.map (Item.shift k)) := by
  obtain ⟨_, hc, ha⟩ := h
  exact ⟨_, classifyAll_shift hc, attachMultipliers_shift ha⟩

/-- A mark without multipliers. -/
theorem attaches_mark {t : Token} (hk : t.kind.isStructural) (hn : ¬ t.isMultiplier) :
    Attaches known [t] [.mark t] :=
  attaches_mark_multipliers hk hn (by simp) (.inl rfl)

theorem ReadsAs.symbols_eq {items : List Item} {p : List Symbol} (h : ReadsAs o items p o')
    (closed : .function ∉ o') : symbols o items = some p := by
  have whole := h []
  rw [List.append_nil] at whole
  simpa [symbols, closed] using whole

/-- A mark that opens and closes nothing. -/
theorem readsAs_mark {t : Token} (h : t.kind ∉ [.functionStart, .parenOpen, .parenClose]) :
    ReadsAs o [.mark t] [t.symbol] o := by
  simp only [List.mem_cons, List.not_mem_nil, or_false, not_or] at h
  intro rest
  simp [symbols, Item.resolve, h]

/-- Items in which every function ends are the same where other parentheses are open. -/
theorem exists_readsAs {opened : List Opening} {items : List Item} {phrase : List Symbol}
    (h : symbols opened items = some phrase) (free : .function ∉ o) :
    ∃ o', .function ∉ o' ∧ ReadsAs (opened ++ o) items phrase o' := by
  induction items generalizing opened o phrase with
  | nil =>
    rw [symbols] at h
    split_ifs at h with hf
    obtain rfl := Option.some.inj h
    exact ⟨opened ++ o, by simp [hf, free], fun rest => by simp⟩
  | cons item rest ih =>
    obtain ⟨tail, ht, rfl⟩ := symbols_cons_eq_some.mp h
    -- A parenthesis that closes nothing of its own closes one of the others.
    have step : ∃ o₁, .function ∉ o₁ ∧ item.resolve (opened ++ o) =
        ((item.resolve opened).1, (item.resolve opened).2 ++ o₁) := by
      unfold Item.resolve
      split_ifs
      · exact ⟨o, free, rfl⟩
      · exact ⟨o, free, rfl⟩
      · cases opened with
        | nil =>
          cases o with
          | nil => exact ⟨[], free, rfl⟩
          | cons first o =>
            cases first with
            | function => simp at free
            | paren => exact ⟨o, by simpa using free, rfl⟩
        | cons first opened => cases first <;> exact ⟨o, free, rfl⟩
      · exact ⟨o, free, rfl⟩
    obtain ⟨o₁, free₁, step⟩ := step
    obtain ⟨o', free', reads⟩ := ih ht free₁
    refine ⟨o', free', fun after => ?_⟩
    rw [List.cons_append, symbols, step]
    simp only [reads after, Option.map_map]
    rfl

/-! ### Blanks at the ends -/

theorem Scans.blanks {cs : List Char} (h : ∀ c ∈ cs, Text.isBlank c) (rest : List Char)
    (position : Nat) : Scans cs rest position [] := by
  induction cs generalizing position with
  | nil => exact .nil rest position
  | cons c cs ih =>
    obtain ⟨hc, hcs⟩ := List.forall_mem_cons.mp h
    exact (Scans.blank hc (cs ++ rest) position).append (ih hcs (position + 1))

/-- Stripping takes away blanks around something that has none at its ends. -/
theorem strip_eq {text : String} {before cs behind : List Char}
    (blank : ∀ c ∈ before, Text.isBlank c) (blank' : ∀ c ∈ behind, Text.isBlank c)
    (solid : Solid cs) (h : text.toList = before ++ (cs ++ behind)) :
    Text.strip text = String.ofList cs := by
  obtain ⟨nonempty, trimmed⟩ := solid
  have left : (cs ++ behind).dropWhile Text.isBlank = cs ++ behind := by
    obtain ⟨c, rest, rfl⟩ := List.exists_cons_of_ne_nil nonempty
    exact List.dropWhile_cons_of_neg (trimmed.head c rfl)
  rw [Text.strip, Text.stripChars, h, List.dropWhile_append_of_pos blank, left,
    stripRight_append_of_blank blank', trimmed.stripRight]

/-- What is left of a text that has tokens. -/
theorem solid_strip {text : String} {t : Token} {ts : List Token}
    (h : tokens (Text.strip text) = .ok (t :: ts)) : Solid (Text.strip text).toList := by
  refine ⟨fun empty => ?_, trimmed_strip text⟩
  rw [String.toList_eq_nil_iff.mp empty] at h
  cases h

/-! ### Definitions -/

/-- What items are assembled into is no wrapper around a single component. -/
theorem Attaches.unwrap {ts : List Token} {attached : List Item} (h : Attaches known ts attached)
    {node : Node} (assembled : assemble attached = .ok node) : unwrap node = node := by
  have shaped : Shaped known node := parseInvariant_shaped.of_assemble h assembled
  exact shaped.unwrap

/-- A definition is what its items are assembled into. -/
theorem parse_eq_of_attaches {text : String} {extraPrimitives : List String} {ts : List Token}
    {attached : List Item} (nonblank : Text.strip text ≠ "")
    (ht : tokens (Text.strip text) = .ok ts)
    (h : Attaches (primitives ++ extraPrimitives) ts attached) :
    parse text extraPrimitives =
      (assemble attached).mapError fun fault => ⟨fault, Text.strip text⟩ := by
  rw [parse_eq_assembleTokens nonblank ht, h.assembleTokens_eq]
  cases assembled : assemble attached with
  | error => rfl
  | ok node => simp only [Except.map, h.unwrap assembled]

/-- What a definition with a tree is made of. -/
theorem exists_of_parse {text : String} {extraPrimitives : List String} {node : Node}
    (h : parse text extraPrimitives = .ok node) :
    ∃ ts attached phrase, tokens (Text.strip text) = .ok ts ∧
      Attaches (primitives ++ extraPrimitives) ts attached ∧ symbols [] attached = some phrase ∧
      Derives (.level allCombinators) phrase [node] := by
  simp only [parse] at h
  split_ifs at h with blank
  cases hp : parseStripped (primitives ++ extraPrimitives) (Text.strip text) with
  | error => simp [hp, Except.mapError] at h
  | ok whole =>
    obtain rfl : whole = node := by simpa [hp, Except.mapError] using h
    obtain ⟨ts, ht, hp⟩ := bind_eq_ok.mp hp
    obtain ⟨items, hc, hp⟩ := bind_eq_ok.mp hp
    obtain ⟨attached, ha, hp⟩ := bind_eq_ok.mp hp
    obtain ⟨tree, hn, hp⟩ := bind_eq_ok.mp hp
    have attaches : Attaches (primitives ++ extraPrimitives) ts attached := ⟨items, hc, ha⟩
    obtain rfl : unwrap tree = whole := Except.ok.inj hp
    rw [attaches.unwrap hn]
    obtain ⟨phrase, hs, hd⟩ := assemble_eq_ok_iff.mp hn
    exact ⟨ts, attached, phrase, ht, attaches, hs, hd⟩

/-! ### What characters stand for -/

/-- In front of `rest`, and where no function is open, the characters are parts that become
components, and combinators. -/
def StandsFor (known : List String) (cs rest : List Char) (reduced : List Symbol) : Prop :=
  ∀ (position : Nat) (o : List Opening), .function ∉ o →
    ∃ ts attached phrase o', Scans cs rest position ts ∧ Attaches known ts attached ∧
      ReadsAs o attached phrase o' ∧ .function ∉ o' ∧ Covers phrase reduced

variable {cs cs' rest : List Char} {reduced reduced' : List Symbol}

theorem StandsFor.append (h : StandsFor known cs (cs' ++ rest) reduced)
    (h' : StandsFor known cs' rest reduced') :
    StandsFor known (cs ++ cs') rest (reduced ++ reduced') := by
  intro position o free
  obtain ⟨ts, attached, phrase, o', scans, attaches, reads, free, covers⟩ := h position o free
  obtain ⟨ts', attached', phrase', o'', scans', attaches', reads', free', covers'⟩ :=
    h' (position + cs.length) o' free
  exact ⟨_, _, _, o'', scans.append scans', attaches.append attaches', reads.append reads', free',
    covers.append covers'⟩

theorem standsFor_blanks (h : ∀ c ∈ cs, Text.isBlank c) (rest : List Char) :
    StandsFor known cs rest [] :=
  fun position o free => ⟨[], [], [], o, .blanks h rest position, ⟨[], rfl, rfl⟩,
    fun after => by simp, free, .nil⟩

theorem standsFor_combinator {c : Combinator}
    (scans : ∀ position, Scans c.symbol.toList rest position [⟨.combinator, c.symbol, position⟩]) :
    StandsFor known c.symbol.toList rest [.combinator c] := by
  intro position o free
  have symbol_eq : Token.symbol ⟨.combinator, c.symbol, position⟩ = .combinator c := by
    cases c <;> rfl
  refine ⟨_, _, _, o, scans position, attaches_mark rfl (by simp [Token.isMultiplier]),
    readsAs_mark (by simp), free, ?_⟩
  rw [symbol_eq]
  exact .refl _

/-! ### A definition in brackets -/

/-- The tokens of a definition in brackets. -/
theorem exists_scans_bracketed {text : String} {ts : List Token}
    (h : tokens (Text.strip text) = .ok ts) (rest : List Char) (position : Nat) :
    ∃ (k : Nat) (p q : Int), Scans (bracketed text.toList) rest position
      (⟨.bracketOpen, "[", p⟩ :: (ts.map (Token.shift k) ++ [⟨.bracketClose, "]", q⟩])) := by
  obtain ⟨before, behind, blank, blank', stripped⟩ := exists_strip text
  obtain ⟨b, bs, hb⟩ : ∃ b bs, behind ++ [' '] = b :: bs :=
    List.exists_cons_of_ne_nil (by simp)
  have blanks : ∀ c ∈ b :: bs, Text.isBlank c := by
    rw [← hb]
    exact List.forall_mem_append.mpr ⟨blank', by simpa using (by decide : Text.isBlank ' ')⟩
  obtain ⟨blank_b, blank_bs⟩ := List.forall_mem_cons.mp blanks
  have chars : bracketed text.toList = ['['] ++ ((' ' :: before) ++
      (((Text.strip text).toList ++ [b]) ++ (bs ++ [']']))) := by
    have tail : behind ++ [' ', ']'] = b :: (bs ++ [']']) := by
      rw [← List.cons_append, ← hb, List.append_assoc]
      rfl
    rw [bracketed, stripped]
    simp [tail]
  have blank_before : ∀ c ∈ ' ' :: before, Text.isBlank c :=
    List.forall_mem_cons.mpr ⟨by decide, blank⟩
  have opens (rest : List Char) (position : Nat) :
      Scans ['['] rest position [⟨.bracketOpen, "[", position⟩] := Scans.symbol rfl rest position
  have closes (rest : List Char) (position : Nat) :
      Scans [']'] rest position [⟨.bracketClose, "]", position⟩] := Scans.symbol rfl rest position
  rw [chars]
  exact ⟨_, _, _, (opens _ _).append ((Scans.blanks blank_before _ _).append
    ((Scans.of_tokens h blank_b _ _).append ((Scans.blanks blank_bs _ _).append (closes _ _))))⟩

theorem exists_tokens_bracketed {text : String} {ts : List Token}
    (h : tokens (Text.strip text) = .ok ts) :
    ∃ (k : Nat) (p q : Int), tokens (Text.strip ("[ " ++ text ++ " ]")) =
      .ok (⟨.bracketOpen, "[", p⟩ :: (ts.map (Token.shift k) ++ [⟨.bracketClose, "]", q⟩])) := by
  obtain ⟨k, p, q, scans⟩ := exists_scans_bracketed h [] 0
  have chars : ("[ " ++ text ++ " ]").toList = bracketed text.toList := by
    simp [bracketed]
  have trimmed : Trimmed ("[ " ++ text ++ " ]").toList := chars ▸ (solid_bracketed _).2
  have whole : String.ofList (bracketed text.toList) = "[ " ++ text ++ " ]" := by
    rw [← chars, String.ofList_toList]
  rw [trimmed.strip, ← whole]
  exact ⟨k, p, q, scans.tokens_eq⟩

/-- A definition in brackets is a component wherever it stands. -/
theorem standsFor_bracketed {text : String} {extraPrimitives : List String} {node : Node}
    (h : parse text extraPrimitives = .ok node) (rest : List Char) :
    StandsFor (primitives ++ extraPrimitives) (bracketed text.toList) rest [.component node] := by
  intro position o free
  obtain ⟨ts, attached, phrase, ht, attaches, hs, hd⟩ := exists_of_parse h
  obtain ⟨k, p, q, scans⟩ := exists_scans_bracketed ht rest position
  have inside : symbols [] (attached.map (Item.shift k)) = some (phrase.map (Symbol.shift k)) := by
    rw [symbols_shift, hs]
    rfl
  obtain ⟨o', free', reads⟩ := exists_readsAs inside free
  have first : ReadsAs o [.mark ⟨.bracketOpen, "[", p⟩] [.groupStart] o := readsAs_mark (by simp)
  have last : ReadsAs o' [.mark ⟨.bracketClose, "]", q⟩] [.groupEnd] o' := readsAs_mark (by simp)
  have opens : Attaches (primitives ++ extraPrimitives) [⟨.bracketOpen, "[", p⟩]
      [.mark ⟨.bracketOpen, "[", p⟩] := attaches_mark rfl (by simp [Token.isMultiplier])
  have closes : Attaches (primitives ++ extraPrimitives) [⟨.bracketClose, "]", q⟩]
      [.mark ⟨.bracketClose, "]", q⟩] := attaches_mark rfl (by simp [Token.isMultiplier])
  have group : Derives .component (.groupStart :: (phrase.map (Symbol.shift k) ++
      .groupEnd :: ([] : List Token).map .multiplier)) [node] := .group hd.shift rfl
  refine ⟨_, _, _, o', scans, opens.append ((attaches.shift k).append closes),
    first.append (reads.append last), free', ?_⟩
  simpa using Covers.reduce group .nil

end WebSpec.Value
