import Mathlib.Data.List.TakeWhile
import WebSpec.Value.Scan
import WebSpec.Value.Multiplier

/-!
# Reading a text token by token

`Scans cs rest position ts`: in front of `rest`, the characters `cs` are read as the tokens `ts`.
What stands in front of what matters: a word ends only with a blank, a mark or the end of the text.
There is one lemma for each way to write a token, and `Scans.append` to put them one after the
other.
-/

namespace WebSpec.Value

open Reading

theorem run_cons_of_step {source : List Char} {position : Nat} {r r' : Reading} {c : Char}
    {ts : List Token} (h : r.step position c = .ok (ts, r')) (rest : List Char) :
    run source position r (c :: rest) =
      (run source (position + 1) r' rest).map (ts ++ ·) := by
  rw [run, h]
  rfl

theorem run_cons_of_silent {source : List Char} {position : Nat} {r r' : Reading} {c : Char}
    (h : r.step position c = .ok ([], r')) (rest : List Char) :
    run source position r (c :: rest) = run source (position + 1) r' rest := by
  rw [run_cons_of_step h]
  cases run source (position + 1) r' rest <;> rfl

/-- A character that ends a token is read again, between two tokens. -/
theorem run_cons_of_endBefore {source : List Char} {position : Nat} {r : Reading} {c : Char}
    {t : Token} (h : r.step position c = endBefore t position c) (rest : List Char) :
    run source position r (c :: rest) =
      (run source position .between (c :: rest)).map ([t] ++ ·) := by
  rw [run, run, h, endBefore, step]
  cases start position c with
  | error => rfl
  | ok read =>
    obtain ⟨ts, r⟩ := read
    cases h : run source (position + 1) r rest <;>
      simp [Except.map, bind, Except.bind, h, pure, Except.pure]

theorem endBefore_eq_ok {t : Token} {position : Nat} {c : Char} {ts : List Token} {r : Reading} :
    endBefore t position c = .ok (ts, r) ↔
      ∃ others, start position c = .ok (others, r) ∧ ts = t :: others := by
  unfold endBefore
  cases start position c with
  | error => simp [Except.map]
  | ok read =>
    constructor
    · intro h
      cases h
      exact ⟨read.1, rfl, rfl⟩
    · rintro ⟨others, h, rfl⟩
      cases h
      rfl

/-- Characters that only make the payload of a token longer. -/
theorem run_append_of_step {reading : String → Reading} {cs : List Char}
    (h : ∀ c ∈ cs, ∀ position text,
      (reading text).step position c = .ok ([], reading (text.push c)))
    (source : List Char) (position : Nat) (text : String) (rest : List Char) :
    run source position (reading text) (cs ++ rest) =
      run source (position + cs.length) (reading (text ++ String.ofList cs)) rest := by
  induction cs generalizing position text with
  | nil => simp
  | cons c cs ih =>
    obtain ⟨hc, hcs⟩ := List.forall_mem_cons.mp h
    have hp : text.push c ++ String.ofList cs = text ++ String.ofList (c :: cs) := by
      apply String.toList_inj.mp
      simp
    have hr := ih hcs (position + 1) (text.push c)
    rw [hp, Nat.add_assoc, Nat.add_comm 1] at hr
    rw [List.cons_append, List.length_cons, ← hr, run_cons_of_silent (hc position text)]

/-- In front of `rest`, the characters are read as the tokens. -/
def Scans (cs rest : List Char) (position : Nat) (ts : List Token) : Prop :=
  ∀ source, run source position .between (cs ++ rest) =
    (run source (position + cs.length) .between rest).map (ts ++ ·)

theorem Scans.append {cs cs' rest : List Char} {position : Nat} {ts ts' : List Token}
    (h : Scans cs (cs' ++ rest) position ts) (h' : Scans cs' rest (position + cs.length) ts') :
    Scans (cs ++ cs') rest position (ts ++ ts') := by
  intro source
  rw [List.append_assoc, h source, h' source, List.length_append, ← Nat.add_assoc]
  cases run source (position + cs.length + cs'.length) .between rest <;> simp [Except.map]

theorem Scans.nil (rest : List Char) (position : Nat) : Scans [] rest position [] := by
  intro source
  cases h : run source position .between rest <;> simp [h, Except.map]

/-- What is read in front of the end is all there is. -/
theorem Scans.tokens_eq {cs : List Char} {ts : List Token} (h : Scans cs [] 0 ts) :
    tokens (String.ofList cs) = .ok ts := by
  have whole := h cs
  rw [List.append_nil] at whole
  rw [tokens, String.toList_ofList, whole]
  simp [run, finish, Except.map]

/-- Blanks between two tokens mean nothing. -/
theorem Scans.blank {c : Char} (hc : Text.isBlank c) (rest : List Char) (position : Nat) :
    Scans [c] rest position [] := by
  have hs : step .between position c = .ok ([], .between) := by simp [step, start, hc]
  exact fun source => run_cons_of_step hs rest

theorem start_of_symbolKind? {c : Char} {kind : TokenKind} (hc : symbolKind? c = some kind)
    (position : Nat) : start position c = .ok ([⟨kind, c.toString, position⟩], .between) := by
  unfold symbolKind? at hc
  split at hc <;> cases hc <;> rfl

/-- A character that is a token of its own. -/
theorem Scans.symbol {c : Char} {kind : TokenKind} (hc : symbolKind? c = some kind)
    (rest : List Char) (position : Nat) :
    Scans [c] rest position [⟨kind, c.toString, position⟩] := fun _ =>
  run_cons_of_step (r := .between) (start_of_symbolKind? hc position) rest

/-! ### Delimited tokens -/

/-- A token whose payload is between two delimiters. -/
theorem Scans.delimited (reading : String → Reading) (start : String) {first last : Char}
    {cs : List Char} {position : Nat} {t : Token}
    (opens : step .between position first = .ok ([], reading start))
    (inside : ∀ c ∈ cs, ∀ position text,
      (reading text).step position c = .ok ([], reading (text.push c)))
    (closes : ∀ position,
      (reading (start ++ String.ofList cs)).step position last = .ok ([t], .between))
    (rest : List Char) : Scans (first :: (cs ++ [last])) rest position [t] := by
  intro source
  rw [List.cons_append, List.append_assoc, List.singleton_append, run_cons_of_silent opens,
    run_append_of_step inside, run_cons_of_step (closes _)]
  simp only [List.length_cons, List.length_append, List.length_nil]
  congr 2
  omega

theorem Scans.quoted {text : String} (h : '\'' ∉ text.toList) (rest : List Char)
    (position : Nat) :
    Scans ('\'' :: (text.toList ++ ['\''])) rest position [⟨.string, text, position⟩] := by
  refine Scans.delimited (.quoted position) "" ?_ ?_ ?_ rest
  · simp [step, start, Text.isBlank]
  · intro c hc _ _
    have hq : c ≠ '\'' := fun e => h (e ▸ hc)
    simp [step, hq]
  · simp [step]

/-- No blanks at either end. -/
structure Trimmed (cs : List Char) : Prop where
  head : ∀ c ∈ cs.head?, ¬ Text.isBlank c
  last : ∀ c ∈ cs.getLast?, ¬ Text.isBlank c

theorem Trimmed.stripRight {cs : List Char} (h : Trimmed cs) : Text.stripRight cs = cs := by
  have hd : cs.reverse.dropWhile Text.isBlank = cs.reverse := by
    cases hc : cs.reverse with
    | nil => rfl
    | cons c rest =>
      have hl : c ∈ cs.getLast? := by simp [← List.head?_reverse, hc]
      exact List.dropWhile_cons_of_neg (h.last c hl)
  rw [Text.stripRight, hd, List.reverse_reverse]

theorem Trimmed.strip {s : String} (h : Trimmed s.toList) : Text.strip s = s := by
  have hd : s.toList.dropWhile Text.isBlank = s.toList := by
    cases hc : s.toList with
    | nil => rfl
    | cons c rest => exact List.dropWhile_cons_of_neg (h.head c (by simp [hc]))
  rw [Text.strip, Text.stripChars, hd, h.stripRight, String.ofList_toList]

/-- Stripping takes away blanks only. -/
theorem exists_stripRight (cs : List Char) :
    ∃ behind, (∀ c ∈ behind, Text.isBlank c) ∧ cs = Text.stripRight cs ++ behind := by
  refine ⟨(cs.reverse.takeWhile Text.isBlank).reverse,
    fun c hc => List.mem_takeWhile_imp (List.mem_reverse.mp hc), ?_⟩
  rw [Text.stripRight, ← List.reverse_append, List.takeWhile_append_dropWhile, List.reverse_reverse]

theorem stripRight_append_of_blank {cs behind : List Char} (blank : ∀ c ∈ behind, Text.isBlank c) :
    Text.stripRight (cs ++ behind) = Text.stripRight cs := by
  rw [Text.stripRight, Text.stripRight, List.reverse_append,
    List.dropWhile_append_of_pos fun c hc => blank c (List.mem_reverse.mp hc)]

/-- A text is what is left after stripping, between blanks. -/
theorem exists_strip (text : String) : ∃ before behind, (∀ c ∈ before, Text.isBlank c) ∧
    (∀ c ∈ behind, Text.isBlank c) ∧
      text.toList = before ++ ((Text.strip text).toList ++ behind) := by
  obtain ⟨behind, blank, h⟩ := exists_stripRight (text.toList.dropWhile Text.isBlank)
  refine ⟨text.toList.takeWhile Text.isBlank, behind, fun c => List.mem_takeWhile_imp, blank, ?_⟩
  rw [Text.strip, String.toList_ofList, Text.stripChars, ← h, List.takeWhile_append_dropWhile]

theorem not_isBlank_of_dropWhile {cs : List Char} {c : Char}
    (h : c ∈ (cs.dropWhile Text.isBlank).head?) : ¬ Text.isBlank c := by
  have stops := List.head?_dropWhile_not Text.isBlank cs
  rw [Option.mem_def.mp h] at stops
  simpa using stops

/-- What is left after stripping has no blanks at its ends. -/
theorem trimmed_strip (text : String) : Trimmed (Text.strip text).toList := by
  rw [Text.strip, String.toList_ofList, Text.stripChars]
  constructor
  · intro c hc
    obtain ⟨behind, -, h⟩ := exists_stripRight (text.toList.dropWhile Text.isBlank)
    have first : c ∈ (text.toList.dropWhile Text.isBlank).head? := by
      rw [h, Option.mem_def, List.head?_append, Option.mem_def.mp hc, Option.some_or]
    exact not_isBlank_of_dropWhile first
  · intro c hc
    rw [Text.stripRight, List.getLast?_reverse] at hc
    exact not_isBlank_of_dropWhile hc

/-- What may be the text of a type reference: something without blanks at its ends. -/
structure IsTypeText (text : String) : Prop where
  nonempty : text ≠ ""
  trimmed : Trimmed text.toList
  plain : ∀ c ∈ text.toList, c ∉ ['<', '>', '\'']

/-- What may be the name in a type reference. -/
structure IsReference (name : String) : Prop where
  nonempty : name ≠ ""
  trimmed : Trimmed name.toList
  plain : ∀ c ∈ name.toList, c ∉ ['<', '>', '\'', '[', ']']

theorem IsReference.isTypeText {name : String} (h : IsReference name) : IsTypeText name where
  nonempty := h.nonempty
  trimmed := h.trimmed
  plain c hc hm := h.plain c hc (List.mem_append_left ['[', ']'] hm)

theorem Scans.typeRef {text : String} (h : IsTypeText text) (rest : List Char)
    (position : Nat) :
    Scans ('<' :: (text.toList ++ ['>'])) rest position [⟨.typeRef, text, position⟩] := by
  refine Scans.delimited (.typeRef position) "" ?_ ?_ ?_ rest
  · simp [step, start, Text.isBlank]
  · intro c hc _ _
    have := h.plain c hc
    simp_all [step]
  · simp [step, h.trimmed.strip, h.nonempty]

theorem Scans.range {cs : List Char} (h : ∀ c ∈ cs, c ≠ '\x7b' ∧ c ≠ '\x7d') (rest : List Char)
    (position : Nat) :
    Scans ('\x7b' :: (cs ++ ['\x7d'])) rest position
      [⟨.multiplierRange, String.ofList ('\x7b' :: (cs ++ ['\x7d'])), position⟩] := by
  refine Scans.delimited (.range position) "\x7b" ?_ ?_ ?_ rest
  · simp [step, start, Text.isBlank]
  · intro c hc _ _
    simp [step, h c hc]
  · intro _
    have ht : ("\x7b" ++ String.ofList cs).push '\x7d' =
        String.ofList ('\x7b' :: (cs ++ ['\x7d'])) := String.toList_inj.mp (by simp)
    simp [step, ht]

theorem Scans.propertyRef {text : String} (h : '\'' ∉ text.toList) (rest : List Char)
    (position : Nat) :
    Scans ('<' :: '\'' :: (text.toList ++ ['\'', '>'])) rest position
      [⟨.propertyRef, text, position⟩] := by
  intro source
  have opens : step .between position '<' = .ok ([], .typeRef position "") := by
    simp [step, start, Text.isBlank]
  have inside : ∀ c ∈ text.toList, ∀ (p : Nat) text',
      step (.propertyRef position text') p c = .ok ([], .propertyRef position (text'.push c)) := by
    intro c hc _ _
    have hq : c ≠ '\'' := fun e => h (e ▸ hc)
    simp [step, hq]
  have hr := run_append_of_step inside source (position + 1 + 1) "" ('\'' :: '>' :: rest)
  rw [String.empty_append, String.ofList_toList] at hr
  rw [List.cons_append, List.cons_append, List.append_assoc, List.cons_append, List.cons_append,
    List.nil_append, run_cons_of_silent opens, run_cons_of_silent rfl, hr, run_cons_of_silent rfl,
    run_cons_of_step rfl]
  simp only [List.length_cons, List.length_append, List.length_nil]
  congr 2
  omega

/-! ### Words -/

/-- A character that makes a word longer. -/
def IsWordChar (c : Char) : Prop :=
  ¬ Text.isBlank c ∧ c ∉ "[]+*#!?/,()\x7b\x7d&|'<>".toList

/-- What may be a word: one or more characters that mean nothing else. -/
structure IsWord (word : String) : Prop where
  nonempty : word ≠ ""
  plain : ∀ c ∈ word.toList, IsWordChar c

/-- What ends a word. -/
def EndsWord (rest : List Char) : Prop :=
  ∀ c ∈ rest.head?, Text.isBlank c ∨ endsWord c

theorem EndsWord.after_blanks {cs rest : List Char} (ends : EndsWord rest)
    (blank : ∀ c ∈ cs, Text.isBlank c) : EndsWord (cs ++ rest) := by
  cases cs with
  | nil => exact ends
  | cons c cs => exact fun c' hc' => .inl (Option.some.inj hc' ▸ blank c List.mem_cons_self)

theorem IsWordChar.symbolKind? {c : Char} (h : IsWordChar c) : symbolKind? c = none := by
  obtain ⟨-, hc⟩ := h
  unfold Reading.symbolKind?
  split <;> first | rfl | simp at hc

theorem IsWordChar.start {c : Char} (h : IsWordChar c) (position : Nat) :
    start position c = .ok ([], .word position c.toString) := by
  have hs := h.symbolKind?
  obtain ⟨hb, hc⟩ := h
  simp_all [Reading.start]

theorem IsWordChar.step {c : Char} (h : IsWordChar c) (first position : Nat) (text : String) :
    step (.word first text) position c = .ok ([], .word first (text.push c)) := by
  obtain ⟨hb, hc⟩ := h
  simp_all [Reading.step, endsWord]

theorem run_word {word : String} (h : IsWord word) (source rest : List Char) (position : Nat) :
    run source position .between (word.toList ++ rest) =
      run source (position + word.toList.length) (.word position word) rest := by
  obtain ⟨c, cs, hw⟩ := List.exists_cons_of_ne_nil (mt String.toList_eq_nil_iff.mp h.nonempty)
  have hp := h.plain
  rw [hw] at hp
  obtain ⟨hc, hcs⟩ := List.forall_mem_cons.mp hp
  have hr := run_append_of_step (fun c hc p text => (hcs c hc).step position p text) source
    (position + 1) c.toString rest
  have ht : c.toString ++ String.ofList cs = word := String.toList_inj.mp (by simp [hw])
  have opens : Reading.step .between position c = .ok ([], .word position c.toString) :=
    hc.start position
  rw [hw, List.cons_append, run_cons_of_silent opens, hr, ht, List.length_cons,
    Nat.add_assoc, Nat.add_comm 1]

theorem step_word_of_endsWord {c : Char} (hc : Text.isBlank c ∨ endsWord c) (word : String)
    (first position : Nat) :
    step (.word first word) position c = endBefore ⟨.keyword, word, first⟩ position c := by
  by_cases hb : Text.isBlank c
  · simp [step, endBefore, start, hb, Except.map]
  · have he : endsWord c := hc.resolve_left hb
    have h₁ : c ≠ '(' := fun e => by simp [e, endsWord] at he
    have h₂ : c ≠ '<' := fun e => by simp [e, endsWord] at he
    have h₃ : c ≠ '>' := fun e => by simp [e, endsWord] at he
    simp [step, hb, he, h₁, h₂, h₃]

/-- The character that ends a word is read again as the start of something new. -/
theorem run_endsWord {rest : List Char} (hr : EndsWord rest) (source : List Char) (position : Nat)
    (word : String) (first : Nat) :
    run source position (.word first word) rest =
      (run source position .between rest).map ([⟨.keyword, word, first⟩] ++ ·) := by
  cases rest with
  | nil => rfl
  | cons c rest => exact run_cons_of_endBefore (step_word_of_endsWord (hr c rfl) _ _ _) rest

theorem Scans.word {word : String} (h : IsWord word) {rest : List Char} (hr : EndsWord rest)
    (position : Nat) : Scans word.toList rest position [⟨.keyword, word, position⟩] := by
  intro source
  rw [run_word h, run_endsWord hr]

theorem Scans.functionStart {name : String} (h : IsWord name) (rest : List Char)
    (position : Nat) :
    Scans (name.toList ++ ['(']) rest position [⟨.functionStart, name, position⟩] := by
  intro source
  have hs : step (.word position name) (position + name.toList.length) '(' =
      .ok ([⟨.functionStart, name, position⟩], .between) := by
    simp [step, Text.isBlank]
  rw [List.append_assoc, run_word h, List.singleton_append, run_cons_of_step hs,
    List.length_append, List.length_singleton, Nat.add_assoc]

/-! ### Combinators -/

/-- A combinator of two characters ends with the second one. -/
theorem Scans.combinator_of_ne {c : Combinator} (h : c ≠ .oneOf) (rest : List Char)
    (position : Nat) :
    Scans c.symbol.toList rest position [⟨.combinator, c.symbol, position⟩] := by
  intro source
  cases c with
  | oneOf => exact absurd rfl h
  | anyOf =>
    have first (p : Nat) : step .between p '|' = .ok ([], .bar p) := rfl
    have last (p : Nat) : step (.bar position) p '|' =
        .ok ([⟨.combinator, "||", position⟩], .between) := rfl
    rw [show Combinator.anyOf.symbol.toList = ['|', '|'] from rfl, List.cons_append,
      List.singleton_append, run_cons_of_silent (first position), run_cons_of_step (last _)]
    rfl
  | allOf =>
    have first (p : Nat) : step .between p '&' = .ok ([], .ampersand p) := rfl
    have last (p : Nat) : step (.ampersand position) p '&' =
        .ok ([⟨.combinator, "&&", position⟩], .between) := rfl
    rw [show Combinator.allOf.symbol.toList = ['&', '&'] from rfl, List.cons_append,
      List.singleton_append, run_cons_of_silent (first position), run_cons_of_step (last _)]
    rfl

theorem Scans.combinator (c : Combinator) (rest : List Char) (position : Nat) :
    Scans c.symbol.toList (' ' :: rest) position [⟨.combinator, c.symbol, position⟩] := by
  cases c with
  | oneOf =>
    intro source
    have blank (p : Nat) : step .between p ' ' = .ok ([], .between) := rfl
    have first (p : Nat) : step .between p '|' = .ok ([], .bar p) := rfl
    have last (p : Nat) : step (.bar position) p ' ' =
        .ok ([⟨.combinator, "|", position⟩], .between) := rfl
    rw [show Combinator.oneOf.symbol.toList = ['|'] from rfl, List.singleton_append,
      run_cons_of_silent (first position), run_cons_of_step (last _), List.length_singleton,
      run_cons_of_silent (blank _)]
    rfl
  | _ => exact Scans.combinator_of_ne (by simp) _ position

end WebSpec.Value
