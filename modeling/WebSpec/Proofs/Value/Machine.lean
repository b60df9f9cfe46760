import WebSpec.Proofs.Outcome
import WebSpec.Proofs.Value.Scanning

/-!
# Reading by the names of states

The reader of tokens is a state machine whose states have published names. `Machine` knows its state
by this name alone and looks up in each step what to do in it, so a step may find that it does not
know the state. It reads a character in one step, or in two: one that ends a token without taking
the character, and one in the state after that.

That a state is unknown never happens: where the machine is, there is a reading with the same
meaning (`Reads`), whose mode has the name of the state (`Reads.state_eq`). Each step keeps this
(`follows_step`), and so the machine gives the tokens and the faults that the reader of tokens
gives, and nothing else (`tokens_eq`).
-/

namespace WebSpec.Value

/-- The machine between two characters: the name of its state, where its token starts, and what it
has of it. -/
structure Machine where
  state : String
  first : Nat
  text : String

namespace Machine

open Reading (symbolKind? endsWord)

/-! ### The machine -/

/-- Why the machine stops. -/
inductive Halt where
  /-- The text cannot be read. -/
  | fault (fault : Fault)
  /-- The machine does not know its own state. -/
  | unknownState (name : String)

/-- What a step does: the tokens that it completes, how the machine goes on, and whether it has
taken the character. -/
structure Move where
  tokens : List Token
  next : Machine
  isTaken : Bool

/-- The character is taken, and nothing is complete. -/
def goOn (next : Machine) : Except Halt Move :=
  .ok ⟨[], next, true⟩

/-- A token is complete. -/
def emit (m : Machine) (token : Token) (isTaken : Bool := true) : Except Halt Move :=
  .ok ⟨[token], ⟨"new", m.first, ""⟩, isTaken⟩

/-- The character becomes a part of the token. -/
def extend (m : Machine) (c : Char) : Except Halt Move :=
  goOn { m with text := m.text.push c }

/-- The character cannot stand here. -/
def refuse (mode : Mode) (position : Nat) (c : Char) : Except Halt Move :=
  .error (.fault (.unexpectedCharacter c position mode))

/-- Reads a character between two tokens. -/
def start (m : Machine) (position : Nat) (c : Char) : Except Halt Move :=
  if Text.isBlank c then goOn m
  else if c = '<' then goOn ⟨"type-ref-open", position, ""⟩
  else if c = '\'' then goOn ⟨"quote", position, ""⟩
  else if c = '\x7b' then goOn ⟨"curly", position, "\x7b"⟩
  else if c = '&' then goOn ⟨"ampersand", position, ""⟩
  else if c = '|' then goOn ⟨"pipe", position, ""⟩
  else
    match symbolKind? c with
    | some kind => m.emit ⟨kind, c.toString, position⟩
    | none =>
      if c = '<' || c = '>' || c = '\x7d' then refuse .between position c
      else goOn ⟨"keyword", position, c.toString⟩

/-- Reads a character, or leaves it to the next step. -/
def step (m : Machine) (position : Nat) (c : Char) : Except Halt Move :=
  match m.state with
  | "new" => m.start position c
  | "keyword" =>
    if Text.isBlank c then m.emit ⟨.keyword, m.text, m.first⟩
    else if c = '(' then m.emit ⟨.functionStart, m.text, m.first⟩
    else if c = '<' || c = '>' then refuse .word position c
    else if endsWord c then m.emit ⟨.keyword, m.text, m.first⟩ false
    else m.extend c
  | "quote" =>
    if c = '\'' then m.emit ⟨.string, m.text, m.first⟩ else m.extend c
  | "type-ref-open" =>
    if c = '\'' && m.text = "" then goOn { m with state := "type-ref-quote" }
    else if c = '>' then
      if Text.strip m.text = "" then refuse .typeRef position c
      else m.emit ⟨.typeRef, Text.strip m.text, m.first⟩
    else if c = '<' || c = '\'' then refuse .typeRef position c
    else m.extend c
  | "type-ref-quote" =>
    if c = '\'' then goOn { m with state := "type-ref-close" } else m.extend c
  | "type-ref-close" =>
    if c = '>' then m.emit ⟨.propertyRef, m.text, m.first⟩ else refuse .propertyRefEnd position c
  | "curly" =>
    if c = '\x7b' then refuse .range position c
    else if c = '\x7d' then m.emit ⟨.multiplierRange, m.text.push c, m.first⟩
    else m.extend c
  | "ampersand" =>
    if c = '&' then m.emit ⟨.combinator, "&&", m.first⟩ else refuse .ampersand position c
  | "pipe" =>
    if c = '|' then m.emit ⟨.combinator, "||", m.first⟩
    else m.emit ⟨.combinator, "|", m.first⟩ false
  | name => .error (.unknownState name)

/-- What the end of the text completes. -/
def finish (source : List Char) (m : Machine) : Except Halt (List Token) :=
  let since := String.ofList (source.drop m.first)
  match m.state with
  | "keyword" => .ok [⟨.keyword, m.text, m.first⟩]
  | "quote" => .error (.fault (.unterminatedToken since .quoted))
  | "type-ref-open" => .error (.fault (.unterminatedToken since .typeRef))
  | "type-ref-quote" => .error (.fault (.unterminatedToken since .propertyRef))
  | "type-ref-close" => .error (.fault (.unterminatedToken since .propertyRefEnd))
  | "curly" => .error (.fault (.unterminatedToken since .range))
  | "ampersand" => .error (.fault (.unterminatedCombinator since .ampersand))
  | "pipe" => .error (.fault (.unterminatedCombinator since .bar))
  | _ => .ok []

/-- Between two tokens every character is taken. -/
theorem isTaken_of_start {m : Machine} {position : Nat} {c : Char} {move : Move}
    (h : m.start position c = .ok move) : move.isTaken := by
  unfold start goOn emit refuse at h
  cases hk : symbolKind? c with
  | some kind =>
    simp only [hk] at h
    split_ifs at h <;> cases h <;> rfl
  | none =>
    simp only [hk] at h
    split_ifs at h <;> cases h <;> rfl

/-- A character is left to the next step only where it has ended a token, and then the machine is
between two tokens. -/
theorem state_of_step_left {m : Machine} {position : Nat} {c : Char} {move : Move}
    (h : m.step position c = .ok move) (left : ¬ move.isTaken) :
    m.state ≠ "new" ∧ move.next.state = "new" := by
  unfold step goOn emit extend goOn refuse at h
  split at h
  case h_1 => exact absurd (isTaken_of_start h) left
  case h_10 => cases h
  case h_2 isKeyword =>
    split_ifs at h <;> cases h
    any_goals exact absurd rfl left
    exact ⟨by simp [isKeyword], rfl⟩
  case h_9 isPipe =>
    split_ifs at h <;> cases h
    any_goals exact absurd rfl left
    exact ⟨by simp [isPipe], rfl⟩
  all_goals split_ifs at h <;> cases h <;> exact absurd rfl left

/-- Reads the characters from `position` on, the last of the text `source`. -/
def run (source : List Char) (m : Machine) (position : Nat) (cs : List Char) :
    Except Halt (List Token) :=
  match cs with
  | [] => m.finish source
  | c :: rest =>
    match _ : m.step position c with
    | .error halt => .error halt
    | .ok move =>
      if _ : move.isTaken then
        (move.next.run source (position + 1) rest).map (move.tokens ++ ·)
      else (move.next.run source position (c :: rest)).map (move.tokens ++ ·)
termination_by (cs.length, if m.state = "new" then 0 else 1)
decreasing_by
  · exact Prod.Lex.left _ _ (by simp)
  · obtain ⟨before, behind⟩ := state_of_step_left ‹_› ‹_›
    simp [before, behind, Prod.lex_def]

/-- The tokens of a text. -/
def tokens (source : String) : Except Halt (List Token) :=
  run source.toList ⟨"new", 0, ""⟩ 0 source.toList

/-! ### The machine and the reader of tokens -/

/-- The machine and the reading are at the same point of the same token. What the machine has kept
of an earlier token does not matter. -/
inductive Reads : Machine → Reading → Prop where
  | between {first text} : Reads ⟨"new", first, text⟩ .between
  | word {first text} : Reads ⟨"keyword", first, text⟩ (.word first text)
  | quoted {first text} : Reads ⟨"quote", first, text⟩ (.quoted first text)
  | typeRef {first text} : Reads ⟨"type-ref-open", first, text⟩ (.typeRef first text)
  | propertyRef {first text} : Reads ⟨"type-ref-quote", first, text⟩ (.propertyRef first text)
  | propertyRefEnd {first text} :
    Reads ⟨"type-ref-close", first, text⟩ (.propertyRefEnd first text)
  | range {first text} : Reads ⟨"curly", first, text⟩ (.range first text)
  | ampersand {first text} : Reads ⟨"ampersand", first, text⟩ (.ampersand first)
  | bar {first text} : Reads ⟨"pipe", first, text⟩ (.bar first)

/-- The machine is in the state that the message of a fault would name. -/
theorem Reads.state_eq {m : Machine} {r : Reading} (h : m.Reads r) : m.state = r.mode.name := by
  cases h <;> rfl

/-- What the machine does with a character is what the reader does with it, which ends a token and
starts the next one at once. -/
inductive Follows (position : Nat) (c : Char) :
    Except Halt Move → Except Fault (List Token × Reading) → Prop where
  | taken {ts next r} (h : next.Reads r) : Follows position c (.ok ⟨ts, next, true⟩) (.ok (ts, r))
  | left {t next} (h : next.Reads .between) :
    Follows position c (.ok ⟨[t], next, false⟩) (Reading.endBefore t position c)
  | fault {fault} : Follows position c (.error (.fault fault)) (.error fault)

theorem follows_start {m : Machine} (h : m.Reads .between) (position : Nat) (c : Char) :
    Follows position c (m.start position c) (Reading.start position c) := by
  cases h
  unfold start Reading.start
  cases symbolKind? c with
  | some kind =>
    dsimp only
    split_ifs
    · exact .taken .between
    · exact .taken .typeRef
    · exact .taken .quoted
    · exact .taken .range
    · exact .taken .ampersand
    · exact .taken .bar
    · exact .taken .between
  | none =>
    dsimp only
    split_ifs
    · exact .taken .between
    · exact .taken .typeRef
    · exact .taken .quoted
    · exact .taken .range
    · exact .taken .ampersand
    · exact .taken .bar
    · exact .fault
    · simp_all
    · simp_all
    · exact .taken .word

theorem follows_step {m : Machine} {r : Reading} (h : m.Reads r) (position : Nat) (c : Char) :
    Follows position c (m.step position c) (r.step position c) := by
  cases h with
  | between => exact follows_start .between position c
  | word =>
    simp only [step, Reading.step]
    split_ifs
    · exact .taken .between
    · exact .taken .between
    · exact .fault
    · exact .left .between
    · exact .taken .word
  | quoted =>
    simp only [step, Reading.step]
    split_ifs
    · exact .taken .between
    · exact .taken .quoted
  | typeRef =>
    simp only [step, Reading.step]
    split_ifs with quote
    · simp only [Bool.and_eq_true, decide_eq_true_eq] at quote
      obtain ⟨-, rfl⟩ := quote
      exact .taken .propertyRef
    · exact .fault
    · exact .taken .between
    · exact .fault
    · exact .taken .typeRef
  | propertyRef =>
    simp only [step, Reading.step]
    split_ifs
    · exact .taken .propertyRefEnd
    · exact .taken .propertyRef
  | propertyRefEnd =>
    simp only [step, Reading.step]
    split_ifs
    · exact .taken .between
    · exact .fault
  | range =>
    simp only [step, Reading.step]
    split_ifs
    · exact .fault
    · exact .taken .between
    · exact .taken .range
  | ampersand =>
    simp only [step, Reading.step]
    split_ifs
    · exact .taken .between
    · exact .fault
  | bar =>
    simp only [step, Reading.step]
    split_ifs
    · exact .taken .between
    · exact .left .between

variable {m : Machine} {r : Reading}

theorem finish_eq (h : m.Reads r) (source : List Char) :
    m.finish source = (r.finish source).mapError .fault := by
  cases h <;> rfl

/-- What is left of the text is read alike. -/
theorem run_eq (h : m.Reads r) (source : List Char) (position : Nat) (cs : List Char) :
    m.run source position cs = (r.run source position cs).mapError .fault := by
  fun_induction run source m position cs generalizing r with
  | case1 => exact finish_eq h source
  | case2 m position c rest halt stepped =>
    have follows := follows_step h position c
    rw [stepped] at follows
    generalize hr : r.step position c = read at follows
    cases follows
    rw [Reading.run, hr]
    rfl
  | case3 m position c rest move stepped taken ih =>
    have follows := follows_step h position c
    rw [stepped] at follows
    generalize hr : r.step position c = read at follows
    cases follows with
    | taken next_reads => rw [run_cons_of_step hr, ← mapError_map, ← ih next_reads]
    | left => cases taken
  | case4 m position c rest move stepped left ih =>
    have follows := follows_step h position c
    rw [stepped] at follows
    generalize hr : r.step position c = read at follows
    cases follows with
    | taken => exact absurd rfl left
    | left next_reads => rw [run_cons_of_endBefore hr, ← mapError_map, ← ih next_reads]

/-- The state of the machine is never unknown: it gives the tokens and the faults that the reader
gives. -/
theorem tokens_eq (source : String) :
    tokens source = (Value.tokens source).mapError .fault :=
  run_eq .between source.toList 0 source.toList

end Machine

end WebSpec.Value
