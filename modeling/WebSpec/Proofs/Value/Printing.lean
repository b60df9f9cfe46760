import Mathlib.Data.List.Basic
import WebSpec.Proofs.Value.Bounds
import WebSpec.Proofs.Value.Scanning

/-!
# Printing grammar trees

`Node.print` writes a tree as a value definition: leaves and functions as they are written by hand,
and every part of a compound in brackets of its own, so that no precedence is left to chance.

Not every tree can be written. `Canonical` says which ones: names that can be read as one token,
combinations of at least two parts, and repetitions with bounds that some multiplier stands for.
Bounds are natural numbers. However long they are they can be written, but only `IsShort` ones are
read again.
-/

namespace WebSpec.Value

/-! ### Printing -/

/-- How a leaf is written. -/
def LeafKind.print (text : List Char) : LeafKind → List Char
  | .keyword => text
  | .primitive | .valueSpace => '<' :: (text ++ ['>'])
  | .propertyRef => '<' :: '\'' :: (text ++ ['\'', '>'])
  | .string => '\'' :: (text ++ ['\''])

/-- A number in decimal digits. -/
def printBound (n : Int) : List Char :=
  (toString n).toList

/-- A range: its lower bound, and after the comma its upper bound or nothing. -/
def printRange (m : Int) (upper : List Char) : List Char :=
  '\x7b' :: (printBound m ++ ',' :: (upper ++ ['\x7d']))

/-- How often something is repeated, as multipliers. -/
def Repetition.print (r : Repetition) : List Char :=
  let list := if r.separator.isSome then ['#'] else []
  match r.least, r.greatest with
  | some m, some n => list ++ printRange m (printBound n)
  | some m, none => list ++ printRange m []
  | none, some _ => list ++ ['?']
  | none, none => list

/-- The mark of what may be left out. -/
def printOptional (isOptional : Bool) : List Char :=
  if isOptional then ['?'] else []

/-- Brackets around a part. -/
def bracketed (part : List Char) : List Char :=
  '[' :: ' ' :: (part ++ [' ', ']'])

mutual

/-- A tree as the characters of a value definition. -/
def Node.chars : Node → List Char
  | .leaf kind text isOptional => kind.print text.toList ++ printOptional isOptional
  | .function name arguments isOptional =>
    name.toList ++ '(' :: ' ' :: (arguments.chars ++ ' ' :: ')' :: printOptional isOptional)
  | .sequence items repetition isOptional =>
    Node.partsChars [' '] items ++ (repetition.print ++ printOptional isOptional)
  | .combined combinator items isOptional =>
    Node.partsChars (' ' :: (combinator.symbol.toList ++ [' '])) items ++ printOptional isOptional

/-- The parts of a compound, each in brackets, with a separator between them. -/
def Node.partsChars (separator : List Char) : List Node → List Char
  | [] => []
  | [item] => bracketed item.chars
  | item :: rest => bracketed item.chars ++ (separator ++ Node.partsChars separator rest)

end

/-- A tree as a value definition. -/
def Node.print (node : Node) : String :=
  String.ofList node.chars

/-! ### What can be written -/

/-- Repetitions that multipliers stand for. -/
inductive Repetition.Canonical : Repetition → Prop where
  /-- `{m,n}` -/
  | range {m n : Nat} (h : m ≤ n) : Canonical { least := some m, greatest := some n }
  /-- `{m,}` -/
  | atLeast (m : Nat) : Canonical { least := some m }
  /-- `?` -/
  | atMostOne : Canonical { greatest := some 1 }
  /-- `#` -/
  | list : Canonical { separator := some "," }
  /-- `#{m,n}` -/
  | listRange {m n : Nat} (h : m ≤ n) :
      Canonical { least := some m, greatest := some n, separator := some "," }
  /-- `#{m,}` -/
  | listAtLeast (m : Nat) : Canonical { least := some m, separator := some "," }

/-- Trees that can be written. -/
inductive Canonical : Node → Prop where
  | keyword {name isOptional} (word : IsWord name) (starts : startsKeyword name) :
      Canonical (.leaf .keyword name isOptional)
  | primitive {name isOptional} (known : name ∈ primitives) :
      Canonical (.leaf .primitive name isOptional)
  | valueSpace {name isOptional} (reference : IsReference name) (unknown : name ∉ primitives) :
      Canonical (.leaf .valueSpace name isOptional)
  | propertyRef {name isOptional} (unquoted : '\'' ∉ name.toList) :
      Canonical (.leaf .propertyRef name isOptional)
  | string {text isOptional} (unquoted : '\'' ∉ text.toList) :
      Canonical (.leaf .string text isOptional)
  | function {name arguments isOptional} (word : IsWord name) (h : Canonical arguments) :
      Canonical (.function name arguments isOptional)
  | noArguments {name isOptional} (word : IsWord name) :
      Canonical (.function name (.juxtaposed []) isOptional)
  | juxtaposition {items} (several : 2 ≤ items.length) (h : ∀ item ∈ items, Canonical item) :
      Canonical (.juxtaposed items)
  | combination {combinator items} (several : 2 ≤ items.length)
      (h : ∀ item ∈ items, Canonical item) : Canonical (.combined combinator items false)
  | repetition {item repetition isOptional} (h : Canonical item)
      (bounds : repetition.Canonical) : Canonical (.sequence [item] repetition isOptional)

/-! ### Reading the bounds of a range -/

theorem digitValue?_of_isDigit {c : Char} (h : c.isDigit) :
    Text.digitValue? c = some (c.toNat - 48) := by
  have hc : 48 ≤ c.toNat ∧ c.toNat < 48 + 10 := by
    have hd := Char.isDigit_iff_toNat.mp h
    exact ⟨hd.1, Nat.lt_succ_of_le hd.2⟩
  simp [Text.digitValue?, Text.digitZeros, hc]

theorem isDecimalDigit_of_isDigit {c : Char} (h : c.isDigit) : Text.isDecimalDigit c := by
  simp [Text.isDecimalDigit, digitValue?_of_isDigit h]

theorem decimalValue_toDigits (n : Nat) : Text.decimalValue (Nat.toDigits 10 n) = n := by
  have hf : ∀ (cs : List Char), (∀ c ∈ cs, c.isDigit) → ∀ init,
      cs.foldl (fun n c => 10 * n + (Text.digitValue? c).getD 0) init =
        Nat.ofDigitChars 10 cs init := by
    intro cs hcs
    induction cs with
    | nil => simp
    | cons c cs ih =>
      obtain ⟨hc, hcs⟩ := List.forall_mem_cons.mp hcs
      intro init
      rw [List.foldl_cons, ih hcs, digitValue?_of_isDigit hc, Nat.ofDigitChars_cons]
      rfl
  rw [Text.decimalValue, hf _ fun c hc => Nat.isDigit_of_mem_toDigits (by decide) (by decide) hc,
    Nat.ofDigitChars_ten_toDigits]

theorem printBound_natCast (n : Nat) : printBound n = Nat.toDigits 10 n :=
  Nat.toList_repr

theorem isDigit_of_mem_printBound {n : Nat} {c : Char} (hc : c ∈ printBound n) : c.isDigit := by
  rw [printBound_natCast] at hc
  exact Nat.isDigit_of_mem_toDigits (by decide) (by decide) hc

theorem not_isBlank_of_isDigit {c : Char} (h : c.isDigit) : ¬ Text.isBlank c := by
  obtain ⟨hl, hg⟩ : 48 ≤ c.toNat ∧ c.toNat ≤ 57 := Char.isDigit_iff_toNat.mp h
  simp only [Text.isBlank, Bool.or_eq_true, Bool.and_eq_true, decide_eq_true_eq, beq_iff_eq]
  omega

theorem dropWhile_printBound (n : Nat) (rest : List Char) :
    (printBound n ++ rest).dropWhile Text.isBlank = printBound n ++ rest := by
  obtain ⟨c, cs, hp⟩ := List.exists_cons_of_ne_nil
    (show printBound n ≠ [] by rw [printBound_natCast]; exact Nat.toDigits_ne_nil)
  have hc : c.isDigit := isDigit_of_mem_printBound (hp ▸ List.mem_cons_self)
  rw [hp]
  exact List.dropWhile_cons_of_neg (not_isBlank_of_isDigit hc)

theorem readDigits_printBound (n : Nat) {rest : List Char}
    (hr : ∀ c ∈ rest.head?, ¬ Text.isDecimalDigit c) :
    readDigits (printBound n ++ rest) = some (printBound n, rest) := by
  have hd : ∀ c ∈ printBound n, Text.isDecimalDigit c := fun c hc =>
    isDecimalDigit_of_isDigit (isDigit_of_mem_printBound hc)
  have ht : rest.takeWhile Text.isDecimalDigit = [] ∧
      rest.dropWhile Text.isDecimalDigit = rest := by
    cases rest with
    | nil => exact ⟨rfl, rfl⟩
    | cons c rest =>
      exact ⟨List.takeWhile_cons_of_neg (hr c rfl), List.dropWhile_cons_of_neg (hr c rfl)⟩
  have hne : printBound n ≠ [] := by
    rw [printBound_natCast]
    exact Nat.toDigits_ne_nil
  rw [readDigits, List.takeWhile_append_of_pos hd, List.dropWhile_append_of_pos hd, ht.1, ht.2,
    List.append_nil, if_neg (by simpa using hne)]

theorem readDigits_lower (m : Nat) (rest : List Char) :
    readDigits (printBound m ++ ',' :: rest) = some (printBound m, ',' :: rest) :=
  readDigits_printBound m (by rintro c ⟨⟩; decide)

theorem readRange_between (m n : Nat) :
    readRange (printRange m (printBound n)) = some (printBound m, .upTo (printBound n)) := by
  have hn : readDigits (printBound n ++ ['\x7d']) = some (printBound n, ['\x7d']) :=
    readDigits_printBound n (by rintro c ⟨⟩; decide)
  have he : readRangeEnd (',' :: (printBound n ++ ['\x7d'])) = some (.upTo (printBound n)) := by
    have hd := dropWhile_printBound n ['\x7d']
    simp [readRangeEnd, Text.isBlank, hd, hn, endsRange]
  simp [readRange, printRange, dropWhile_printBound, readDigits_lower, he]

theorem readRange_from (m : Nat) :
    readRange (printRange m []) = some (printBound m, .unbounded) := by
  have he : readRangeEnd [',', '\x7d'] = some .unbounded := by decide
  simp [readRange, printRange, dropWhile_printBound, readDigits_lower, he]

/-- What has too many digits is what is too large. -/
theorem length_printBound_le_iff {n k : Nat} (hk : 0 < k) :
    (printBound n).length ≤ k ↔ n < 10 ^ k := by
  rw [printBound_natCast]
  exact Nat.length_toDigits_le_iff (by decide) hk

theorem readBound_printBound {n : Nat} (short : n < 10 ^ Text.maxDigits) :
    readBound (printBound n) = .ok n := by
  rw [readBound, if_pos ((length_printBound_le_iff (by decide)).mpr short), printBound_natCast,
    decimalValue_toDigits]

theorem readBound_printBound_of_le {n : Nat} (long : 10 ^ Text.maxDigits ≤ n) :
    readBound (printBound n) = .error (.longBound (printBound n).length) :=
  if_neg (mt (length_printBound_le_iff (by decide)).mp long.not_gt)

theorem rangeBounds_between {m n : Nat} (h : m ≤ n) (short : n < 10 ^ Text.maxDigits) :
    rangeBounds (String.ofList (printRange m (printBound n))) = .ok (m, some n) := by
  simp [rangeBounds, readRange_between, readBound_printBound (h.trans_lt short),
    readBound_printBound short, bind, Except.bind, Nat.not_lt.mpr h]

theorem rangeBounds_from {m : Nat} (short : m < 10 ^ Text.maxDigits) :
    rangeBounds (String.ofList (printRange m [])) = .ok (m, none) := by
  simp [rangeBounds, readRange_from, readBound_printBound short, bind, Except.bind]

theorem rangeBounds_from_of_le {m : Nat} (long : 10 ^ Text.maxDigits ≤ m) :
    rangeBounds (String.ofList (printRange m [])) =
      .error (.longBound (printBound m).length) := by
  simp [rangeBounds, readRange_from, readBound_printBound_of_le long, bind, Except.bind]

end WebSpec.Value
