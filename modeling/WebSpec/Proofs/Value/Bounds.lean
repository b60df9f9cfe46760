import Mathlib.Algebra.Order.Ring.Int
import Mathlib.Data.List.Basic
import WebSpec.Proofs.Outcome
import WebSpec.Value.Multiplier

/-!
# The bounds of repetitions

A range gives bounds that are in order and that have at most as many digits as a number is read
from, or it is refused: `ends_rangeBounds` says all there is to know about ranges.
-/

namespace WebSpec.Value

/-! ### Numbers -/

theorem digitValue?_lt {c : Char} {n : Nat} (h : Text.digitValue? c = some n) : n < 10 := by
  obtain ⟨first, found, rfl⟩ := Option.map_eq_some_iff.mp h
  have inside := List.find?_some found
  simp only [Bool.and_eq_true, decide_eq_true_eq] at inside
  omega

/-- A number has no more digits than are written. -/
theorem decimalValue_lt (digits : List Char) : Text.decimalValue digits < 10 ^ digits.length := by
  have step : ∀ (cs : List Char) (k init : Nat), init < 10 ^ k →
      cs.foldl (fun n c => 10 * n + (Text.digitValue? c).getD 0) init < 10 ^ (k + cs.length) := by
    intro cs
    induction cs with
    | nil => simp
    | cons c cs ih =>
      intro k init h
      have digit : (Text.digitValue? c).getD 0 < 10 := by
        cases hd : Text.digitValue? c with
        | none => decide
        | some n => exact digitValue?_lt hd
      have next := ih (k + 1) (10 * init + (Text.digitValue? c).getD 0) (by rw [Nat.pow_succ]; omega)
      rwa [List.foldl_cons, List.length_cons, Nat.add_comm cs.length, ← Nat.add_assoc]
  simpa [Text.decimalValue] using step digits 0 0 (by simp)

/-! ### Short bounds -/

/-- The bounds that are given. -/
def Repetition.bounds (r : Repetition) : List Int :=
  r.least.toList ++ r.greatest.toList

mutual

/-- The bounds of all repetitions in a tree. -/
def Node.bounds : Node → List Int
  | .leaf .. => []
  | .function _ arguments _ => arguments.bounds
  | .sequence items repetition _ => Node.boundsOfAll items ++ repetition.bounds
  | .combined _ items _ => Node.boundsOfAll items

/-- The bounds in several trees. -/
def Node.boundsOfAll : List Node → List Int
  | [] => []
  | item :: rest => item.bounds ++ Node.boundsOfAll rest

end

@[simp] theorem Node.boundsOfAll_eq (items : List Node) :
    Node.boundsOfAll items = items.flatMap Node.bounds := by
  induction items with
  | nil => rfl
  | cons item rest ih => rw [Node.boundsOfAll, ih, List.flatMap_cons]

/-- No bound has more digits than a number is read from. -/
def Repetition.IsShort (r : Repetition) : Prop :=
  ∀ bound ∈ r.bounds, bound < 10 ^ Text.maxDigits

/-- No bound in a tree has more digits than a number is read from. -/
def Node.IsShort (node : Node) : Prop :=
  ∀ bound ∈ node.bounds, bound < 10 ^ Text.maxDigits

variable {node whole : Node} {items : List Node} {isOptional : Bool}

theorem isShort_leaf (kind : LeafKind) (text : String) : (Node.leaf kind text isOptional).IsShort :=
  List.forall_mem_nil _

theorem isShort_function_iff {name : String} :
    (Node.function name node isOptional).IsShort ↔ node.IsShort :=
  .rfl

theorem isShort_sequence_iff {r : Repetition} :
    (Node.sequence items r isOptional).IsShort ↔ (∀ item ∈ items, item.IsShort) ∧ r.IsShort := by
  simp only [Node.IsShort, Repetition.IsShort, Node.bounds, Node.boundsOfAll_eq,
    List.forall_mem_append, List.forall_mem_flatMap]

theorem isShort_combined_iff {c : Combinator} :
    (Node.combined c items isOptional).IsShort ↔ ∀ item ∈ items, item.IsShort := by
  simp only [Node.IsShort, Node.bounds, Node.boundsOfAll_eq, List.forall_mem_flatMap]

theorem natCast_lt_iff {n : Nat} :
    (n : Int) < 10 ^ Text.maxDigits ↔ n < 10 ^ Text.maxDigits := by
  generalize Text.maxDigits = k
  exact_mod_cast Iff.rfl

/-- One digit is not too many. -/
theorem forall_lt_of_lt_ten {bounds : List Int} (h : ∀ bound ∈ bounds, bound < 10) :
    ∀ bound ∈ bounds, bound < 10 ^ Text.maxDigits :=
  fun bound hb => (h bound hb).trans_le (le_self_pow₀ (by decide) (by decide))

/-! ### Ranges -/

/-- What is wrong with a range that has no bounds. -/
def Fault.IsOfRange : Fault → Prop
  | .malformedRange _ | .descendingRange _ | .longBound _ => True
  | _ => False

/-- What the bounds of a range are like. -/
structure IsRange (bounds : Int × Option Int) : Prop where
  ordered : ∀ greatest ∈ bounds.2, bounds.1 ≤ greatest
  isShort : Repetition.IsShort { least := some bounds.1, greatest := bounds.2 }

theorem ends_readBound (digits : List Char) :
    Ends (· < 10 ^ Text.maxDigits) Fault.IsOfRange (readBound digits) := by
  unfold readBound
  split_ifs with few
  · exact .ok ((decimalValue_lt digits).trans_le (Nat.pow_le_pow_right (by decide) few))
  · exact .error trivial

/-- A range stands for bounds that are in order and short, or something is wrong with it. -/
theorem ends_rangeBounds (text : String) : Ends IsRange Fault.IsOfRange (rangeBounds text) := by
  unfold rangeBounds
  split
  · exact .error trivial
  rename_i lowDigits bound _
  refine (ends_readBound lowDigits).bind fun low hl => ?_
  have low_short := natCast_lt_iff.mpr hl
  cases bound with
  | same => exact .ok ⟨by simp, by simpa [Repetition.IsShort, Repetition.bounds] using low_short⟩
  | unbounded =>
    exact .ok ⟨by simp, by simpa [Repetition.IsShort, Repetition.bounds] using low_short⟩
  | upTo highDigits =>
    refine (ends_readBound highDigits).bind fun high hh => ?_
    have high_short := natCast_lt_iff.mpr hh
    split_ifs with descending
    · exact .error trivial
    · refine .ok ⟨by simpa using Nat.le_of_not_lt descending, ?_⟩
      simpa [Repetition.IsShort, Repetition.bounds] using ⟨low_short, high_short⟩

theorem isRange_of_rangeBounds {text : String} {bounds : Int × Option Int}
    (h : rangeBounds text = .ok bounds) : IsRange bounds := by
  have ends := ends_rangeBounds text
  rw [h] at ends
  exact ends.of_ok_eq

end WebSpec.Value
