import WebSpec.Text.DecimalDigit
import WebSpec.Value.Item

/-!
# Multipliers

What follows a component and says how often it may occur: `*`, `+`, `?`, `#` (a list with commas),
`!` (at least one part of a group) and ranges such as `{2}`, `{2,}` and `{1,4}`.

`multiply` applies one multiplier and `multiplyAll` a chain of them, from the inside out. Whether
the component is a group in brackets matters for the first multiplier of the chain only: `?` and `!`
count occurrences of a group, while elsewhere `?` marks the component itself as optional and `!` is
refused. A range right after `#` gives the bounds of that list. Bounds are numbers of at most
`Text.maxDigits` digits.

`splitRuns` cuts a list of items into runs, an item with the multipliers that follow it, and
`attachMultipliers` applies the multipliers of those items that are components already.
-/

namespace WebSpec.Value

/-- Reads a run of decimal digits: the digits and what follows. -/
def readDigits (cs : List Char) : Option (List Char × List Char) :=
  let digits := cs.takeWhile Text.isDecimalDigit
  if digits.isEmpty then none else some (digits, cs.dropWhile Text.isDecimalDigit)

/-- The upper bound of a range. -/
inductive RangeEnd where
  /-- The range is a single number. -/
  | same
  /-- There is no upper bound. -/
  | unbounded
  | upTo (digits : List Char)
  deriving DecidableEq, Repr

/-- What may follow a range: nothing, or a single line feed. -/
def endsRange (cs : List Char) : Bool :=
  cs = [] || cs = ['\n']

/-- Reads the part of a range after its lower bound. -/
def readRangeEnd (cs : List Char) : Option RangeEnd :=
  let close (bound : RangeEnd) (rest : List Char) : Option RangeEnd :=
    match rest.dropWhile Text.isBlank with
    | '\x7d' :: rest => if endsRange rest then some bound else none
    | _ => none
  match cs.dropWhile Text.isBlank with
  | ',' :: rest =>
    let rest := rest.dropWhile Text.isBlank
    match readDigits rest with
    | some (digits, rest) => close (.upTo digits) rest
    | none =>
      match rest with
      | '∞' :: rest => close .unbounded rest
      | _ => close .unbounded rest
  | rest => close .same rest

/-- Reads a range: the digits of its lower bound, and its end. -/
def readRange (cs : List Char) : Option (List Char × RangeEnd) :=
  match cs with
  | '\x7b' :: rest => do
    let (digits, rest) ← readDigits (rest.dropWhile Text.isBlank)
    let bound ← readRangeEnd rest
    pure (digits, bound)
  | _ => none

/-- The bound that some digits write, unless there are too many of them. -/
def readBound (digits : List Char) : Except Fault Nat :=
  if digits.length ≤ Text.maxDigits then .ok (Text.decimalValue digits)
  else .error (.longBound digits.length)

/-- The bounds that a range stands for. The lower one is read first. -/
def rangeBounds (text : String) : Except Fault (Int × Option Int) :=
  match readRange text.toList with
  | none => .error (.malformedRange text)
  | some (lowDigits, bound) => do
    let low ← readBound lowDigits
    match bound with
    | .same => .ok (low, some low)
    | .unbounded => .ok (low, none)
    | .upTo highDigits =>
      let high ← readBound highDigits
      if high < low then .error (.descendingRange text) else .ok (low, some high)

/-- Applies one multiplier. -/
def multiply (multiplier : Token) (node : Node) (isGroup : Bool) : Except Fault Node :=
  if multiplier.kind = .multiplierRange then do
    let (low, high) ← rangeBounds multiplier.text
    pure (.repeated node { least := some low, greatest := high })
  else if multiplier.text = "*" then .ok (.repeated node { least := some 0 })
  else if multiplier.text = "+" then .ok (.repeated node { least := some 1 })
  else if multiplier.text = "#" then .ok (.repeated node { separator := some "," })
  else if multiplier.text = "?" then
    .ok (if isGroup then .repeated node { greatest := some 1 } else node.makeOptional)
  else if multiplier.text = "!" then
    if isGroup then .ok (.repeated node { least := some 1 }) else .error (.requiredNonGroup node)
  else .error (.unknownMultiplier multiplier.text)

/-- Applies a multiplier that follows the multiplier `previous`: a range after `#` bounds the list
that the `#` made. -/
def multiplyNext (previous multiplier : Token) (node : Node) : Except Fault Node :=
  match node with
  | .sequence items repetition isOptional =>
    if previous.text = "#" && multiplier.kind = .multiplierRange then do
      let (low, high) ← rangeBounds multiplier.text
      pure (.sequence items { repetition with least := some low, greatest := high } isOptional)
    else multiply multiplier node false
  | _ => multiply multiplier node false

/-- Applies the multipliers that follow the multiplier `previous`. -/
def multiplyRest (previous : Token) (node : Node) : List Token → Except Fault Node
  | [] => .ok node
  | multiplier :: rest => do
    let node ← multiplyNext previous multiplier node
    multiplyRest multiplier node rest

/-- Applies a chain of multipliers, the first one first. -/
def multiplyAll (node : Node) (isGroup : Bool) : List Token → Except Fault Node
  | [] => .ok node
  | multiplier :: rest => do
    let node ← multiply multiplier node isGroup
    multiplyRest multiplier node rest

/-- Whether an item is a multiplier. -/
def Item.isMultiplier : Item → Bool
  | .mark token => token.isMultiplier
  | .node _ => false

/-- The multipliers at the start of a list of items. -/
def leadingMultipliers : List Item → List Token
  | .mark token :: rest => if token.isMultiplier then token :: leadingMultipliers rest else []
  | _ => []

/-- The items after the multipliers at their start. -/
def afterMultipliers (items : List Item) : List Item :=
  items.dropWhile Item.isMultiplier

/-- An item together with the multipliers that follow it. -/
structure Run where
  item : Item
  multipliers : List Token
  deriving Repr

/-- The runs of a list of items, with the multipliers that stand before all of them. -/
def splitRuns : List Item → List Token × List Run
  | [] => ([], [])
  | item :: rest =>
    let (multipliers, runs) := splitRuns rest
    match item with
    | .mark token =>
      if token.isMultiplier then (token :: multipliers, runs)
      else ([], ⟨item, multipliers⟩ :: runs)
    | .node _ => ([], ⟨item, multipliers⟩ :: runs)

/-- The items of a run. -/
def Run.items (run : Run) : List Item :=
  run.item :: run.multipliers.map .mark

/-- Applies the multipliers of a component. Those of a closing bracket or parenthesis wait until it
is known what is being closed; other marks cannot be multiplied. -/
def Run.attach (run : Run) : Except Fault (List Item) :=
  match run.item, run.multipliers with
  | item, [] => .ok [item]
  | .node node, multipliers => do
    let node ← multiplyAll node false multipliers
    pure [.node node]
  | .mark token, multiplier :: _ =>
    if token.kind = .bracketClose || token.kind = .parenClose then .ok run.items
    else .error (.misplacedMultiplier multiplier token)

/-- Applies the multipliers that follow a component to it. -/
def attachMultipliers (items : List Item) : Except Fault (List Item) :=
  match splitRuns items with
  | (multiplier :: _, _) => .error (.danglingMultiplier multiplier)
  | ([], runs) => do
    let parts ← runs.mapM Run.attach
    pure parts.flatten

end WebSpec.Value
