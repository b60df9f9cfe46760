import WebSpec.Value.Multiplier

/-!
# Assembling a grammar

From components and marks to a tree, in four steps.

1. `closeFunctions` finds the arguments of each function, the last function first, so that what is
   between its parentheses holds no function any more.
2. `releaseParens` turns the parentheses that belong to no function into literals.
3. `closeGroups` resolves the groups in brackets, the last opening bracket first.
4. `combine` splits what is left at the combinators, the loosest first: `|`, then `||`, then `&&`.
   Components side by side bind tightest.

Multipliers after a closing bracket or parenthesis are applied when their group, function or literal
is complete.
-/

namespace WebSpec.Value

/-! ### Combinators -/

/-- Whether an item is the given combinator. -/
def Item.isCombinator (combinator : Combinator) (item : Item) : Bool :=
  match item.mark? .combinator with
  | some token => token.text = combinator.symbol
  | none => false

/-- The parts of a list between the items that satisfy `p`; there is always at least one part. -/
def splitAt {α : Type} (p : α → Bool) : List α → List (List α)
  | [] => [[]]
  | a :: rest =>
    if p a then [] :: splitAt p rest
    else
      match splitAt p rest with
      | part :: parts => (a :: part) :: parts
      | [] => [[a]]

/-- The components that stand side by side; a lone one stands for itself. -/
def juxtapose (items : List Item) : Except Fault Node :=
  let node? : Item → Except Fault Node
    | .node node => .ok node
    | .mark token => .error (.strayToken token)
  do
    match ← items.mapM node? with
    | [] => .error .noComponents
    | [node] => pure node
    | nodes => pure (.juxtaposed nodes)

/-- Splits the items at each of the given combinators in turn, the loosest first. -/
def combine : List Combinator → List Item → Except Fault Node
  | [], items => juxtapose items
  | combinator :: tighter, items =>
    let parts := splitAt (Item.isCombinator combinator) items
    if parts.length = 1 then combine tighter items
    else if parts.any List.isEmpty then .error (.missingOperand combinator)
    else do
      let operands ← parts.mapM (combine tighter)
      pure (.combined combinator operands false)

/-- The combinators, the loosest first. -/
def allCombinators : List Combinator :=
  [.oneOf, .anyOf, .allOf]

/-! ### Groups -/

/-- Splits a list at the first closing bracket. -/
def splitAtGroupEnd : List Item → Option (List Item × List Item)
  | [] => none
  | item :: rest =>
    if item.isMark .bracketClose then some ([], rest)
    else (splitAtGroupEnd rest).map fun (inside, after) => (item :: inside, after)

/-- Closes the group whose opening bracket stands before the given items. -/
def closeGroup (items : List Item) : Except Fault (List Item) :=
  match splitAtGroupEnd items with
  | none => .error .unterminatedGroup
  | some ([], _) => .error .emptyGroup
  | some (inside, after) => do
    let node ← combine allCombinators inside
    let node ← multiplyAll node true (leadingMultipliers after)
    pure (.node node :: afterMultipliers after)

/-- Closes all groups, the one that opens last first. -/
def closeGroups : List Item → Except Fault (List Item)
  | [] => .ok []
  | item :: rest => do
    let rest ← closeGroups rest
    if item.isMark .bracketOpen then closeGroup rest else pure (item :: rest)

/-! ### Parentheses -/

/-- Turns a parenthesis with its multipliers into a literal. -/
def Run.release (run : Run) : Except Fault (List Item) :=
  match run.item with
  | .mark token =>
    if token.kind = .parenOpen || token.kind = .parenClose then do
      let node ← multiplyAll (.required .string token.text) false run.multipliers
      pure [.node node]
    else .ok run.items
  | .node _ => .ok run.items

/-- Turns parentheses that belong to no function into literals. -/
def releaseParens (items : List Item) : Except Fault (List Item) :=
  let (multipliers, runs) := splitRuns items
  do
    let parts ← runs.mapM Run.release
    pure (multipliers.map .mark ++ parts.flatten)

/-! ### Functions -/

/-- Assembles items without functions. -/
def assembleFlat (items : List Item) : Except Fault Node := do
  let items ← releaseParens items
  let items ← closeGroups items
  if items.any (Item.isMark .bracketClose) then .error .unexpectedGroupEnd
  else combine allCombinators items

/-- Splits a list at the parenthesis that closes it, where `depth` inner ones are still open. -/
def splitAtParenEnd (depth : Nat) : List Item → Option (List Item × List Item)
  | [] => none
  | item :: rest =>
    if item.isMark .parenClose then
      match depth with
      | 0 => some ([], rest)
      | depth + 1 => (splitAtParenEnd depth rest).map fun (inside, after) => (item :: inside, after)
    else
      let depth := if item.isMark .parenOpen then depth + 1 else depth
      (splitAtParenEnd depth rest).map fun (inside, after) => (item :: inside, after)

/-- Closes the function whose name stands before the given items. -/
def closeFunction (name : String) (items : List Item) : Except Fault (List Item) :=
  match splitAtParenEnd 0 items with
  | none => .error (.unterminatedFunction name)
  | some (inside, after) => do
    let arguments ← if inside.isEmpty then pure (.juxtaposed []) else assembleFlat inside
    let node ← multiplyAll (.function name arguments false) false (leadingMultipliers after)
    pure (.node node :: afterMultipliers after)

/-- Closes all functions, the one that starts last first. -/
def closeFunctions : List Item → Except Fault (List Item)
  | [] => .ok []
  | item :: rest => do
    let rest ← closeFunctions rest
    match item.mark? .functionStart with
    | some token => closeFunction token.text rest
    | none => pure (item :: rest)

/-- Assembles items whose multipliers are attached. -/
def assemble (items : List Item) : Except Fault Node := do
  assembleFlat (← closeFunctions items)

end WebSpec.Value
