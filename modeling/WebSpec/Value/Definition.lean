import WebSpec.Value.Scan
import WebSpec.Value.Assembly

/-!
# Value definitions

From the text of a value definition to its grammar tree: `parse` reads the tokens, sorts them,
applies the multipliers of the leaves and assembles the tree. A refused definition comes with the
text that the message quotes, which is the definition without the blanks around it.
-/

namespace WebSpec.Value

/-- A refused definition. -/
structure DefinitionError where
  fault : Fault
  /-- The definition, as messages quote it. -/
  source : String
  deriving Repr

/-- What is said about a refused definition. -/
def DefinitionError.message (e : DefinitionError) : String :=
  e.fault.message e.source

/-- A sequence of one component that is neither repeated nor optional stands for the component. -/
def unwrap : Node → Node
  | .sequence [item] repetition isOptional =>
    if repetition.isStated || isOptional then .sequence [item] repetition isOptional else item
  | node => node

/-- The tree of a definition without blanks around it, with the given primitive types. -/
def parseStripped (primitives : List String) (source : String) : Except Fault Node := do
  let items ← (← tokens source).mapM (Token.classify primitives)
  let node ← assemble (← attachMultipliers items)
  pure (unwrap node)

/-- The grammar tree of a value definition. The extra primitive types are known besides the usual
ones. -/
def parse (text : String) (extraPrimitives : List String := []) : Except DefinitionError Node :=
  let source := Text.strip text
  if source = "" then .error ⟨.blankDefinition, text⟩
  else (parseStripped (primitives ++ extraPrimitives) source).mapError fun fault => ⟨fault, source⟩

end WebSpec.Value
