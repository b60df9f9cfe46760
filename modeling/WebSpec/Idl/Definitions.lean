import WebSpec.Idl.Parse
import WebSpec.Idl.Piece

/-!
# Reading interface definitions

From a text to the definitions in it: `parse` refuses a text that is not in the grammar, and
otherwise gives what its parse tree stands for.
-/

namespace WebSpec.Idl

/-- The definitions in a text, in order. -/
def parse (text : String) : Except SyntaxError (List Node) := do
  let tree ← parseTree text
  pure ((definitionsOf tree).getD [])

end WebSpec.Idl
