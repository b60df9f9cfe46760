import WebSpec.Command.Run

/-!
# The command line

Reads the file that the arguments name, if any, and prints what `Command.Request.run` gives.
-/

open WebSpec.Command

/-- The content of a file, if it can be read. -/
def readContent (path : String) : IO (Option String) := do
  try
    let content ← IO.FS.readFile path
    pure (some content)
  catch _ => pure none

/-- Prints an outcome and gives the code to end with. -/
def printOutcome (outcome : Outcome) : IO UInt32 := do
  IO.print outcome.output
  IO.eprint outcome.errors
  pure outcome.exitCode.toUInt32

/-- Runs the program. -/
def main (arguments : List String) : IO UInt32 := do
  match readRequest arguments with
  | .error e => printOutcome (refused e)
  | .ok request =>
    let content? ← match request.task.path? with
      | some path => readContent path
      | none => pure none
    printOutcome (request.run content?)
