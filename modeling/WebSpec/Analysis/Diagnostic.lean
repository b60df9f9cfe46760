import WebSpec.Json

/-!
# Diagnostics

What an analysis or a check has to say about a specification: a rule that applies, how serious it
is, a message, and where there is one the name concerned and a suggested fix.
-/

namespace WebSpec.Analysis

/-- How serious a diagnostic is. -/
inductive Severity where
  | error
  | warning
  | info
  deriving DecidableEq, Repr

/-- How a severity is written. -/
def Severity.text : Severity → String
  | .error => "ERROR"
  | .warning => "WARNING"
  | .info => "INFO"

/-- A diagnostic. -/
structure Diagnostic where
  rule : String
  severity : Severity
  message : String
  name : Option String := none
  fix : Option String := none
  deriving DecidableEq, Repr

namespace Diagnostic

/-- The name concerned, unless it is empty. -/
def subject? (d : Diagnostic) : Option String :=
  d.name.filter (· ≠ "")

/-- A diagnostic on one line. -/
def text (d : Diagnostic) : String :=
  d.severity.text ++ (d.subject?.elim "" fun name => " [name=" ++ name ++ "]") ++ ": " ++ d.message

/-- The published form of a diagnostic. -/
def toJson (d : Diagnostic) : Json :=
  .obj ([("rule", .str d.rule), ("severity", .str d.severity.text), ("message", .str d.message)] ++
    Json.textField "name" (d.name.getD "") ++ Json.textField "fix" (d.fix.getD ""))

end Diagnostic

end WebSpec.Analysis
