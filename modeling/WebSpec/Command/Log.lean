/-!
# The log

What the program tells about its work while it does it. A record has a level, the part of the
program that it comes from, and a message; those below the level that is asked for are left out.
-/

namespace WebSpec.Command

/-- How important a record is. -/
inductive Level where
  | debug
  | info
  | warning
  | error
  deriving DecidableEq, Repr

namespace Level

/-- How a level is written. -/
def text : Level → String
  | .debug => "DEBUG"
  | .info => "INFO"
  | .warning => "WARNING"
  | .error => "ERROR"

/-- The place of a level among all levels. -/
def rank : Level → Nat
  | .debug => 0
  | .info => 1
  | .warning => 2
  | .error => 3

/-- The level that is written as the given text, in any case. -/
def ofText? (text : String) : Option Level :=
  [debug, info, warning, error].find? fun level =>
    level.text.toList.map Char.toLower = text.toList.map Char.toLower

end Level

/-- A part of the program. -/
inductive Logger where
  | valueParser
  | idlParser
  | analyzer
  | ledger
  | exposure
  | validator
  deriving DecidableEq, Repr

/-- The published name of a part. -/
def Logger.text : Logger → String
  | .valueParser => "specfacts.css.parser"
  | .idlParser => "specfacts.webidl.parser"
  | .analyzer => "specfacts.webidl.analyzer"
  | .ledger => "specfacts.webidl.builder"
  | .exposure => "specfacts.webidl.exposure"
  | .validator => "specfacts.validation.validator"

/-- A record of the log. -/
structure Record where
  level : Level
  logger : Logger
  message : String
  deriving DecidableEq, Repr

/-- A record on a line of its own. -/
def Record.line (r : Record) : String :=
  r.level.text ++ " " ++ r.logger.text ++ ": " ++ r.message ++ "\n"

/-- The records of the given level and above, as text. -/
def logText (level : Level) (records : List Record) : String :=
  String.join ((records.filter fun r => level.rank ≤ r.level.rank).map Record.line)

end WebSpec.Command
