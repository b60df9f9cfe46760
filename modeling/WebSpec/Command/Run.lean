import WebSpec.Text.ControlSequence
import WebSpec.Text.Newline
import WebSpec.Value.Definition
import WebSpec.Analysis.Specification
import WebSpec.Check.Validation
import WebSpec.Command.Arguments

/-!
# Running a command

What the program prints and how it ends. The output goes to one stream, and the log and errors to
another. What is printed for people holds no control sequences of a terminal. The program ends with
code 0, with code 1 if its input is refused or has errors, and with code 2 if its arguments are
refused or the file cannot be read. An error that nothing catches ends it with code 1 too.
-/

namespace WebSpec.Command

open Analysis (Diagnostic Report Severity)

/-- How a run of the program ends. -/
structure Outcome where
  exitCode : Nat
  output : String := ""
  errors : String := ""
  /-- The class of the error that ends the program, if it is one that nothing catches. The trace that
  is printed then is left out. -/
  uncaught : Option String := none
  deriving DecidableEq, Repr

/-- The version of the program, as it is printed. -/
def versionLine : String :=
  "specfacts, version 0.1.0\n"

/-- A run whose arguments are refused. -/
def refused (e : UsageError) : Outcome :=
  { exitCode := 2, errors := "Error: " ++ e.message ++ "\n" }

/-- A value as a line of output. -/
def printed (isCompact : Bool) (value : Json) : String :=
  value.render (if isCompact then .compact else .indented) ++ "\n"

/-! ### Value definitions -/

/-- The definition that was parsed, in the log. -/
def parsedRecord (text : String) (tree : Value.Node) : Record :=
  { level := .debug
    logger := .valueParser
    message := "Parsed grammar " ++ Text.quote (Text.strip text) ++ " into " ++ tree.className }

/-- Parses a value definition and prints its tree. -/
def runParseValue (level : Level) (text : String) (isCompact : Bool) : Outcome :=
  match Value.parse text with
  | .ok tree =>
    { exitCode := 0
      output := printed isCompact tree.toJson
      errors := logText level [parsedRecord text tree] }
  | .error e =>
    if e.fault.isReported then
      { exitCode := 1
        errors := Text.withoutControlSequences ("Grammar error: " ++ e.message ++ "\n") }
    else { exitCode := 1, uncaught := some e.fault.className }

/-! ### Interface definitions -/

/-- A remark of the analysis, in the log. -/
def remarkRecord : Analysis.Remark → Record
  | .diagnostic d => { level := .warning, logger := .ledger, message := d.text }
  | .namelessConstructor attr owner =>
    { level := .debug
      logger := .exposure
      message := "[" ++ attr ++ "] without a name on " ++ owner }

/-- What the log says before a text is parsed. -/
def obsoleteRecords (text : String) : List Record :=
  if Idl.Legacy.isObsolete text then
    [{ level := .info
       logger := .analyzer
       message := "IDL uses obsolete constructs, rewriting before parsing" }]
  else []

/-- What the log says about an analysis. -/
def analysisRecords (definitions : List Idl.Node) (ledger : Analysis.Ledger) (report : Report) :
    List Record :=
  let count := toString definitions.length
  [{ level := .debug
     logger := .idlParser
     message := "Parsed " ++ count ++ " WebIDL definitions" }] ++
  ledger.remarks.map remarkRecord ++
  [{ level := .debug
     logger := .analyzer
     message := "Analyzed " ++ count ++ " definitions: " ++ toString report.names.size ++
       " names, " ++ toString report.externalDependencies.length ++ " external dependencies" }]

/-- The report on a text with the log of its analysis, or how the run ends without one. -/
def analyzeLogged (level : Level) (text : String) : Except Outcome (Report × List Record) :=
  let settings : Analysis.Settings := {}
  let before := obsoleteRecords text
  let result : Except Analysis.AnalysisError (Report × List Record) := do
    let definitions ← Analysis.definitionsOfText settings text
    let ledger ← Analysis.ledgerOf settings definitions
    let report := ledger.report settings.defaultGlobal (Idl.Legacy.isObsolete text)
    pure (report, before ++ analysisRecords definitions ledger report)
  result.mapError fun e =>
    { exitCode := 1
      errors := logText level before ++
        Text.withoutControlSequences ("Parse error: " ++ e.message) }

/-- Analyzes a text and prints the report. -/
def runAnalyze (level : Level) (text : String) (isCompact : Bool) : Outcome :=
  match analyzeLogged level text with
  | .ok (report, records) =>
    { exitCode := 0
      output := printed isCompact (report.toJson .obj)
      errors := logText level records }
  | .error outcome => outcome

/-- The number of diagnostics of a severity. -/
def countOf (severity : Severity) (diagnostics : List Diagnostic) : Nat :=
  diagnostics.countP (·.severity = severity)

/-- What the log says about the rules that found something. -/
def findingRecords (report : Report) : List Record :=
  (Check.findingsByRule report Check.allRules).map fun (name, found) =>
    { level := .debug
      logger := .validator
      message := name ++ ": " ++ toString found.length ++ " finding(s)" }

/-- Contexts in a line of text, which is not left empty. -/
def contextsText (contexts : NameSet) : String :=
  match ", ".intercalate contexts.toSorted with
  | "" => "none"
  | text => text

/-- What a report says about a file, on one line. -/
def summaryLine (fileName : String) (report : Report) : String :=
  fileName ++ ": " ++ toString report.names.size ++ " name(s), " ++
    toString report.externalDependencies.length ++ " external, exposed in " ++
    contextsText report.exposure.contexts ++ "\n"

/-- How many diagnostics there are, on one line. -/
def countLine (diagnostics : List Diagnostic) : String :=
  "Summary: " ++ toString (countOf .error diagnostics) ++ " error(s), " ++
    toString (countOf .warning diagnostics) ++ " warning(s), " ++
    toString (countOf .info diagnostics) ++ " info\n"

/-- Analyzes a text and prints what there is to say about it. -/
def runValidate (level : Level) (fileName text : String) : Outcome :=
  match analyzeLogged level text with
  | .ok (report, records) =>
    let diagnostics := Check.validate report
    { exitCode := if countOf .error diagnostics = 0 then 0 else 1
      output := Text.withoutControlSequences (summaryLine fileName report ++
        String.join (diagnostics.map fun d => d.text ++ "\n") ++ countLine diagnostics)
      errors := logText level (records ++ findingRecords report) }
  | .error outcome => outcome

/-! ### The program -/

/-- The last part of a path. -/
def fileNameOf (path : String) : String :=
  ((path.splitOn "/").filter fun part => part ≠ "" && part ≠ ".").getLastD ""

/-- The file that a task reads. -/
def Task.path? : Task → Option String
  | .analyze path _ => some path
  | .validate path => some path
  | .version | .parseValue .. => none

/-- Does what is asked for, with the content of the file that the task reads if that can be read. -/
def Request.run (r : Request) (content? : Option String) : Outcome :=
  let unified := content?.map fun content => String.ofList (Text.unifyNewlines content.toList)
  match r.task, unified with
  | .version, _ => { exitCode := 0, output := versionLine }
  | .parseValue text isCompact, _ => runParseValue r.level text isCompact
  | .analyze _ isCompact, some text => runAnalyze r.level text isCompact
  | .validate path, some text => runValidate r.level (fileNameOf path) text
  | .analyze path _, none => refused (.unreadableFile path)
  | .validate path, none => refused (.unreadableFile path)

/-- Runs the program with some arguments, where files are read by the given function. -/
def run (read : String → Option String) (arguments : List String) : Outcome :=
  match readRequest arguments with
  | .ok request => request.run (request.task.path?.bind read)
  | .error e => refused e

end WebSpec.Command
