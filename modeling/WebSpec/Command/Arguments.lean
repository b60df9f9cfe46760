import WebSpec.Command.Log

/-!
# Command line arguments

What the program is asked to do. Options of the program come first, then the name of a command, then
the arguments and options of the command in any order. After `--` there are no options any more, and
a lone `-` is never one. An option's value may follow it or be joined to it by an equals sign; of
several values the last one counts.

Asking for the version comes before everything else, if only the options of the program can be told
apart. It may even stand behind a `--` before the command: options of the program in place of a
command are read after all, but only to see whether they ask for it.
-/

namespace WebSpec.Command

/-- A command with its arguments. -/
inductive Task where
  /-- Prints the version of the program. -/
  | version
  /-- Parses a value definition and prints its tree. -/
  | parseValue (text : String) (isCompact : Bool)
  /-- Analyzes a file and prints the report. -/
  | analyze (path : String) (isCompact : Bool)
  /-- Analyzes a file and prints what there is to say about it. -/
  | validate (path : String)
  deriving DecidableEq, Repr

/-- What the program is asked to do. -/
structure Request where
  level : Level
  task : Task
  deriving DecidableEq, Repr

/-- Why the arguments are refused. -/
inductive UsageError where
  | unknownOption (option : String)
  | missingValue (option : String)
  | unexpectedValue (option : String)
  | unknownLevel (value : String)
  | missingCommand
  | unknownCommand (name : String)
  | missingArgument
  | extraArgument (value : String)
  | unreadableFile (path : String)
  deriving DecidableEq, Repr

/-- What is said about refused arguments. -/
def UsageError.message : UsageError → String
  | .unknownOption option => "No such option: " ++ option
  | .missingValue option => "Option " ++ option ++ " requires an argument."
  | .unexpectedValue option => "Option " ++ option ++ " does not take a value."
  | .unknownLevel value => "Invalid log level: " ++ value
  | .missingCommand => "Missing command."
  | .unknownCommand name => "No such command: " ++ name
  | .missingArgument => "Missing argument."
  | .extraArgument value => "Got unexpected extra argument: " ++ value
  | .unreadableFile path => "Cannot read file: " ++ path

/-- Whether an argument is an option. -/
def isOption (argument : String) : Bool :=
  match argument.toList with
  | '-' :: _ :: _ => true
  | _ => false

/-- An option and the value that is joined to it. -/
def splitOption (argument : String) : String × Option String :=
  let name := argument.toList.takeWhile (· ≠ '=')
  match argument.toList.drop name.length with
  | _ :: value => (String.ofList name, some (String.ofList value))
  | [] => (argument, none)

/-- The options of the program. -/
structure ProgramOptions where
  wantsVersion : Bool := false
  levelText : String := "WARNING"

/-- Reads the options of the program. -/
def readProgramOptions (options : ProgramOptions) :
    List String → Except UsageError (ProgramOptions × List String)
  | [] => .ok (options, [])
  | argument :: rest =>
    if argument = "--" then .ok (options, rest)
    else if !isOption argument then .ok (options, argument :: rest)
    else
      match splitOption argument with
      | ("--version", none) => readProgramOptions { options with wantsVersion := true } rest
      | ("--log-level", some value) => readProgramOptions { options with levelText := value } rest
      | ("--log-level", none) =>
        match rest with
        | value :: rest => readProgramOptions { options with levelText := value } rest
        | [] => .error (.missingValue argument)
      | (name, value) =>
        if name = "--version" && value.isSome then .error (.unexpectedValue name)
        else .error (.unknownOption name)

/-- The arguments of a command, and whether its output is to be compact. -/
structure CommandArguments where
  values : List String := []
  isCompact : Bool := false

/-- Reads the arguments of a command; not every command can be compact. -/
def readCommandArguments (canBeCompact : Bool) (arguments : CommandArguments) :
    List String → Except UsageError CommandArguments
  | [] => .ok arguments
  | argument :: rest =>
    if argument = "--" then .ok { arguments with values := arguments.values ++ rest }
    else if !isOption argument then
      readCommandArguments canBeCompact { arguments with values := arguments.values ++ [argument] }
        rest
    else
      match splitOption argument with
      | (name, value) =>
        if !canBeCompact || name ≠ "--compact" then .error (.unknownOption name)
        else if value.isSome then .error (.unexpectedValue name)
        else readCommandArguments canBeCompact { arguments with isCompact := true } rest

/-- The only argument of a command. -/
def CommandArguments.single (arguments : CommandArguments) : Except UsageError String :=
  match arguments.values with
  | [] => .error .missingArgument
  | [value] => .ok value
  | _ :: extra :: _ => .error (.extraArgument extra)

/-- Reads a command and its arguments. -/
def readTask : List String → Except UsageError Task
  | [] => .error .missingCommand
  | "css" :: rest => do
    let arguments ← readCommandArguments true {} rest
    pure (.parseValue (← arguments.single) arguments.isCompact)
  | "idl" :: rest => do
    let arguments ← readCommandArguments true {} rest
    pure (.analyze (← arguments.single) arguments.isCompact)
  | "validate" :: rest => do
    let arguments ← readCommandArguments false {} rest
    pure (.validate (← arguments.single))
  | name :: _ => .error (.unknownCommand name)

/-- Whether arguments read as options of the program that ask for its version. -/
def asksForVersion (arguments : List String) : Bool :=
  match readProgramOptions {} arguments with
  | .ok (options, _) => options.wantsVersion
  | .error _ => false

/-- Reads the arguments of the program. -/
def readRequest (arguments : List String) : Except UsageError Request := do
  let (options, rest) ← readProgramOptions {} arguments
  if options.wantsVersion then pure ⟨.warning, .version⟩
  else
    match Level.ofText? options.levelText with
    | none => throw (.unknownLevel options.levelText)
    | some level =>
      if asksForVersion rest then pure ⟨.warning, .version⟩
      else pure ⟨level, ← readTask rest⟩

end WebSpec.Command
