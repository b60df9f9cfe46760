import WebSpec.Analysis.Exposure

/-!
# The ledger of an analysis

What an analysis has found so far, and how each single finding changes it. A definition is analyzed
into a list of `Entry`s, and `Ledger.record` enters one of them; nothing else changes a ledger.

A name is taken by the definition that comes first. An alias, which is a name that an extended
attribute introduces, gives way to a definition of the same name and is no duplicate of anything.
Every name that is taken has dependencies, if only an empty set, and every name that anything
depends on has been noted as referred to; what is referred to and not taken in the end is external.
-/

namespace WebSpec.Analysis

/-- What is worth telling while an analysis goes on. -/
inductive Remark where
  | diagnostic (d : Diagnostic)
  /-- An attribute that should name a constructor of `owner` does not. -/
  | namelessConstructor (attr owner : String)
  deriving DecidableEq, Repr

/-- A single finding. -/
inductive Entry where
  /-- A name stands for something, as its definition or as an alias. -/
  | register (name : String) (target : NameTarget) (isAlias : Bool)
  /-- A node adds to a name. -/
  | extend (name : String) (node : Idl.Node)
  /-- A name is referred to. -/
  | reference (name : String)
  /-- A name refers to another one. -/
  | depend (owner name : String)
  /-- A name is used that may be the one of the window. -/
  | use (name : String)
  /-- An interface declares a global context. -/
  | declareGlobal (context interface : String)
  /-- An interface lists a context that it is visible in. -/
  | listExposed (context interface : String)
  /-- A name is visible in some contexts. -/
  | expose (bucket : Bucket) (contexts : List Context) (name : String)
  /-- An interface declares the primary global. -/
  | declarePrimary (primary interface : String)
  | remark (r : Remark)
  /-- An attribute names nothing where it has to name something; what follows is lost. -/
  | abandon

/-- What has been found so far. -/
structure Ledger where
  names : Table String NameTarget := ∅
  /-- The names that are taken by an alias. -/
  aliases : NameSet := ∅
  extendedNames : Table String (List Idl.Node) := ∅
  dependencies : Table String NameSet := ∅
  /-- The names that are referred to, in the order of their first use. -/
  referenced : NameSet := ∅
  globals : Table String (List String) := ∅
  exposed : Table String (List String) := ∅
  exposure : Exposure := {}
  reallyDependsOnWindow : Bool := false
  remarks : List Remark := []

/-- The spellings of the window's name. -/
def windowNames : List String := ["window", "Window"]

/-- The diagnostic for a second definition of a name. -/
def duplicateName (name : String) : Diagnostic :=
  { rule := "duplicate-name"
    severity := .warning
    message := "'" ++ name ++ "' is defined more than once; the later definition is ignored"
    name := some name }

/-- The diagnostic for a second, different primary global. -/
def duplicatePrimaryGlobal (first primary interface : String) : Diagnostic :=
  { rule := "duplicate-primary-global"
    severity := .warning
    message := "'" ++ interface ++ "' declares primary global '" ++ primary ++ "' but '" ++ first ++
      "' was declared first"
    name := some interface }

namespace Ledger

/-- Adds a remark. -/
def remark (l : Ledger) (r : Remark) : Ledger :=
  { l with remarks := l.remarks ++ [r] }

/-- Adds a diagnostic. -/
def diagnose (l : Ledger) (d : Diagnostic) : Ledger :=
  l.remark (.diagnostic d)

/-- Whether a name may be registered: it is not taken, or taken by an alias and not for another. -/
def isFree (l : Ledger) (name : String) (isAlias : Bool) : Bool :=
  !l.names.contains name || (decide (name ∈ l.aliases) && !isAlias)

/-- Registers a name, and says whether it was free. -/
def register (l : Ledger) (name : String) (target : NameTarget) (isAlias : Bool) : Ledger × Bool :=
  if l.isFree name isAlias then
    ({ l with
        names := l.names.insert name target
        dependencies := l.dependencies.alter name (·.getD ∅)
        aliases := if isAlias then l.aliases.insert name else l.aliases.erase name }, true)
  else if isAlias then (l, false)
  else (l.diagnose (duplicateName name), false)

/-- Notes that a name is referred to. -/
def reference (l : Ledger) (name : String) : Ledger :=
  { l with referenced := l.referenced.insert name }

/-- Notes that a name refers to another one. -/
def depend (l : Ledger) (owner name : String) : Ledger :=
  { l with dependencies := l.dependencies.alter owner fun s => (s.getD ∅).insert name }.reference
    name

/-- Declares the primary global, unless another one was declared before. -/
def declarePrimary (l : Ledger) (primary interface : String) : Ledger :=
  match l.exposure.primaryGlobal with
  | none => { l with exposure := { l.exposure with primaryGlobal := some primary } }
  | some first =>
    if first = primary then l else l.diagnose (duplicatePrimaryGlobal first primary interface)

/-- Enters a single finding. -/
def record (l : Ledger) : Entry → Ledger
  | .register name target isAlias => (l.register name target isAlias).1
  | .extend name node =>
    { l with extendedNames := l.extendedNames.alter name fun nodes => nodes.getD [] ++ [node] }
  | .reference name => l.reference name
  | .depend owner name => l.depend owner name
  | .use name =>
    if windowNames.contains name then { l with reallyDependsOnWindow := true } else l
  | .declareGlobal context interface =>
    { l with globals := pushEntry l.globals context interface }
  | .listExposed context interface =>
    { l with exposed := pushEntry l.exposed context interface }
  | .expose bucket contexts name => { l with exposure := l.exposure.add bucket contexts name }
  | .declarePrimary primary interface => l.declarePrimary primary interface
  | .remark r => l.remark r
  | .abandon => l

/-- Enters findings, up to one that abandons the others; says whether all were entered. -/
def recordAll (l : Ledger) : List Entry → Ledger × Bool
  | [] => (l, true)
  | .abandon :: _ => (l, false)
  | entry :: rest => (l.record entry).recordAll rest

/-- The diagnostics among the remarks. -/
def diagnostics (l : Ledger) : List Diagnostic :=
  l.remarks.filterMap fun
    | .diagnostic d => some d
    | .namelessConstructor .. => none

/-- The names that are referred to and not taken. -/
def externalDependencies (l : Ledger) : List String :=
  l.referenced.names.filter fun name => !l.names.contains name

/-- The report on what has been found. -/
def report (l : Ledger) (defaultGlobal : String) (hasObsoleteIdl : Bool := false) : Report :=
  { dependencies := l.dependencies
    names := l.names
    extendedNames := l.extendedNames
    externalDependencies := l.externalDependencies
    exposure := l.exposure.freeze defaultGlobal
    reallyDependsOnWindow := l.reallyDependsOnWindow
    globals := l.globals
    exposed := l.exposed
    primaryGlobal := l.exposure.primary defaultGlobal
    hasObsoleteIdl := hasObsoleteIdl
    diagnostics := l.diagnostics }

end Ledger

end WebSpec.Analysis
