import WebSpec.Analysis.Report

/-!
# Checks of a report

What can be said about a finished report. A rule looks at a report and gives diagnostics. The first
two find inconsistencies and are errors; the third finds what should be written differently; the
others inform.
-/

namespace WebSpec.Check

open Analysis (Diagnostic Report)

/-- A named check of reports. -/
structure Rule where
  name : String
  findings : Report → List Diagnostic

/-- No external dependency is defined. -/
def externalOverlap : Rule where
  name := "check_external_overlap"
  findings r :=
    (r.externalDependencies.filter r.names.contains).map fun name =>
      { rule := "check_external_overlap"
        severity := .error
        message := "'" ++ name ++ "' is both defined locally and listed as an external dependency."
        name := some name }

/-- Every name that is defined has dependencies, if only an empty set. -/
def dependencyEntries : Rule where
  name := "check_dependency_entries"
  findings r :=
    (r.names.keys.filter fun name => !r.dependencies.contains name).map fun name =>
      { rule := "check_dependency_entries"
        severity := .error
        message := "'" ++ name ++ "' is defined but has no dependencies entry."
        name := some name }

/-- There are no legacy constructs. -/
def obsoleteConstructs : Rule where
  name := "check_obsolete_syntax"
  findings r :=
    if r.hasObsoleteIdl then
      [{ rule := "check_obsolete_syntax"
         severity := .warning
         message := "IDL uses constructs removed in WebIDL 2 (T[] attributes or serializers)."
         fix := some "Use FrozenArray<T> and a [Default] object toJSON() operation." }]
    else []

/-- Every context that is listed is declared, the primary global or the wildcard. -/
def exposedOnUnknownGlobal : Rule where
  name := "check_exposed_on_unknown_global"
  findings r :=
    let isKnown (context : String) : Bool :=
      r.globals.contains context || context = r.primaryGlobal || context = "*"
    (r.exposed.entries.filter fun (context, _) => !isKnown context).map fun (context, names) =>
      { rule := "check_exposed_on_unknown_global"
        severity := .info
        message := "Context '" ++ context ++ "' (used by " ++ ", ".intercalate names ++
          ") is not declared by a [Global] in this IDL."
        name := some context }

/-- The window is not used. -/
def windowDependency : Rule where
  name := "check_window_dependency"
  findings r :=
    if r.reallyDependsOnWindow then
      [{ rule := "check_window_dependency"
         severity := .info
         message := "IDL references Window as a type, parent or included interface."
         name := some "Window" }]
    else []

/-- All rules, in the order in which they apply. -/
def allRules : List Rule :=
  [externalOverlap, dependencyEntries, obsoleteConstructs, exposedOnUnknownGlobal, windowDependency]

end WebSpec.Check
