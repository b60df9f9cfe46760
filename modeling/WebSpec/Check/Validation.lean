import WebSpec.Check.Rules

/-!
# Validating a report

All that there is to say about a report: the diagnostics of the analysis, and then the findings of
the rules. `validateStrictly` refuses a report with errors.
-/

namespace WebSpec.Check

open Analysis (Diagnostic Report)

/-- The findings of each rule that has any, under its name. -/
def findingsByRule (report : Report) (rules : List Rule) : List (String × List Diagnostic) :=
  (rules.map fun rule => (rule.name, rule.findings report)).filter fun (_, found) => !found.isEmpty

/-- The diagnostics of the analysis and the findings of all rules, the extra ones last. -/
def validate (report : Report) (extraRules : List Rule := []) : List Diagnostic :=
  report.diagnostics ++ (allRules ++ extraRules).flatMap fun rule => rule.findings report

/-- A refused report, with its errors. -/
structure ValidationError where
  errors : List Diagnostic

/-- What is said about a refused report. -/
def ValidationError.message (e : ValidationError) : String :=
  let named := (NameSet.ofList (e.errors.filterMap Diagnostic.subject?)).toSorted
  toString e.errors.length ++ " error(s) in IDL report" ++
    (if named.isEmpty then "" else " (names: " ++ ", ".intercalate named ++ ")") ++ ": " ++
    "; ".intercalate (e.errors.map Diagnostic.text)

/-- Like `validate`, but refuses a report with errors. -/
def validateStrictly (report : Report) (extraRules : List Rule := []) :
    Except ValidationError (List Diagnostic) :=
  let found := validate report extraRules
  match found.filter (·.severity = .error) with
  | [] => .ok found
  | errors => .error ⟨errors⟩

end WebSpec.Check
