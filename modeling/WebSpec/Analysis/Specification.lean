import WebSpec.Idl.Definitions
import WebSpec.Idl.Legacy
import WebSpec.Analysis.Definition

/-!
# Analyzing a specification

From the definitions of a specification, or from their text, to a report. `analyzeDefinitions`
enters the findings of the definitions in order; `analyze` first modernizes legacy constructs and
parses.
-/

namespace WebSpec.Analysis

/-- What an analysis may be told. -/
structure Settings where
  /-- The context of what does not list any, where no definition declares one. -/
  defaultGlobal : String := "Window"
  /-- Whether legacy constructs are modernized. -/
  normalizes : Bool := true
  /-- Types that are no dependencies, besides the usual ones. -/
  extraWellKnownTypes : List String := []
  /-- What rewrites the text after that, in order. -/
  transforms : List (String → String) := []

/-- The types that are no dependencies. -/
def Settings.wellKnown (s : Settings) : List String :=
  wellKnownTypes ++ s.extraWellKnownTypes

/-- Why there is no report. -/
inductive AnalysisError where
  | invalidText (e : Idl.SyntaxError)
  /-- An attribute that has to name a global or a constructor has a list of names that is empty. -/
  | missingName
  deriving DecidableEq, Repr

/-- What is said about an analysis without a report. -/
def AnalysisError.message : AnalysisError → String
  | .invalidText e => e.message
  | .missingName => "tuple index out of range"

/-- Enters the findings of definitions, in order. -/
def Ledger.recordDefinitions (wellKnown : List String) (l : Ledger) :
    List Idl.Node → Except AnalysisError Ledger
  | [] => .ok l
  | node :: rest =>
    match l.recordDefinition wellKnown node with
    | (l, true) => l.recordDefinitions wellKnown rest
    | (_, false) => .error .missingName

/-- The ledger of definitions. -/
def ledgerOf (settings : Settings) (definitions : List Idl.Node) : Except AnalysisError Ledger :=
  ({} : Ledger).recordDefinitions settings.wellKnown definitions

/-- The report on definitions. -/
def analyzeDefinitions (settings : Settings) (definitions : List Idl.Node)
    (hasObsoleteIdl : Bool := false) : Except AnalysisError Report := do
  let l ← ledgerOf settings definitions
  pure (l.report settings.defaultGlobal hasObsoleteIdl)

/-- The text that is parsed. -/
def Settings.sourceOf (settings : Settings) (text : String) : String :=
  if settings.normalizes then Idl.Legacy.normalize text settings.transforms else text

/-- The definitions of a text. -/
def definitionsOfText (settings : Settings) (text : String) :
    Except AnalysisError (List Idl.Node) :=
  (Idl.parse (settings.sourceOf text)).mapError .invalidText

/-- The report on a text. -/
def analyze (settings : Settings) (text : String) : Except AnalysisError Report := do
  let definitions ← definitionsOfText settings text
  analyzeDefinitions settings definitions (Idl.Legacy.isObsolete text)

end WebSpec.Analysis
