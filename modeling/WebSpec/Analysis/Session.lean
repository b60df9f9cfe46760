import WebSpec.Analysis.Definition

/-!
# Working with a ledger by hand

The operations on a ledger that a caller may use one by one: single entries, and the findings of a
type, of arguments, of members or of extended attributes. `Ledger.perform` does one of them.
-/

namespace WebSpec.Analysis

/-- An operation on a ledger. -/
inductive Step where
  | register (name : String) (target : NameTarget) (isAlias : Bool)
  | enter (entry : Entry)
  /-- Declares the primary global, or takes its declaration back. -/
  | setPrimary (name : Option String)
  | useType (type : Option Idl.TypeExpr) (owner : String)
  | useArguments (arguments : List Idl.Argument) (owner : String)
  | useMembers (node : Idl.Node) (owner : String)
  | useAttributes (node : Idl.Node)

/-- What an operation leaves. -/
structure StepResult where
  ledger : Ledger
  /-- Whether a registered name was free. -/
  isNew : Option Bool := none
  /-- Whether everything was entered. -/
  isComplete : Bool := true

/-- Enters findings. -/
def Ledger.enterAll (l : Ledger) (entries : List Entry) : StepResult :=
  let (l, isComplete) := l.recordAll entries
  { ledger := l, isComplete := isComplete }

/-- Does one operation. -/
def Ledger.perform (wellKnown : List String) (l : Ledger) : Step → StepResult
  | .register name target isAlias =>
    let (l, isNew) := l.register name target isAlias
    { ledger := l, isNew := some isNew }
  | .enter entry => l.enterAll [entry]
  | .setPrimary name =>
    { ledger := { l with exposure := { l.exposure with primaryGlobal := name } } }
  | .useType type owner => l.enterAll (type.toList.flatMap (typeEntries wellKnown owner))
  | .useArguments arguments owner => l.enterAll (argumentEntries wellKnown owner arguments)
  | .useMembers node owner => l.enterAll (memberEntries wellKnown owner node)
  | .useAttributes node => l.enterAll (exposureEntries wellKnown node)

end WebSpec.Analysis
