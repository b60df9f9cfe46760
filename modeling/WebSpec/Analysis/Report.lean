import WebSpec.NameSet
import WebSpec.Idl.Node
import WebSpec.Analysis.Diagnostic

/-!
# Reports

What the analysis of a specification finds: the names that it defines, what each of them depends on,
the names it needs from elsewhere, and what is exposed to scripts in each global context. All tables
keep the order in which their keys came.
-/

namespace WebSpec.Analysis

/-- What a name stands for: a definition, or the attribute that introduces the name of a
constructor. -/
inductive NameTarget where
  | node (node : Idl.Node)
  | extAttribute (attr : Idl.ExtAttribute)

/-- The published form of what a name stands for. -/
def NameTarget.toJson : NameTarget → Json
  | .node definition => definition.toJson
  | .extAttribute attr => attr.toJson

/-- What is visible from scripts, by global context: the constructors, the interface objects, and
other objects. -/
structure ExposureMap where
  constructors : Table String (List String) := ∅
  functions : Table String (List String) := ∅
  objects : Table String (List String) := ∅

/-- The contexts in which anything is visible. -/
def ExposureMap.contexts (m : ExposureMap) : NameSet :=
  NameSet.ofList (m.constructors.keys ++ m.functions.keys ++ m.objects.keys)

/-- The findings of an analysis. -/
structure Report where
  /-- For each name, the names that it refers to. -/
  dependencies : Table String NameSet := ∅
  /-- What each name stands for. -/
  names : Table String NameTarget := ∅
  /-- What adds to a name: partial definitions, includes and implements statements. -/
  extendedNames : Table String (List Idl.Node) := ∅
  /-- The names that are referred to and not defined, in the order of their first use. -/
  externalDependencies : List String := []
  exposure : ExposureMap := {}
  /-- Whether `Window` is used as a type, inherited or included. -/
  reallyDependsOnWindow : Bool := false
  /-- For each global context, the interfaces that declare it. -/
  globals : Table String (List String) := ∅
  /-- For each context, the interfaces that list it in `Exposed`. -/
  exposed : Table String (List String) := ∅
  /-- The context of what does not list any. -/
  primaryGlobal : String := "Window"
  /-- Whether the text had legacy constructs. -/
  hasObsoleteIdl : Bool := false
  diagnostics : List Diagnostic := []

/-- The fields of a table. -/
def tableFields {β : Type} (f : β → Json) (t : Table String β) : Json.Fields :=
  t.entries.map fun (key, value) => (key, f value)

/-- A list of texts. -/
def textsJson (texts : List String) : Json :=
  .arr (texts.map .str)

/-- The published form of an exposure map, where `table` is the form of a table. -/
def ExposureMap.toJson (table : Json.Fields → Json) (m : ExposureMap) : Json :=
  .obj [("constructors", table (tableFields textsJson m.constructors)),
    ("functions", table (tableFields textsJson m.functions)),
    ("objects", table (tableFields textsJson m.objects))]

/-- The published form of a report, where `table` is the form of a table. -/
def Report.toJson (table : Json.Fields → Json) (r : Report) : Json :=
  .obj
    [("jsNames", r.exposure.toJson table),
     ("idlNames", table (tableFields NameTarget.toJson r.names)),
     ("idlExtendedNames", table (tableFields (fun ns => .arr (ns.map Idl.Node.toJson))
       r.extendedNames)),
     ("globals", table (tableFields textsJson r.globals)),
     ("exposed", table (tableFields textsJson r.exposed)),
     ("dependencies", table (tableFields (fun s => textsJson s.toSorted) r.dependencies)),
     ("externalDependencies", textsJson r.externalDependencies),
     ("primaryGlobal", .str r.primaryGlobal),
     ("reallyDependsOnWindow", .bool r.reallyDependsOnWindow),
     ("hasObsoleteIdl", .bool r.hasObsoleteIdl),
     ("diagnostics", .arr (r.diagnostics.map Diagnostic.toJson))]

end WebSpec.Analysis
