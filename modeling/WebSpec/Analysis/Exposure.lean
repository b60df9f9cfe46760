import WebSpec.Analysis.Report

/-!
# Exposure

Which names are visible in which global context. An entry belongs to a context by name or to the
primary global context, whose name may be declared only later. `Exposure.freeze` gives the entries
of the primary global their place: behind those that name it, in the order in which they came.

The first declaration of a primary global counts. An empty name counts as a declaration, but does
not replace the default.
-/

namespace WebSpec.Analysis

/-- Adds a value to the list that a table holds for a key. -/
def pushEntry {κ : Type} [DecidableEq κ] (t : Table κ (List String)) (k : κ) (name : String) :
    Table κ (List String) :=
  t.alter k fun names => names.getD [] ++ [name]

/-- What kind of thing is visible. -/
inductive Bucket where
  | constructors
  | functions
  | objects
  deriving DecidableEq, Repr

/-- A context, or nothing for the primary global. -/
abbrev Context := Option String

/-- The entries so far. -/
structure Exposure where
  /-- The primary global that was declared first. -/
  primaryGlobal : Option String := none
  constructors : Table Context (List String) := ∅
  functions : Table Context (List String) := ∅
  objects : Table Context (List String) := ∅

namespace Exposure

/-- The entries of a bucket. -/
def entries (e : Exposure) : Bucket → Table Context (List String)
  | .constructors => e.constructors
  | .functions => e.functions
  | .objects => e.objects

/-- The same exposure with other entries in a bucket. -/
def withEntries (e : Exposure) (bucket : Bucket) (t : Table Context (List String)) : Exposure :=
  match bucket with
  | .constructors => { e with constructors := t }
  | .functions => { e with functions := t }
  | .objects => { e with objects := t }

/-- Makes a name visible in the given contexts. -/
def add (e : Exposure) (bucket : Bucket) (contexts : List Context) (name : String) : Exposure :=
  e.withEntries bucket (contexts.foldl (fun t c => pushEntry t c name) (e.entries bucket))

/-- The name of the primary global. -/
def primary (e : Exposure) (defaultGlobal : String) : String :=
  match e.primaryGlobal with
  | some name => if name = "" then defaultGlobal else name
  | none => defaultGlobal

/-- The entries by the names of their contexts. -/
def freezeEntries (primary : String) (t : Table Context (List String)) :
    Table String (List String) :=
  let named := t.entries.foldl
    (fun frozen (context, names) => context.elim frozen fun c => frozen.insert c names) ∅
  match (t.get? none).getD [] with
  | [] => named
  | pending => named.alter primary fun names => names.getD [] ++ pending

/-- The exposure map, with the default for a primary global that nothing declares. -/
def freeze (e : Exposure) (defaultGlobal : String) : ExposureMap :=
  let primary := e.primary defaultGlobal
  { constructors := freezeEntries primary e.constructors
    functions := freezeEntries primary e.functions
    objects := freezeEntries primary e.objects }

end Exposure

end WebSpec.Analysis
