import WebSpec.Analysis.Session
import WebSpec.Main
import WebSpec.Proofs.Analysis.Constructors
import WebSpec.Proofs.Analysis.Ignored
import WebSpec.Proofs.Analysis.NameTable
import WebSpec.Proofs.Analysis.Reordering
import WebSpec.Proofs.Command.ExitCode
import WebSpec.Proofs.Idl.Concatenation
import WebSpec.Proofs.Idl.Conservation
import WebSpec.Proofs.Idl.Fragments
import WebSpec.Proofs.Idl.Modernization
import WebSpec.Proofs.Value.Conservation
import WebSpec.Proofs.Value.Descent
import WebSpec.Proofs.Value.Nesting
import WebSpec.Proofs.Analysis.Growth
import WebSpec.Proofs.Analysis.Addition
import WebSpec.Proofs.Analysis.Integrity
import WebSpec.Proofs.ContextFree.Acceptance
import WebSpec.Proofs.Idl.Language
import WebSpec.Proofs.Idl.Relayout
import WebSpec.Proofs.Idl.TypeText
import WebSpec.Proofs.Value.Refusal
import WebSpec.Proofs.Analysis.WindowUse
import WebSpec.Proofs.Analysis.Freezing
import WebSpec.Proofs.Analysis.WellKnown
import WebSpec.Proofs.Analysis.Splitting
import WebSpec.Proofs.Analysis.Multiplicity
import WebSpec.Proofs.Analysis.PrimaryGlobal
import WebSpec.Proofs.Analysis.Totality
import WebSpec.Proofs.Idl.ArrayAttribute
import WebSpec.Proofs.Value.BoundLimit
import WebSpec.Proofs.Value.ExtraPrimitives
import WebSpec.Proofs.Value.FreeParens
import WebSpec.Proofs.Value.TypeName
import WebSpec.Proofs.Value.Serialization
import WebSpec.Proofs.Idl.Serialization
import WebSpec.Proofs.Idl.Escaping
import WebSpec.Proofs.Value.Fallback
