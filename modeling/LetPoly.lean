import LetPoly.Check
import LetPoly.CommandLine.Flags
import LetPoly.CommandLine.Run
import LetPoly.Env
import LetPoly.Expr.Basic
import LetPoly.Expr.Printer
import LetPoly.Expr.Slots
import LetPoly.Inference.Context
import LetPoly.Inference.Infer
import LetPoly.Inference.State
import LetPoly.Log.Basic
import LetPoly.Log.Trace
import LetPoly.Main
import LetPoly.Program.Load
import LetPoly.Program.Outline
import LetPoly.Program.Parts
import LetPoly.Program.SyntaxError
import LetPoly.Proofs.Substitution
import LetPoly.Proofs.Unification
import LetPoly.Scheme
import LetPoly.Subst
import LetPoly.Supply
import LetPoly.Text.Decimal
import LetPoly.Text.Integer
import LetPoly.Text.Printable
import LetPoly.Text.Quoted
import LetPoly.Text.Record
import LetPoly.Ty.Basic
import LetPoly.Ty.Printer
import LetPoly.Unification
import LetPoly.VarSet
import LetPoly.Yaml.Cursor
import LetPoly.Yaml.Document
import LetPoly.Yaml.Node
import LetPoly.Yaml.Scalar.Block
import LetPoly.Yaml.Scalar.Flow
import LetPoly.Yaml.Scalar.Resolve
import LetPoly.Yaml.Scan
import LetPoly.Yaml.Tag
import LetPoly.Yaml.Timestamp
import LetPoly.Yaml.Token
import LetPoly.Proofs.Freshness
import LetPoly.Proofs.Framing
import LetPoly.Proofs.Soundness
import LetPoly.Proofs.Covering
import LetPoly.Proofs.Principality
import LetPoly.Proofs.Invariants
import LetPoly.Proofs.Passes
import LetPoly.Proofs.Annotation
import LetPoly.Proofs.Capture
import LetPoly.Proofs.Relabelling
import LetPoly.Proofs.Symmetry
import LetPoly.Proofs.Shifting
import LetPoly.Proofs.Filling
import LetPoly.Proofs.Loading
import LetPoly.Proofs.Blame
import LetPoly.Proofs.Reports
import LetPoly.Proofs.Echoes
import LetPoly.Proofs.Retracing
import LetPoly.Proofs.Stability
import LetPoly.Proofs.Halting
import LetPoly.Proofs.Scoping
import LetPoly.Proofs.Plans
import LetPoly.Proofs.Balance
import LetPoly.Proofs.Sections
import LetPoly.Proofs.Tracing
import LetPoly.Proofs.Copying
import LetPoly.Proofs.Drawing
import LetPoly.Proofs.Origins
import LetPoly.Proofs.Allotment
import LetPoly.Proofs.Provenance
import LetPoly.Proofs.Reordering
import LetPoly.Proofs.Lexemes
import LetPoly.Proofs.Reading
import LetPoly.Proofs.Legibility
import LetPoly.Proofs.TypeReading
import LetPoly.Proofs.Lettering
import LetPoly.Proofs.Quantification
import LetPoly.Proofs.Aliases
import LetPoly.Proofs.Canonicity
