import ExactScript.Main
import ExactScript.Machine.Trace
import ExactScript.Proofs.StackHeights
import ExactScript.Proofs.Correctness
import ExactScript.Proofs.CallEffects
import ExactScript.Proofs.RoundTrip
import ExactScript.Proofs.LexicalScoping
import ExactScript.Proofs.TypeSafety
import ExactScript.Proofs.CallIsolation
import ExactScript.Proofs.ReadAfterWrite
import ExactScript.Proofs.Assignability
import ExactScript.Proofs.CodeAddresses
import ExactScript.Proofs.Containment
import ExactScript.Proofs.OutlineResolution
import ExactScript.Proofs.ScopeRestoration
import ExactScript.Proofs.SymbolIds
import ExactScript.Proofs.Derivations
import ExactScript.Proofs.ParserFuel
import ExactScript.Proofs.Formulas
import ExactScript.Proofs.Tokens
import ExactScript.Proofs.Operands
import ExactScript.Proofs.Precedence
import ExactScript.Proofs.LowestTerms
import ExactScript.Proofs.Renaming
import ExactScript.Proofs.Layout
import ExactScript.Proofs.Concatenation
import ExactScript.Proofs.PathUpdates
import ExactScript.Proofs.MapCounts
import ExactScript.Proofs.ExactArithmetic
import ExactScript.Proofs.Loosening
import ExactScript.Proofs.Slices
import ExactScript.Proofs.Dictionaries
import ExactScript.Proofs.CallDepth
import ExactScript.Proofs.Provenance
import ExactScript.Proofs.LabelPatching
import ExactScript.Proofs.Equality
import ExactScript.Proofs.SymbolTable
import ExactScript.Proofs.Jumps
import ExactScript.Proofs.Readability
import ExactScript.Proofs.Literals
import ExactScript.Proofs.ScopeStack
