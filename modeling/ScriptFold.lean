import ScriptFold.Fold.Optimizer
import ScriptFold.Program
import ScriptFold.Walk.BreadthFirst
import ScriptFold.Proofs.Answer
import ScriptFold.Proofs.Cells
import ScriptFold.Proofs.Completion
import ScriptFold.Proofs.Convergence
import ScriptFold.Proofs.Coverage
import ScriptFold.Proofs.Dangling
import ScriptFold.Proofs.Depth
import ScriptFold.Proofs.Equality
import ScriptFold.Proofs.Equivalence
import ScriptFold.Proofs.Execution
import ScriptFold.Proofs.Failure
import ScriptFold.Proofs.Faithful
import ScriptFold.Proofs.Grammar
import ScriptFold.Proofs.History
import ScriptFold.Proofs.Hoisting
import ScriptFold.Proofs.Legible
import ScriptFold.Proofs.Locality
import ScriptFold.Proofs.Nesting
import ScriptFold.Proofs.Permute
import ScriptFold.Proofs.Print
import ScriptFold.Proofs.Prologue
import ScriptFold.Proofs.Reference
import ScriptFold.Proofs.RoundTrip
import ScriptFold.Proofs.SizeOnly
import ScriptFold.Proofs.Stale
import ScriptFold.Proofs.Traversal
import ScriptFold.Proofs.Units
import ScriptFold.Proofs.Unread
import ScriptFold.Proofs.Valuation
