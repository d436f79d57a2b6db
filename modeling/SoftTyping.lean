import SoftTyping.Analyser
import SoftTyping.Proofs.Schedule.BottomUp
import SoftTyping.Proofs.Analysis.DefiniteAssignment
import SoftTyping.Proofs.Analysis.Typed
import SoftTyping.Proofs.Graph
import SoftTyping.Proofs.Lattice
import SoftTyping.Proofs.Solver.Conversions
import SoftTyping.Proofs.Solver.Fixpoint
import SoftTyping.Proofs.Solver.Regular
import SoftTyping.Proofs.Solver.Stable
import SoftTyping.Proofs.Schedule.Termination
import SoftTyping.Proofs.Schedule.Consistent
import SoftTyping.Proofs.Analysis.Analysed
import SoftTyping.Proofs.Analysis.Constrained
import SoftTyping.Proofs.CallGraph
import SoftTyping.Proofs.CallGraph.Recursion
import SoftTyping.Proofs.Schedule.Blame
import SoftTyping.Proofs.Schedule.Order
import SoftTyping.Proofs.Schedule.Workers
import SoftTyping.Proofs.Solver.Copied
import SoftTyping.Proofs.Schedule.Shaped
import SoftTyping.Proofs.SymbolTable.Owned
import SoftTyping.Proofs.Analysis.Arranged
import SoftTyping.Proofs.Analysis.Aliases
import SoftTyping.Proofs.Analysis.Enumerated
import SoftTyping.Proofs.Analysis.Redefined
import SoftTyping.Proofs.Analysis.Signed
import SoftTyping.Proofs.Schedule.Overloads
import SoftTyping.Proofs.Solver.Accepted
import SoftTyping.Proofs.SymbolTable.Represented
import SoftTyping.Proofs.Analysis.Operations
import SoftTyping.Proofs.Analyser.Refused
import SoftTyping.Proofs.Analysis.Occurrences
import SoftTyping.Proofs.Analysis.Reordered
import SoftTyping.Proofs.Analysis.Returns
import SoftTyping.Proofs.Overload.Choice
import SoftTyping.Proofs.Overload.Promoted
import SoftTyping.Proofs.Signature
import SoftTyping.Proofs.Spans
import SoftTyping.Proofs.Solver.Traced
import SoftTyping.Proofs.Solver.Leaves
import SoftTyping.Proofs.Analysis.Refusals
import SoftTyping.Proofs.SymbolTable.Spellings
