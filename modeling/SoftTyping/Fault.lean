import SoftTyping.Handle

/-!
# Faults

A fault is a breach of contract by whoever drives the analysis: a handle of another run, a node that an earlier pass has
not prepared, a built-in declaration that does not hold together. That the system has no workers for the solver is one,
too. Problems of the analysed program are not faults; they are issues.
-/

namespace SoftTyping

/-- Why an operation was refused. -/
inductive Fault where
  | unknownNode (node : NodeId)
  | nodeWithoutScope (node : NodeId)
  | nodeWithoutSymbol (node : NodeId)
  | nodeWithoutTypeVariable (node : NodeId)
  | staleScope (scope : ScopeId)
  | staleSymbol (symbol : SymbolId)
  | missingDefinitionScope (symbol : String)
  | unexpectedNode (node : NodeId) (expected found : String)
  | unexpectedScope (expected found : String)
  | unexpectedSymbol (symbol expected : String)
  | unknownOperator (operator : String)
  | unknownTypeVariable (id : TypeVarId)
  | invalidConstraint (id : TypeVarId)
  | invalidSolverState (operation state : String)
  | workerPool (reason : String)
  | invalidSignature (signature reason : String)
  | unknownBuiltinType (name : String)
deriving DecidableEq, Repr

namespace Fault

/-- The name of the cause. -/
def name : Fault → String
  | unknownNode _ => "UnknownNode"
  | nodeWithoutScope _ => "NodeWithoutScope"
  | nodeWithoutSymbol _ => "NodeWithoutSymbol"
  | nodeWithoutTypeVariable _ => "NodeWithoutTypeVariable"
  | staleScope _ => "StaleScope"
  | staleSymbol _ => "StaleSymbol"
  | missingDefinitionScope _ => "MissingDefinitionScope"
  | unexpectedNode .. => "UnexpectedNode"
  | unexpectedScope .. => "UnexpectedScope"
  | unexpectedSymbol .. => "UnexpectedSymbol"
  | unknownOperator _ => "UnknownOperator"
  | unknownTypeVariable _ => "UnknownTypeVariable"
  | invalidConstraint _ => "InvalidConstraint"
  | invalidSolverState .. => "InvalidSolverState"
  | workerPool _ => "WorkerPool"
  | invalidSignature .. => "InvalidSignature"
  | unknownBuiltinType _ => "UnknownBuiltinType"

/-- What is wrong, in one sentence. -/
def message : Fault → String
  | unknownNode node => s!"Node {node.render} does not exist in the syntax tree"
  | nodeWithoutScope node => s!"Node {node.render} has no scope assigned"
  | nodeWithoutSymbol node => s!"Node {node.render} has no symbol assigned"
  | nodeWithoutTypeVariable node => s!"Node {node.render} has no type variable assigned"
  | staleScope scope => s!"Scope handle {scope.render} belongs to a previous run or does not exist"
  | staleSymbol symbol => s!"Symbol handle {symbol.render} belongs to a previous run or does not exist"
  | missingDefinitionScope symbol => s!"Symbol '{symbol}' has no definition scope"
  | unexpectedNode node expected found => s!"Expected {expected} at {node.render}, found {found}"
  | unexpectedScope expected found => s!"Expected a {expected} scope, found {found}"
  | unexpectedSymbol symbol expected => s!"Symbol '{symbol}' is not a {expected}"
  | unknownOperator operator => s!"Unknown operator '{operator}'"
  | unknownTypeVariable id => s!"Type variable {id.render} does not exist"
  | invalidConstraint id => s!"Type variable {id.render} cannot take a reference constraint"
  | invalidSolverState operation state => s!"Cannot {operation} while the solver is {state}"
  | workerPool reason => s!"Failed to build the solver worker pool: {reason}"
  | invalidSignature signature reason => s!"Invalid built-in signature '{signature}': {reason}"
  | unknownBuiltinType name => s!"Built-in type '{name}' is not registered"

/-- The code under which the cause is documented. -/
def code : Fault → String
  | unknownNode _ => "ferrule::engine::unknown_node"
  | nodeWithoutScope _ => "ferrule::engine::node_without_scope"
  | nodeWithoutSymbol _ => "ferrule::engine::node_without_symbol"
  | nodeWithoutTypeVariable _ => "ferrule::engine::node_without_type_variable"
  | staleScope _ => "ferrule::engine::stale_scope"
  | staleSymbol _ => "ferrule::engine::stale_symbol"
  | missingDefinitionScope _ => "ferrule::engine::missing_definition_scope"
  | unexpectedNode .. => "ferrule::engine::unexpected_node"
  | unexpectedScope .. => "ferrule::engine::unexpected_scope"
  | unexpectedSymbol .. => "ferrule::engine::unexpected_symbol"
  | unknownOperator _ => "ferrule::engine::unknown_operator"
  | unknownTypeVariable _ => "ferrule::engine::unknown_type_variable"
  | invalidConstraint _ => "ferrule::engine::invalid_constraint"
  | invalidSolverState .. => "ferrule::engine::invalid_solver_state"
  | workerPool _ => "ferrule::engine::worker_pool"
  | invalidSignature .. => "ferrule::builtins::invalid_signature"
  | unknownBuiltinType _ => "ferrule::builtins::unknown_type"

/-- What to do about it, where there is advice. -/
def help : Fault → Option String
  | unknownNode _ => some "Node ids must come from the same Ast that is being analysed"
  | nodeWithoutScope _ => some "Run the definition pass over the node before referencing or inferring it"
  | nodeWithoutSymbol _ => some "Definitions and references must be processed before the inference pass"
  | nodeWithoutTypeVariable _ => some "Operands must be inferred before the expression that consumes them"
  | staleScope _ | staleSymbol _ => some "Handles are invalidated by reset(); look them up again"
  | unknownOperator _ => some "Operators must be registered by a built-in provider"
  | invalidSolverState .. => some "Call reset() before analysing a new compilation unit"
  | unknownBuiltinType _ => some "Register parent and parameter types before the declarations that use them"
  | _ => none

end Fault

end SoftTyping
