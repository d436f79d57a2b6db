import SoftTyping.SymbolTable.Chain

/-!
# Initialised variables

Each scope records which variables are initialised in it. A branch or loop body also sees what its surroundings have
initialised, up to its home. When the branches of a construct end, what they initialised is carried over into the scope
around them: fully if every way through the construct initialises the variable, partially if only some do.
-/

namespace SoftTyping.SymbolTable

/-- The scopes of a chain up to its home, the home included. -/
def toHome : List (ScopeId × Scope) → List Scope
  | [] => []
  | (_, scope) :: rest => if scope.isConditional then scope :: toHome rest else [scope]

/-- Whether every way to a scope initialises a variable. -/
def fullyInitialised (table : SymbolTable) (scope : ScopeId) (symbol : SymbolId) : Bool :=
  (toHome (table.chain scope)).any (fun entry => entry.initialised.get? symbol = some .fully)

/-- Whether some way to a scope initialises a variable. -/
def partiallyInitialised (table : SymbolTable) (scope : ScopeId) (symbol : SymbolId) : Bool :=
  (toHome (table.chain scope)).any (fun entry => entry.initialised.contains symbol)

/-- Whether every way and whether some way to a scope initialises a variable. -/
def initialisation (table : SymbolTable) (scope : ScopeId) (symbol : SymbolId) : Except Fault (Bool × Bool) := do
  let _ ← table.scope scope
  .ok (table.fullyInitialised scope symbol, table.partiallyInitialised scope symbol)

/-- Record that a scope initialises a variable. -/
def markInitialised (scope : ScopeId) (symbol : SymbolId) : Step SymbolTable Unit :=
  updateScope scope fun entry => { entry with initialised := entry.initialised.insert symbol .fully }

/-- What the branches of a construct initialise together. A construct is exhaustive when one of its branches is taken on
every way through it. -/
def branchInitialisations (table : SymbolTable) (branches : List ScopeId) (exhaustive : Bool) :
    Except Fault (OrderedMap SymbolId Initialisation) := do
  let scopes ← branches.mapM table.scope
  .ok ((scopes.flatMap (fun scope => scope.initialised.keys)).foldl
    (fun merged symbol =>
      let full := exhaustive && branches.all (fun branch => table.fullyInitialised branch symbol)
      merged.insert symbol (if full then .fully else .partially))
    ∅)

/-- Carry what branches initialise over into a scope, which forgets nothing that it initialises fully. -/
def absorb (initialised branches : OrderedMap SymbolId Initialisation) : OrderedMap SymbolId Initialisation :=
  branches.entries.foldl
    (fun acc (symbol, state) => if acc.get? symbol = some .fully then acc else acc.insert symbol state) initialised

/-- Carry what the branches of a construct initialise over into the scope around it. -/
def mergeBranches (target : ScopeId) (branches : List ScopeId) (exhaustive : Bool) : Step SymbolTable Unit := do
  let merged ← Step.query (fun table => table.branchInitialisations branches exhaustive)
  updateScope target fun entry => { entry with initialised := absorb entry.initialised merged }

end SoftTyping.SymbolTable
