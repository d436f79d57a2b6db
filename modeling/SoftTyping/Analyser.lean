import SoftTyping.Analysis.Passes
import SoftTyping.Solver

/-!
# The analyser

The analyser owns all that belongs to one run: the workspace of the passes and the solver. The passes work only as long as
the solver is idle. After a run it answers what was found, and a reset starts the next run, in which all handles of the
last one are stale.
-/

namespace SoftTyping

open Text

/-- A pass of the analysis. -/
inductive Pass where
  | declaring | referring | constraining
deriving DecidableEq, Repr

/-- What a pass does, as refusals name it. -/
def Pass.operation : Pass → String
  | .declaring => "define symbols"
  | .referring => "resolve references"
  | .constraining => "create constraints"

/-- An analysis with all its parts. -/
structure Analyser where
  config : Config
  generation : Generation := 0
  workspace : Workspace
  solver : Solver
  resolvers : List Resolver
  /-- The built-in libraries, which every run declares anew. -/
  libraries : List Library

/-- The table of a run in which libraries are declared. -/
def SymbolTable.withLibraries (generation : Generation) (libraries : List Library) : Except Fault SymbolTable :=
  match declareAll libraries.flatten (.new generation) with
  | .ok _ table => .ok table
  | .error fault _ => .error fault

namespace Analyser

/-- A new analyser with the libraries and with further resolvers behind the standard ones; it is refused when the libraries
do not hold together. -/
def build (config : Config) (libraries : List Library) (resolvers : List Resolver) : Except Fault Analyser := do
  let table ← SymbolTable.withLibraries 0 libraries
  .ok {
    config
    workspace := { tree := .empty, table, flow := .empty, issues := {} }
    solver := { limits := config.limits }
    resolvers := Resolver.standard ++ resolvers
    libraries }

/-- How the analyser looks names up. -/
def rules (analyser : Analyser) : NameRules where
  resolvers := analyser.resolvers
  caseInsensitiveTypes := analyser.config.caseInsensitiveTypes

/-- Do a step on the workspace. -/
def onWorkspace {α : Type} (step : Step Workspace α) : Step Analyser α :=
  Step.onPart (·.workspace) (fun workspace analyser => { analyser with workspace }) step

/-- That the solver is idle, as every pass needs it. -/
def ensureIdle (pass : Pass) (analyser : Analyser) : Except Fault Unit :=
  if analyser.solver.phase = .idle then .ok ()
  else .error (.invalidSolverState pass.operation analyser.solver.phase.render)

/-- Do a step of a pass. -/
def inPass {α : Type} (pass : Pass) (step : Step Workspace α) : Step Analyser α := do
  Step.query (ensureIdle pass)
  onWorkspace step

/-- Do a step on what the solver works on. -/
def onSolving {α : Type} (step : Step Solving α) : Step Analyser α :=
  Step.onPart (fun analyser => ⟨analyser.solver, analyser.workspace.table, analyser.workspace.issues⟩)
    (fun { solver, table, issues } analyser =>
      { analyser with solver, workspace := { analyser.workspace with table, issues } }) step

/-- Solve all constraints; once they are solved, nothing more happens. -/
def solve (pool : WorkerPool) : Step Analyser Unit := do
  onSolving (Solver.solve pool (← get).workspace.flow)

/-- Analyse the program in the tree: all passes, then the solver. -/
def analyse (pool : WorkerPool) : Step Analyser Unit := do
  inPass .declaring Workspace.declareAll
  inPass .referring (Workspace.referAll (← get).rules)
  inPass .constraining Workspace.typeAll
  solve pool

/-- Start the next run: the table and the flow are new, the log and the solver are empty, the tree stays. The answer is
the generation of the new run. -/
def reset : Step Analyser Generation := do
  modify fun analyser => { analyser with generation := analyser.generation + 1 }
  let analyser ← get
  let table ← Step.query (fun _ => SymbolTable.withLibraries analyser.generation analyser.libraries)
  let workspace := { analyser.workspace with table, flow := .empty, issues := analyser.workspace.issues.reset }
  set { analyser with workspace, solver := analyser.solver.reset }
  pure analyser.generation

/-! ## What was found -/

/-- The type of a variable: that of all its versions together. A variable that is never used has its declared type. -/
def variableType (analyser : Analyser) (id : SymbolId) : Except Fault Union := do
  let symbol ← analyser.workspace.table.symbol id
  match symbol.var? with
  | none => .error (.unexpectedSymbol symbol.name "variable")
  | some data =>
    if data.versions.isEmpty then
      match data.declared with
      | some type => do .ok (.single (← analyser.workspace.table.typeName type) type)
      | none => .ok ∅
    else .ok (analyser.solver.joinLowerBounds analyser.workspace.flow data.versions)

/-- The type of the value of a node. -/
def nodeType (analyser : Analyser) (id : NodeId) : Except Fault Union := do
  let typeVar ← analyser.workspace.tree.typeVarOf id
  .ok (analyser.solver.joinLowerBounds analyser.workspace.flow [typeVar])

/-- The overloads of a function or operator. -/
def overloads (analyser : Analyser) (id : SymbolId) : Except Fault (List Overload) := do
  let symbol ← analyser.workspace.table.symbol id
  match symbol.method? with
  | some data => .ok data.overloads
  | none => .error (.unexpectedSymbol symbol.name "function")

/-- The text that describes an analyser. -/
def describe (analyser : Analyser) : String :=
  describeRecord "InferenceEngine" [
    ("generation", toString analyser.generation),
    ("config", analyser.config.describe),
    ("resolvers", Resolver.describe analyser.resolvers),
    ("solver", analyser.solver.phase.describe),
    ("issues", toString analyser.workspace.issues.issues.length),
    ("providers", toString analyser.libraries.length)]

end Analyser

end SoftTyping
