import SoftTyping.Issue.Log
import SoftTyping.Solver.Schedule

/-!
# The solver

The solver takes the flow of a program and finds bounds for all its type variables and overloads for all its functions.
It works once: what it has found stays until it is reset. A solver that was refused stays as it is until then.
-/

namespace SoftTyping

open Text

/-- How far a solver is. -/
inductive SolverPhase where
  | idle | solving | solved
deriving DecidableEq, Repr

def SolverPhase.render : SolverPhase → String
  | .idle => "idle"
  | .solving => "solving"
  | .solved => "solved"

/-- The name of the phase in descriptions. -/
def SolverPhase.describe : SolverPhase → String
  | .idle => "Idle"
  | .solving => "Solving"
  | .solved => "Solved"

/-- A solver with what it has found. -/
structure Solver where
  limits : Limits
  phase : SolverPhase := .idle
  calls : CallGraph := ∅
  results : OrderedMap BodyId Outcome := ∅
  lattice : Option Lattice := none
  rounds : Nat := 0

/-- What a solver works on: itself, the table to which it publishes what it finds, and the log to which it reports. -/
structure Solving where
  solver : Solver
  table : SymbolTable
  issues : IssueLog

/-- What the system answers when it is asked for a number of workers, zero standing for as many as it likes: it may refuse,
with a reason. -/
abbrev WorkerPool := Nat → Except String Unit

namespace SymbolTable

/-- Publish the overloads that were found for the functions of a registry, which have to be in the table. -/
def publish (registry : Registry) : Step SymbolTable Unit :=
  registry.entries.forM fun (id, known) =>
    updateSymbol id (·.mapMethod fun data => { data with overloads := known.overloads })

end SymbolTable

namespace Solver

/-- The solver as it was before it was first used. -/
def reset (solver : Solver) : Solver := { limits := solver.limits }

/-- What a solver solves. -/
def problem (solver : Solver) (table : SymbolTable) (flow : Flow) : Problem :=
  { table, flow, lattice := .ofTable table, limits := solver.limits }

/-- Ask the system for as many workers as the limits say. -/
def engage (pool : WorkerPool) (solver : Solver) : Except Fault Unit :=
  (pool (solver.limits.workers.getD 0)).mapError .workerPool

/-- Go through a schedule in a given way. The call graph and the number of rounds are the solver's; what else is found is
the answer. -/
def goThrough (complete : Problem → Step Schedule Unit) (problem : Problem) : Step Solver Schedule := fun solver =>
  match complete problem (.start problem solver.calls) with
  | .ok _ schedule => .ok schedule { solver with calls := schedule.calls, rounds := schedule.rounds }
  | .error fault schedule => .error fault { solver with calls := schedule.calls, rounds := schedule.rounds }

/-- Do a step on the solver. -/
def onSolver {α : Type} (step : Step Solver α) : Step Solving α :=
  Step.onPart (·.solver) (fun solver solving => { solving with solver }) step

/-- Solve all bodies, going through the schedule in a given way: publish what is found, then report the issues. -/
def solveBy (complete : Problem → Step Schedule Unit) (pool : WorkerPool) (flow : Flow) : Step Solving Unit := do
  match (← get).solver.phase with
  | .solved => pure ()
  | .solving => throw (.invalidSolverState "solve" SolverPhase.solving.render)
  | .idle =>
    onSolver (modify fun solver => { solver with phase := .solving })
    onSolver (Step.query (engage pool))
    let { solver, table, .. } ← get
    let problem := solver.problem table flow
    let schedule ← onSolver (goThrough complete problem)
    Step.onPart (·.table) (fun table solving => { solving with table }) (SymbolTable.publish schedule.registry)
    modify fun solving => { solving with issues := solving.issues.reportAll (schedule.allIssues problem) }
    onSolver (modify fun solver =>
      { solver with phase := .solved, results := schedule.outcomes, lattice := some problem.lattice })

/-- Solve all bodies. -/
def solve : (pool : WorkerPool) → (flow : Flow) → Step Solving Unit := solveBy Schedule.complete

/-- What was found for a body. -/
def outcome? (solver : Solver) (body : BodyId) : Option Outcome := solver.results.get? body

/-- The bindings that were found for a body. -/
def bindingsOf (solver : Solver) (body : BodyId) : List Binding :=
  match solver.outcome? body with
  | some outcome => outcome.bindings
  | none => []

/-- The lower bounds of a type variable in all bindings of its body, taken together. -/
def lowerBounds (solver : Solver) (flow : Flow) (id : TypeVarId) : Union :=
  match flow.typeVar? id with
  | none => ∅
  | some var => (solver.bindingsOf var.body).foldl (fun union binding => union.extend (binding.boundsOf id).lower) ∅

/-- The normal union of the lower bounds of some type variables. -/
def joinLowerBounds (solver : Solver) (flow : Flow) (ids : List TypeVarId) : Union :=
  let joined := ids.foldl (fun union id => union.extend (solver.lowerBounds flow id)) ∅
  match solver.lattice with
  | some lattice => lattice.normalize joined
  | none => joined

end Solver

end SoftTyping
