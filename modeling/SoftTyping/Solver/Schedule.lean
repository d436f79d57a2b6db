import SoftTyping.Solver.Outcome

/-!
# The schedule of the rounds

Functions are solved in rounds. In each round every queued body is solved against what is published of all functions;
then what has changed is published, a function that waits for nothing any more is made final, and the bodies that wait
for what has changed are queued. When the queue is empty and functions are left that wait for each other, they are made
final as they are and solved once more. The global body comes last, when every function is final.
-/

namespace SoftTyping

/-- The state of a schedule between two rounds. -/
structure Schedule where
  registry : Registry
  queue : List BodyId
  outcomes : OrderedMap BodyId Outcome := ∅
  /-- The issues that are about no body alone. -/
  issues : List Issue := []
  calls : CallGraph
  rounds : Nat := 0

namespace Problem

/-- The problem with what is published so far. -/
def withRegistry (problem : Problem) (registry : Registry) : SolveContext := { problem with registry }

/-- The overload of a function of which nothing is known. -/
def fallback (problem : Problem) (function : SymbolId) (arity : Nat) : Overload where
  method := function
  parameters := List.replicate arity { bound := problem.lattice.mixedUnion }
  result := problem.lattice.mixedUnion

/-- All functions of the program; one without a body is final from the start. -/
def initialRegistry (problem : Problem) : Registry :=
  problem.table.allSymbols.foldl
    (fun registry (id, symbol) =>
      match symbol.method? with
      | none => registry
      | some data =>
        if data.isBuiltin then registry
        else if (problem.flow.body? (.function id)).isSome then registry.insert id {}
        else registry.insert id { overloads := [problem.fallback id data.parameters.length], final := true })
    ∅

end Problem

namespace Registry

/-- Whether a body is that of a function whose overloads may still change. -/
def isOpen (registry : Registry) : BodyId → Bool
  | .global => false
  | .function id => match registry.get? id with
    | some known => !known.final
    | none => false

/-- The functions whose overloads may still change. -/
def unfinished (registry : Registry) : List SymbolId :=
  (registry.entries.filter (fun entry => !entry.2.final)).map (·.1)

end Registry

namespace Schedule

/-- The schedule before the first round. -/
def start (problem : Problem) (calls : CallGraph) : Schedule :=
  let registry := problem.initialRegistry
  { registry, queue := problem.flow.bodies.keys.filter (Registry.isOpen registry), calls }

/-- Queue the bodies that wait for a function and may still change. -/
def wake (schedule : Schedule) (function : SymbolId) : Schedule :=
  { schedule with
    queue := schedule.queue ++ (schedule.calls.waitingFor function).filter (Registry.isOpen schedule.registry)
    calls := schedule.calls.release function }

/-! ## Making functions final -/

/-- The names of the functions that call each other in a circle with a function; its own name when it is in no circle. -/
def groupNames (table : SymbolTable) (report : RecursionReport) (function : SymbolId) (name : String) : String :=
  match report.groups.find? (fun group => group.contains function) with
  | some group => ", ".intercalate (group.filterMap fun id => (table.symbol? id).map (·.name))
  | none => name

/-- The issue that the result of a function could not be found, if its outcome does not know it. -/
def recursionIssue? (problem : Problem) (report : RecursionReport) (schedule : Schedule) (function : SymbolId)
    (symbol : Symbol) : Option Issue :=
  let known := match schedule.outcomes.get? (.function function) with
    | some outcome => !outcome.unresolved
    | none => false
  if known then none
  else some (((Issue.ofKind .unresolvableRecursion symbol.position).withParameter "function" symbol.name).withParameter
    "group" (groupNames problem.table report function symbol.name))

/-- The overloads of a function if it has to be final now. -/
def finalNow (problem : Problem) (schedule : Schedule) (function : SymbolId) : List Overload :=
  match schedule.outcomes.get? (.function function) with
  | some outcome =>
    if outcome.finalOverloads.isEmpty then
      [problem.fallback function (problem.flow.body (.function function)).parameters.length]
    else outcome.finalOverloads
  | none => [problem.fallback function (problem.flow.body (.function function)).parameters.length]

/-- Make a function of the table final as it is. -/
def forceFinal (problem : Problem) (report : RecursionReport) (function : SymbolId) : Step Schedule Unit := do
  let symbol ← Step.query fun _ => problem.table.symbol function
  modify fun schedule => { schedule with
    registry := schedule.registry.insert function { overloads := schedule.finalNow problem function, final := true }
    issues := schedule.issues ++ (schedule.recursionIssue? problem report function symbol).toList }

/-- Make all functions final that are not. -/
def forceAll (problem : Problem) : Step Schedule Unit := do
  let { registry, calls, .. } ← get
  registry.unfinished.forM (forceFinal problem calls.recursion)

/-! ## Rounds -/

/-- Take over what a round found of one function, and wake those who wait for what has changed. A function that was made
final only takes over its refreshed overloads. -/
def absorb (schedule : Schedule) (outcome : Outcome) : Schedule :=
  match outcome.body with
  | .global => schedule
  | .function id =>
    match schedule.registry.get? id with
    | none => schedule
    | some known =>
      let outcomes := schedule.outcomes.insert outcome.body outcome
      if known.final then
        let overloads := if outcome.finalOverloads.isEmpty then known.overloads else outcome.finalOverloads
        { schedule with outcomes, registry := schedule.registry.insert id { known with overloads } }
      else
        let changed := !outcome.overloads.isEmpty && known.overloads != outcome.overloads
        let published : Published :=
          if !outcome.pending then { overloads := outcome.finalOverloads, final := true }
          else if changed then { known with overloads := outcome.overloads }
          else known
        let schedule := { schedule with outcomes, registry := schedule.registry.insert id published }
        if changed || !outcome.pending then schedule.wake id else schedule

/-- Solve one body against what is published. -/
def solveOne (problem : Problem) (registry : Registry) (body : BodyId) : Step Schedule Outcome :=
  Step.onPart (·.calls) (fun calls schedule => { schedule with calls })
    ((problem.withRegistry registry).solveBody (problem.flow.body body))

/-- Solve all queued bodies and take over what was found. -/
def round (problem : Problem) : Step Schedule Unit := do
  modify fun schedule =>
    let queue := (sortBy BodyId.le schedule.queue).eraseDups
    { schedule with rounds := schedule.rounds + 1, queue, calls := queue.foldl CallGraph.forgetCalls schedule.calls }
  let { registry, queue, .. } ← get
  let outcomes ← queue.mapM (solveOne problem registry)
  modify fun schedule => outcomes.foldl absorb { schedule with queue := [] }

/-- Make the functions that wait for each other final and queue them once more. -/
def release (problem : Problem) : Step Schedule Unit := do
  let stuck := (← get).registry.unfinished
  forceAll problem
  modify fun schedule =>
    let schedule := stuck.foldl wake schedule
    { schedule with queue := stuck.map .function ++ schedule.queue }

/-- End the schedule because the rounds are used up. -/
def exhaust (problem : Problem) : Step Schedule Unit := do
  modify fun schedule =>
    { schedule with issues := schedule.issues ++ [limitIssue .origin "rounds" problem.limits.rounds] }
  forceAll problem

/-- Go on with the schedule, at most `steps` steps. -/
def proceed (problem : Problem) : (steps : Nat) → Step Schedule Unit
  | 0 => pure ()
  | steps + 1 => do
    let schedule ← get
    if schedule.queue.isEmpty then
      unless schedule.registry.unfinished.isEmpty do
        release problem
        if schedule.rounds < problem.limits.rounds then proceed problem steps
    else if schedule.rounds < problem.limits.rounds then
      round problem
      proceed problem steps
    else
      exhaust problem

/-- Go through all rounds, then solve the global body. Every step but two is a round. -/
def complete (problem : Problem) : Step Schedule Unit := do
  proceed problem (problem.limits.rounds + 2)
  let outcome ← solveOne problem (← get).registry .global
  modify fun schedule => { schedule with outcomes := schedule.outcomes.insert .global outcome }

/-- All issues, first those of the bodies in their order. -/
def allIssues (problem : Problem) (schedule : Schedule) : List Issue :=
  (problem.flow.bodies.keys.flatMap fun body =>
    match schedule.outcomes.get? body with
    | some outcome => outcome.issues
    | none => []) ++ schedule.issues

end Schedule

end SoftTyping
