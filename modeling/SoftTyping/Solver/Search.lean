import SoftTyping.Solver.Run

/-!
# The search over forks

The runs of a body that are still to be done wait on a stack. A run that forks is replaced by one run for each type that
the parameter could be given, as far as the limit on bindings leaves room; a run that comes to its end is done, or has
failed. Each fork gives a type to a parameter that had none, so the search ends.
-/

namespace SoftTyping

/-- The state of a search. -/
structure Search where
  /-- The runs still to be done, next first. -/
  waiting : List Run
  done : List Run := []
  failed : List Run := []
  /-- Types of a parameter were left out because of the limit on bindings. -/
  capped : Bool := false

namespace Search

/-- How many runs may replace the next one. -/
def capacity (limits : Limits) (search : Search) : Nat :=
  max 1 (limits.bindings - (search.done.length + search.waiting.tail.length))

/-- The runs into which a run forks. -/
def branches (run : Run) (fork : Fork) (room : Nat) : List Run :=
  (fork.candidates.take room).map (run.bindParameter fork.parameter fork.index)

/-- Do the next run. -/
def step (plan : Plan) (lattice : Lattice) (limits : Limits) (tolerant : Bool) (search : Search) : Search :=
  match search.waiting with
  | [] => search
  | run :: rest =>
    match plan.settle lattice limits.passes tolerant run with
    | .finished run _ =>
      if !tolerant && !run.failures.isEmpty then { search with waiting := rest, failed := search.failed ++ [run] }
      else { search with waiting := rest, done := search.done ++ [run] }
    | .forked run fork =>
      let room := search.capacity limits
      { search with
        waiting := branches run fork room ++ rest
        capped := search.capped || decide (room < fork.candidates.length) }

/-- Do runs until none waits, at most `steps`. -/
def runs (plan : Plan) (lattice : Lattice) (limits : Limits) (tolerant : Bool) : (steps : Nat) → Search → Search
  | 0, search => search
  | steps + 1, search =>
    if search.waiting.isEmpty then search
    else runs plan lattice limits tolerant steps (search.step plan lattice limits tolerant)

end Search

namespace Plan

/-- The parameters that calls of the body may give a type, each once. -/
def forkable (plan : Plan) : List TypeVarId :=
  (plan.rules.flatMap fun (_, rule) =>
    match rule with
    | .call call => call.operands.filterMap (fun operand => operand.origin.map (·.1))
    | _ => []).eraseDups

/-- How many runs a search does at most: a run has as many branches as there may be bindings, and no branch is deeper than
there are parameters to give a type. -/
def searchBound (plan : Plan) (limits : Limits) : Nat := Nat.pow (max 1 limits.bindings + 1) (plan.forkable.length + 1)

/-- Search from one run. -/
def search (plan : Plan) (lattice : Lattice) (limits : Limits) (tolerant : Bool) (run : Run) : Search :=
  Search.runs plan lattice limits tolerant (plan.searchBound limits) { waiting := [run] }

end Plan

end SoftTyping
