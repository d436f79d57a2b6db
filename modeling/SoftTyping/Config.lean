import SoftTyping.Text.Description

/-!
# Configuration

The solver works under three limits, so that it ends on every program: how many rounds it schedules, how often it goes
over the variables of a function, and how many ways to bind the parameters of a function it follows.
-/

namespace SoftTyping

open Text

/-- The limits of the solver. -/
structure Limits where
  rounds : Nat := 32
  /-- How often the variables of a function are gone over in one way to bind its parameters. -/
  passes : Nat := 64
  /-- How many ways to bind the parameters of one function are followed. -/
  bindings : Nat := 64
  /-- How many bodies may be solved at a time; the answers do not depend on it. -/
  workers : Option Nat := none
deriving DecidableEq, Repr, Inhabited

namespace Limits

/-- At least one round is scheduled. -/
def withRounds (limits : Limits) (rounds : Nat) : Limits := { limits with rounds := max 1 rounds }

/-- The variables are gone over at least once. -/
def withPasses (limits : Limits) (passes : Nat) : Limits := { limits with passes := max 1 passes }

/-- At least one way to bind the parameters is followed. -/
def withBindings (limits : Limits) (bindings : Nat) : Limits := { limits with bindings := max 1 bindings }

/-- At least one body is solved at a time. -/
def withWorkers (limits : Limits) (workers : Nat) : Limits := { limits with workers := some (max 1 workers) }

def describe (limits : Limits) : String :=
  describeRecord "SolverConfig" [
    ("max_rounds", toString limits.rounds),
    ("max_passes_per_binding", toString limits.passes),
    ("max_bindings_per_function", toString limits.bindings),
    ("worker_threads", describeOption (limits.workers.map toString))]

end Limits

/-- What an analysis can be told beforehand. -/
structure Config where
  limits : Limits := {}
  /-- Whether the case of letters does not matter in the names of types; in those of functions it never does. -/
  caseInsensitiveTypes : Bool := true
deriving DecidableEq, Repr, Inhabited

def Config.describe (config : Config) : String :=
  describeRecord "EngineConfig" [
    ("solver", config.limits.describe),
    ("case_insensitive_types", toString config.caseInsensitiveTypes)]

end SoftTyping
