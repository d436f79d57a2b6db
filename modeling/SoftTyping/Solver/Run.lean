import SoftTyping.CallGraph
import SoftTyping.Overload.Choice
import SoftTyping.Solver.Plan

/-!
# Evaluating a body under one binding

A pass evaluates the type variables of a body in order, each by its rule and from the bounds found so far. Passes are
repeated until nothing changes. When a call is met whose argument is a parameter without a type, the pass stops, and the
run forks: it goes on once for each type that the parameter could be given there. Parameters that no call gives a type are
`mixed`.

Main definitions: `Run.judge` decides one call, `Run.apply` applies one rule, `Plan.settle` runs a binding to its end.
-/

namespace SoftTyping

/-- A call that none of the overloads of its callee fits. -/
structure Failure where
  position : Position
  kind : MethodKind
  name : String
  arguments : List Union

/-- A binding that is being solved. -/
structure Run where
  binding : Binding
  /-- A call waits for overloads that may still change. -/
  pending : Bool := false
  failures : List Failure := []
  /-- The passes were used up before nothing changed. -/
  capped : Bool := false

/-- A parameter and the types that it could be given. -/
structure Fork where
  parameter : TypeVarId
  index : Nat
  candidates : List ParameterType

/-- What evaluating a call comes to. -/
inductive Judgement where
  /-- An overload was chosen, and its result. -/
  | chosen (result : Union) (converting : Bool)
  /-- An argument is erroneous, and so is the result. -/
  | erroneous
  /-- Not enough is known yet. -/
  | undecided
  /-- No overload fits, and none will. -/
  | refused (arguments : List Union)
  /-- A parameter needs a type first. -/
  | fork (fork : Fork)

/-- What applying rules comes to. -/
inductive Progress where
  | finished (run : Run) (changed : Bool)
  | forked (run : Run) (fork : Fork)

namespace Run

/-- Give a variable its bounds, and say whether that changes anything. -/
def set (run : Run) (id : TypeVarId) (bounds : Bounds) : Run × Bool :=
  if run.binding.bounds.get? id == some bounds then (run, false)
  else ({ run with binding := { run.binding with bounds := run.binding.bounds.insert id bounds } }, true)

/-- Give a parameter a type. -/
def bindParameter (run : Run) (id : TypeVarId) (index : Nat) (parameter : ParameterType) : Run :=
  let binding := if parameter.convertible then run.binding.recordParameter index else run.binding
  { run with binding := { binding with bounds := binding.bounds.insert id (.ofGiven parameter.bound) } }

/-- Whether a variable has been given its type. -/
def isFixed (run : Run) (id : TypeVarId) : Bool := (run.binding.boundsOf id).fixed

/-- The parameter that an argument copies, as long as it has no type. -/
def untyped? (run : Run) (operand : Operand) : Option (TypeVarId × Nat) :=
  operand.origin.filter (fun origin => !run.isFixed origin.1)

/-- The types of an argument as far as they are known. -/
def lowerOf (run : Run) (operand : Operand) : Union :=
  if (run.untyped? operand).isSome then ∅ else (run.binding.boundsOf operand.id).lower

/-- What is known of an argument. -/
def argument (run : Run) (operand : Operand) : Argument :=
  if (run.untyped? operand).isSome then .untyped else .typed (run.binding.boundsOf operand.id).lower

/-- The first argument of a call that is a parameter without a type: its place in the call, and the parameter. -/
def firstUntyped? (run : Run) (operands : List Operand) : Option (Nat × TypeVarId × Nat) :=
  operands.zipIdx.findSome? fun (operand, place) => (run.untyped? operand).map fun origin => (place, origin)

/-- The types that the candidates take at one place, each once. -/
def parameterTypesAt (candidates : List (Nat × Overload × Fit)) (place : Nat) : List ParameterType :=
  candidates.foldl
    (fun types candidate =>
      match candidate.2.1.parameters[place]? with
      | some parameter => includeOnce types parameter
      | none => types)
    []

/-- Decide a call, given how many conversions have been accepted already. -/
def judgeWith (lattice : Lattice) (run : Run) (conversions : Nat) (call : CallRule) : Judgement :=
  let lowers := call.operands.map run.lowerOf
  if lowers.any (fun lower => lower.containsSymbol lattice.erroneous) then .erroneous
  else
    let hopeless := if call.final then Judgement.refused lowers else .undecided
    if call.overloads.isEmpty then hopeless
    else if call.operands.any (fun operand => (run.untyped? operand).isNone && (run.lowerOf operand).isEmpty) then
      .undecided
    else
      let candidates := lattice.candidates call.overloads (call.operands.map run.argument)
      if candidates.isEmpty then hopeless
      else match run.firstUntyped? call.operands with
        | some (place, parameter, index) =>
          .fork { parameter, index, candidates := parameterTypesAt candidates place }
        | none =>
          match mostSpecific? conversions candidates with
          | some (_, overload, fit) => .chosen (lattice.normalize overload.result) fit.converting
          | none => .undecided

/-- Decide a call. -/
def judge (lattice : Lattice) (run : Run) (call : CallRule) : Judgement :=
  run.judgeWith lattice run.binding.convertibleApplications call

/-- The bounds of a join. A source without an upper bound leaves the join without one. -/
def joinBounds (lattice : Lattice) (run : Run) (sources : List TypeVarId) : Bounds :=
  let bounds := sources.map run.binding.boundsOf
  let lower := bounds.foldl (fun union source => union.extend source.lower) ∅
  let upper := bounds.foldl (fun union source => union.extend source.upper) ∅
  { lower := lattice.normalize lower
    upper := if bounds.isEmpty || bounds.any (fun source => source.upper.isEmpty) then ∅ else lattice.normalize upper }

/-- The bounds of a copy. -/
def copyBounds (run : Run) (source : TypeVarId) : Bounds :=
  { lower := (run.binding.boundsOf source).lower, upper := (run.binding.boundsOf source).upper }

/-- Note that a call failed. -/
def fail (run : Run) (call : CallRule) (arguments : List Union) : Run :=
  { run with failures := run.failures ++
      [{ position := call.position, kind := call.kind, name := call.name, arguments }] }

/-- Note that the run has gone over a call whose overloads may still change. -/
def noteCall (run : Run) (call : CallRule) : Run :=
  if call.final then run else { run with pending := true }

/-- Apply the rule of a call. A tolerant run gives a failed call the erroneous type and goes on. -/
def applyCall (lattice : Lattice) (tolerant : Bool) (run : Run) (id : TypeVarId) (call : CallRule) : Progress :=
  let run := run.noteCall call
  let settled (run : Run) (bounds : Bounds) : Progress :=
    let (run, changed) := run.set id bounds
    .finished run changed
  match run.judge lattice call with
  | .chosen result converting =>
    settled { run with binding := run.binding.recordCall id converting } (.ofFound result)
  | .erroneous => settled run (.ofFound lattice.erroneousUnion)
  | .undecided => settled run {}
  | .refused arguments =>
    settled (run.fail call arguments) (if tolerant then .ofFound lattice.erroneousUnion else {})
  | .fork fork => .forked run fork

/-- Apply one rule. -/
def apply (lattice : Lattice) (tolerant : Bool) (run : Run) (id : TypeVarId) : Rule → Progress
  | .given union => let (run, changed) := run.set id (.ofGiven union); .finished run changed
  | .kept => .finished run false
  | .join sources => let (run, changed) := run.set id (run.joinBounds lattice sources); .finished run changed
  | .copy source => let (run, changed) := run.set id (run.copyBounds source); .finished run changed
  | .call call => run.applyCall lattice tolerant id call

/-- Apply rules in order, up to the first that forks; `changed` says whether something has changed before. -/
def applyAll (lattice : Lattice) (tolerant : Bool) : List (TypeVarId × Rule) → Run → (changed : Bool) → Progress
  | [], run, changed => .finished run changed
  | (id, rule) :: rest, run, changed =>
    match run.apply lattice tolerant id rule with
    | .finished run changed' => applyAll lattice tolerant rest run (changed || changed')
    | .forked run fork => .forked run fork

/-- One pass over all variables. -/
def pass (lattice : Lattice) (tolerant : Bool) (rules : List (TypeVarId × Rule)) (run : Run) : Progress :=
  applyAll lattice tolerant rules { run with pending := false, failures := [] } false

/-- Passes until nothing changes, at most `limit`. -/
def passes (lattice : Lattice) (tolerant : Bool) (rules : List (TypeVarId × Rule)) : (limit : Nat) → Run → Progress
  | 0, run => .finished { run with capped := true } true
  | limit + 1, run =>
    match run.pass lattice tolerant rules with
    | .finished run true => passes lattice tolerant rules limit run
    | .finished run false => .finished run false
    | .forked run fork => .forked run fork

end Run

namespace Plan

/-- The run with which a body starts: its declared parameters have their types. -/
def start (plan : Plan) : Run :=
  { binding := {
      body := plan.body
      bounds := plan.parameters.foldl
        (fun bounds parameter => match parameter.declared with
          | some union => bounds.insert parameter.id (.ofGiven union)
          | none => bounds)
        ∅ } }

/-- The parameters that have no type yet. -/
def openParameters (plan : Plan) (run : Run) : List PlanParameter :=
  plan.parameters.filter (fun parameter => !run.isFixed parameter.id)

/-- Give all parameters that have no type yet the type of all values. -/
def close (plan : Plan) (lattice : Lattice) (run : Run) : Run :=
  (plan.openParameters run).foldl
    (fun run parameter => run.bindParameter parameter.id parameter.index { bound := lattice.mixedUnion }) run

/-- Run a binding to its end or to the next fork. -/
def settle (plan : Plan) (lattice : Lattice) (limit : Nat) (tolerant : Bool) (run : Run) : Progress :=
  match run.passes lattice tolerant plan.rules limit with
  | .finished run changed =>
    if (plan.openParameters run).isEmpty then .finished run changed
    else (plan.close lattice run).passes lattice tolerant plan.rules limit
  | .forked run fork => .forked run fork

end Plan

end SoftTyping
