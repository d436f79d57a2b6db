import SoftTyping.Solver.Search
import SoftTyping.Step

/-!
# The outcome of a body

Every binding of a function that holds gives one overload: the types of its parameters and the type that it returns. When
no binding holds, the first one is run again and its failing calls are taken as erroneous, so that every body has at least
one binding and the failures become issues.
-/

namespace SoftTyping

/-- What solving a body gives. -/
structure Outcome where
  body : BodyId
  /-- The bindings that hold, one for each overload. -/
  bindings : List Binding
  /-- The overloads whose result is known. -/
  overloads : List Overload
  /-- The overloads if they have to be final now; a result that is not known is `mixed`. -/
  finalOverloads : List Overload
  /-- The result of some binding is not known. -/
  unresolved : Bool
  /-- Some call waits for overloads that may still change. -/
  pending : Bool
  issues : List Issue

/-- The type that a modifier adds to the result. -/
def Modifier.typeName : Modifier → String
  | .nullable => "null"
  | .falseable => "bool"

/-- The issue of a failed call. -/
def Failure.issue (failure : Failure) : Issue :=
  let kind := match failure.kind with
    | .operator => IssueKind.wrongOperatorUsage
    | .function => IssueKind.wrongFunctionCall
  ((Issue.ofKind kind failure.position).withParameter "name" failure.name).withParameter
    "arguments" (", ".intercalate (failure.arguments.map Union.render))

/-- The issue that a limit was reached. -/
def limitIssue (position : Position) (limit : String) (value : Nat) : Issue :=
  ((Issue.ofKind .iterationCapReached position).withParameter "limit" limit).withParameter "value" (toString value)

namespace Plan

/-- The union, or `mixed` when nothing is known. -/
def knownOrMixed (lattice : Lattice) (union : Union) : Union := if union.isEmpty then lattice.mixedUnion else union

/-- The types of the parameters under a binding. -/
def parameterTypes (plan : Plan) (lattice : Lattice) (binding : Binding) : List ParameterType :=
  plan.parameters.zipIdx.map fun (parameter, index) => {
    bound := knownOrMixed lattice (binding.boundsOf parameter.id).lower
    convertible := binding.convertibleParameters.contains index }

/-- The type that the body returns under a binding, as far as it is known. -/
def returned (plan : Plan) (binding : Binding) : Union :=
  match plan.returns with
  | some id => (binding.boundsOf id).lower
  | none => ∅

/-- The union with the types that modifiers add. -/
def withModifiers (lattice : Lattice) (modifiers : List Modifier) (union : Union) : Union :=
  modifiers.foldl
    (fun union modifier => match lattice.typeNamed? modifier.typeName with
      | some id => union.insert modifier.typeName id
      | none => union)
    union

/-- The overload of a function under a binding. -/
def overload (plan : Plan) (lattice : Lattice) (function : SymbolId) (modifiers : List Modifier) (binding : Binding) :
    Overload where
  method := function
  parameters := plan.parameterTypes lattice binding
  result := lattice.normalize (withModifiers lattice modifiers (knownOrMixed lattice (plan.returned binding)))

/-- The runs of the body that hold, and whether types were left out. When none holds, the first failed one is run again
and tolerates its failures. -/
def solve (plan : Plan) (lattice : Lattice) (limits : Limits) : List Run × Bool :=
  let strict := plan.search lattice limits false plan.start
  match strict.done, strict.failed with
  | [], first :: _ =>
    let tolerant := plan.search lattice limits true first
    (tolerant.done, strict.capped || tolerant.capped)
  | done, _ => (done, strict.capped)

end Plan

namespace SolveContext

/-- The place at which issues about a body as a whole are reported. -/
def bodyPosition (context : SolveContext) (body : BodyId) : Except Fault Position :=
  match body with
  | .global => .ok .origin
  | .function id => do .ok (← context.table.symbol id).position

/-- The modifiers of a function. -/
def modifiersOf (context : SolveContext) (id : SymbolId) : Except Fault (List Modifier) := do
  match (← context.table.symbol id).method? with
  | some data => .ok data.modifiers
  | none => .ok []

/-- The issues of a body. -/
def issuesOf (context : SolveContext) (position : Position) (runs : List Run) (capped : Bool) : List Issue :=
  (runs.flatMap fun run => run.failures.map Failure.issue).eraseDups ++
    (if runs.any (·.capped) then [limitIssue position "passes" context.limits.passes] else []) ++
    (if capped then [limitIssue position "bindings" context.limits.bindings] else [])

/-- What solving a body gives. -/
def outcome (context : SolveContext) (body : Body) : Except Fault Outcome := do
  let plan ← context.plan body
  let (runs, capped) := plan.solve context.lattice context.limits
  let bindings := runs.map (·.binding)
  let position ← context.bodyPosition body.id
  let base : Outcome := {
    body := body.id
    bindings
    overloads := []
    finalOverloads := []
    unresolved := false
    pending := runs.any (·.pending)
    issues := context.issuesOf position runs capped }
  match body.id with
  | .global => .ok base
  | .function id =>
    let modifiers ← context.modifiersOf id
    let overload := plan.overload context.lattice id modifiers
    let known := bindings.filter (fun binding => !(plan.returned binding).isEmpty)
    .ok { base with
      overloads := (known.map overload).foldl includeOnce []
      finalOverloads := (bindings.map overload).foldl includeOnce []
      unresolved := bindings.any (fun binding => (plan.returned binding).isEmpty) }

/-- Solve a body: register what it waits for, and give its outcome. -/
def solveBody (context : SolveContext) (body : Body) : Step CallGraph Outcome := do
  modify fun calls => calls.registerAll body.id (context.waits body)
  Step.query fun _ => context.outcome body

end SolveContext

end SoftTyping
