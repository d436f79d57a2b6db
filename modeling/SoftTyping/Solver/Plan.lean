import SoftTyping.Builtin.Standard
import SoftTyping.Config
import SoftTyping.Flow
import SoftTyping.Lattice

/-!
# The plan of a body

Before a body is solved its constraints are made into rules: each rule holds all that is needed to evaluate one type
variable, so that evaluating it cannot be refused. A call's rule holds the overloads of its callee as they are published
at that time. An argument that is only a copy of a parameter is traced back to it, because a parameter without a type is
given one where it is used.
-/

namespace SoftTyping

/-- What is known of a function of the program so far. -/
structure Published where
  overloads : List Overload := []
  /-- No later round changes the overloads. -/
  final : Bool := false

instance : Inhabited Published := ⟨{}⟩

/-- What is known of all functions of the program. -/
abbrev Registry := OrderedMap SymbolId Published

/-- An argument of a call. -/
structure Operand where
  id : TypeVarId
  /-- The parameter without a declared type that the argument copies, with its place. -/
  origin : Option (TypeVarId × Nat)
deriving DecidableEq

/-- A call with all that is known of its callee. -/
structure CallRule where
  name : String
  kind : MethodKind
  position : Position
  overloads : List Overload
  /-- The overloads do not change any more. -/
  final : Bool
  operands : List Operand

/-- How a type variable is evaluated. -/
inductive Rule where
  /-- Its type is given. -/
  | given (union : Union)
  /-- It is a parameter and keeps what it is bound to. -/
  | kept
  | join (sources : List TypeVarId)
  | copy (source : TypeVarId)
  | call (call : CallRule)

/-- A parameter of a body. -/
structure PlanParameter where
  id : TypeVarId
  index : Nat
  declared : Option Union

/-- A body that is ready to be solved. -/
structure Plan where
  body : BodyId
  parameters : List PlanParameter
  returns : Option TypeVarId
  rules : List (TypeVarId × Rule)

/-- What is to be solved. -/
structure Problem where
  table : SymbolTable
  flow : Flow
  lattice : Lattice
  limits : Limits

/-- What all bodies that are solved in one round share. -/
structure SolveContext extends Problem where
  registry : Registry

namespace Flow

/-- The variable that another one merely copies. -/
def copied? (var : TypeVar) : Option TypeVarId :=
  match var.constraint with
  | .copy source => some source
  | .join [source] => some source
  | _ => none

/-- Follow copies, at most `steps` variables far, to the first parameter. It counts only if it has no declared type. -/
def trace (flow : Flow) : (steps : Nat) → TypeVarId → Except Fault (Option (TypeVarId × Nat))
  | 0, _ => .ok none
  | steps + 1, id => do
    let var ← flow.find id
    match var.parameterIndex with
    | some index => .ok (if var.fixed.isSome then none else some (id, index))
    | none =>
      match copied? var with
      | some source => flow.trace steps source
      | none => .ok none

end Flow

namespace SolveContext

/-- The callee of a call, which has to be a function or operator. -/
def callee (context : SolveContext) (id : SymbolId) : Except Fault (Symbol × MethodData) := do
  let symbol ← context.table.symbol id
  match symbol.method? with
  | some data => .ok (symbol, data)
  | none => .error (.unexpectedSymbol symbol.name "function or operator")

/-- What is known of a function or operator: a built-in is final from the start. -/
def published (context : SolveContext) (id : SymbolId) (data : MethodData) : Published :=
  if data.isBuiltin then { overloads := data.overloads, final := true } else (context.registry.get? id).getD {}

/-- How many variables are followed to find the parameter that an argument copies: no chain without a circle is longer. -/
def traceBound (body : Body) : Nat := max 1 body.typeVars.length

/-- The rule of a call. -/
def callRule (context : SolveContext) (body : Body) (var : TypeVar) (id : SymbolId) (arguments : List TypeVarId) :
    Except Fault Rule := do
  let (symbol, data) ← context.callee id
  let known := context.published id data
  let operands ← arguments.mapM fun argument => do
    .ok ({ id := argument, origin := ← context.flow.trace (traceBound body) argument } : Operand)
  .ok (.call {
    name := symbol.name
    kind := data.kind
    position := var.position
    overloads := known.overloads
    final := known.final
    operands })

/-- The rule of a type variable. -/
def rule (context : SolveContext) (body : Body) (id : TypeVarId) : Except Fault Rule := do
  let var ← context.flow.find id
  match var.fixed, var.parameterIndex with
  | some type, _ => .ok (.given (context.lattice.unionOf type))
  | none, some _ => .ok .kept
  | none, none =>
    match var.constraint with
    | .join sources => .ok (.join sources)
    | .copy source => .ok (.copy source)
    | .call callee arguments _ => context.callRule body var callee arguments

/-- A parameter as it is planned. -/
def planParameter (context : SolveContext) (id : TypeVarId) : Except Fault PlanParameter := do
  let var ← context.flow.find id
  .ok { id, index := var.parameterIndex.getD 0, declared := var.fixed.map context.lattice.unionOf }

/-- The variables that are evaluated at all; without passes there are none. -/
def evaluated (context : SolveContext) (body : Body) : List TypeVarId :=
  if context.limits.passes = 0 then [] else body.typeVars

/-- The plan of a body; it is refused when a variable or a callee that it needs does not exist. -/
def plan (context : SolveContext) (body : Body) : Except Fault Plan := do
  let parameters ← body.parameters.mapM context.planParameter
  let rules ← (context.evaluated body).mapM fun id => do .ok (id, ← context.rule body id)
  .ok { body := body.id, parameters, returns := body.returns, rules }

/-! ## What a body waits for -/

/-- The callee of a variable that is a call, and its place, if the callee's overloads may still change. -/
def wait? (context : SolveContext) (id : TypeVarId) : Option (SymbolId × Nat) :=
  match context.flow.typeVar? id with
  | none => none
  | some var =>
    match var.fixed, var.parameterIndex, var.constraint with
    | none, none, .call callee _ site =>
      match context.callee callee with
      | .ok (_, data) => if (context.published callee data).final then none else some (callee, site)
      | .error _ => none
    | _, _, _ => none

/-- The variables up to the first one whose rule is refused, that one included. -/
def reached (context : SolveContext) (body : Body) : List TypeVarId → List TypeVarId
  | [] => []
  | id :: rest =>
    match context.rule body id with
    | .ok _ => id :: context.reached body rest
    | .error _ => [id]

/-- The calls of a body that wait for overloads that may still change. -/
def waits (context : SolveContext) (body : Body) : List (SymbolId × Nat) :=
  match body.parameters.mapM context.planParameter with
  | .ok _ => (context.reached body (context.evaluated body)).filterMap context.wait?
  | .error _ => []

end SolveContext

end SoftTyping
