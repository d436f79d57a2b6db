import SoftTyping.Analysis.Workspace
import SoftTyping.Builtin.Standard

/-!
# Constraints

The third pass gives every expression a type variable whose constraint says how its value is made. Each read and each
write of a variable is a new version of it. Where ways through the program meet, versions are joined: behind branches, and
at the head of a loop, which is reached from before the loop and from the end of its body.
-/

namespace SoftTyping.Workspace

/-- The name of the type variable that takes all values that a function returns. -/
def returnName : String := "@return"

/-- The body to which the code of a scope belongs. -/
def bodyOf (scope : ScopeId) : Step Workspace BodyId := do
  match ← askTable (fun table => table.enclosingMethod scope) with
  | some function => pure (.function function)
  | none => pure .global

/-- The body to which a node belongs. -/
def bodyOfNode (id : NodeId) : Step Workspace BodyId := do
  bodyOf (← askTree (fun tree => tree.scopeOf id))

/-- Add a type variable and change it. -/
def addVariable (name : String) (position : Position) (body : BodyId) (constraint : Constraint)
    (change : TypeVar → TypeVar := id) : Step Workspace TypeVarId :=
  modifyGet fun workspace =>
    let (id, flow) := workspace.flow.add name position body constraint
    (id, { workspace with flow := flow.updateVariable id change })

/-- Add a type variable whose type is given. -/
def addFixed (name : String) (position : Position) (body : BodyId) (type : SymbolId) : Step Workspace TypeVarId :=
  addVariable name position body (.join []) fun var => { var with fixed := some type }

/-- Note the type variable of a node's value. -/
def typeNode (id : NodeId) (typeVar : TypeVarId) : Step Workspace Unit :=
  updateNode id fun node => { node with typeVar := some typeVar }

/-! ## Versions of variables -/

/-- Make a type variable the latest version of a variable. -/
def pushVersion (symbol : SymbolId) (id : TypeVarId) : Step Workspace Unit := do
  onTable (SymbolTable.updateSymbol symbol fun entry =>
    entry.mapVariable fun data => { data with versions := data.versions ++ [id] })
  modifyFlow (·.setHead symbol id)

/-- The type with which a version starts that has no previous one: the erroneous type for a name that could not be
resolved, the declared type for a variable that has one. -/
def startType? (table : SymbolTable) (symbol : Symbol) (previous : Option TypeVarId) : Option SymbolId :=
  match symbol.data with
  | .erroneous _ => some table.erroneousType
  | .var data => if previous.isNone then data.declared else none
  | _ => none

/-- A new version of a variable, which copies its current one. -/
def newVersion (symbol : SymbolId) (position : Position) (body : BodyId) : Step Workspace TypeVarId := do
  let entry ← askTable (fun table => table.symbol symbol)
  let { table, flow, .. } ← get
  let previous := flow.head? body symbol
  let constraint := match previous with
    | some previous => Constraint.copy previous
    | none => .join []
  let id ← addVariable entry.name position body constraint fun var =>
    { var with fixed := startType? table entry previous, versionOf := some { symbol, previous } }
  pushVersion symbol id
  pure id

/-- The constraint with one more source. A copy is replaced by its new source; a call takes none. -/
def addSource? (source : TypeVarId) : Constraint → Option Constraint
  | .copy _ => some (.join [source])
  | .join sources => some (.join (if source ∈ sources then sources else sources ++ [source]))
  | .call .. => none

/-- Let a type variable also take the type of another. -/
def addSource (id source : TypeVarId) : Step Workspace Unit := do
  let var ← Step.query (fun workspace => workspace.flow.find id)
  match addSource? source var.constraint with
  | some constraint => modifyFlow (·.updateVariable id fun var => { var with constraint })
  | none => throw (.invalidConstraint id)

/-- A version of a variable that joins others. -/
def joinVersions (symbol : SymbolId) (position : Position) (body : BodyId) (sources : List TypeVarId)
    (previous : Option TypeVarId) : Step Workspace TypeVarId := do
  let entry ← askTable (fun table => table.symbol symbol)
  let id ← addVariable entry.name position body (.join sources) fun var =>
    { var with versionOf := some { symbol, previous } }
  pushVersion symbol id
  pure id

/-! ## Functions -/

/-- Add the type variables of a function's parameters, which are numbered from `index` on. -/
def openParameters (body : BodyId) : (index : Nat) → List SymbolId → Step Workspace Unit
  | _, [] => pure ()
  | index, symbol :: rest => do
    let entry ← askTable (fun table => table.symbol symbol)
    let declared := entry.var?.bind (·.declared)
    let id ← addVariable entry.name entry.position body (.join []) fun var =>
      { var with parameterIndex := some index, fixed := declared, versionOf := some { symbol, previous := none } }
    modifyFlow (·.updateBody body fun entry => { entry with parameters := entry.parameters ++ [id] })
    pushVersion symbol id
    openParameters body (index + 1) rest

/-- Add the type variables of a function's parameters and of what it returns. -/
def openFunction (function : NodeId) : Step Workspace BodyId := do
  let symbol ← askTree (fun tree => tree.symbolOf function)
  let node ← askTree (fun tree => tree.node function)
  let entry ← askTable (fun table => table.symbol symbol)
  let body := BodyId.function symbol
  modifyFlow (·.updateBody body id)
  openParameters body 0 ((entry.method?.map (·.parameters)).getD [])
  let returns ← addVariable returnName node.position body (.join [])
  modifyFlow (·.updateBody body fun entry => { entry with returns := some returns })
  pure body

/-! ## Expressions and statements -/

/-- Type a literal. -/
def typeLiteral (id : NodeId) : Step Workspace TypeVarId := do
  let node ← askTree (fun tree => tree.node id)
  match node.kind with
  | .literal kind =>
    let { table, .. } ← get
    let body ← bodyOfNode id
    let typeVar ← addFixed node.text node.position body ((table.coreType? kind.typeName).getD table.erroneousType)
    typeNode id typeVar
    pure typeVar
  | other => throw (.unexpectedNode id "literal" other.render)

/-- The type of a constant; what is no constant is erroneous. -/
def constantType (table : SymbolTable) (symbol : Symbol) : SymbolId :=
  match symbol.data with
  | .const (some type) => type
  | _ => table.erroneousType

/-- Type the read of a constant. -/
def typeConstant (id : NodeId) : Step Workspace TypeVarId := do
  let symbol ← askTree (fun tree => tree.symbolOf id)
  let node ← askTree (fun tree => tree.node id)
  let entry ← askTable (fun table => table.symbol symbol)
  let { table, .. } ← get
  let body ← bodyOfNode id
  let typeVar ← addFixed node.text node.position body (constantType table entry)
  typeNode id typeVar
  pure typeVar

/-- Type the read of a variable. -/
def typeRead (id : NodeId) : Step Workspace TypeVarId := do
  let symbol ← askTree (fun tree => tree.symbolOf id)
  let node ← askTree (fun tree => tree.node id)
  let body ← bodyOfNode id
  let typeVar ← newVersion symbol node.position body
  typeNode id typeVar
  pure typeVar

/-- Type an assignment: a new version of the variable that takes the value's type, whatever the variable was declared
with. -/
def typeAssignment (id : NodeId) : Step Workspace TypeVarId := do
  match (← get).tree.children id with
  | [target, value] =>
    let symbol ← askTree (fun tree => tree.symbolOf target)
    let source ← askTree (fun tree => tree.typeVarOf value)
    let node ← askTree (fun tree => tree.node target)
    let body ← bodyOfNode id
    let typeVar ← newVersion symbol node.position body
    modifyFlow (·.updateVariable typeVar fun var => { var with fixed := none, constraint := .join [source] })
    typeNode target typeVar
    typeNode id typeVar
    pure typeVar
  | _ => throw (.unexpectedNode id "assignment target and value" "other children")

/-- Add a type variable for the result of a call. -/
def addCall (name : String) (position : Position) (body : BodyId) (callee : SymbolId) (arguments : List TypeVarId) :
    Step Workspace TypeVarId := do
  let site := (← get).flow.nextSite body
  addVariable name position body (.call callee arguments site)

/-- Type a node that applies a function or operator to its children. -/
def typeApplication (id : NodeId) (name : String) (position : Position) (callee : SymbolId) : Step Workspace TypeVarId := do
  let arguments ← askTree (fun tree => (tree.children id).mapM tree.typeVarOf)
  let body ← bodyOfNode id
  let typeVar ← addCall name position body callee arguments
  typeNode id typeVar
  pure typeVar

/-- The built-in operator of a name, which has to be declared. -/
def operatorNamed (table : SymbolTable) (name : String) : Except Fault SymbolId :=
  match table.coreMethod? name with
  | some id => .ok id
  | none => .error (.unknownOperator name)

/-- Type the application of an operator. -/
def typeOperator (id : NodeId) : Step Workspace TypeVarId := do
  let node ← askTree (fun tree => tree.node id)
  let operator ← askTable (fun table => operatorNamed table node.text)
  typeApplication id node.text node.position operator

/-- Type the call of a function; a call of what is no function is erroneous. -/
def typeCall (id : NodeId) : Step Workspace TypeVarId := do
  let callee ← askTree (fun tree => tree.symbolOf id)
  let node ← askTree (fun tree => tree.node id)
  let entry ← askTable (fun table => table.symbol callee)
  let name := node.text ++ "()"
  if entry.method?.isSome then
    typeApplication id name node.position callee
  else
    let { table, .. } ← get
    let body ← bodyOfNode id
    let typeVar ← addFixed name node.position body table.erroneousType
    typeNode id typeVar
    pure typeVar

/-- Type an echo statement, which calls the operator of that name. -/
def typeEcho (id : NodeId) : Step Workspace TypeVarId := do
  let node ← askTree (fun tree => tree.node id)
  let operator ← askTable (fun table => operatorNamed table echoName)
  typeApplication id echoName node.position operator

/-- Type a return statement: its value goes to what the function returns. Outside a function it has no effect. -/
def typeReturn (id : NodeId) : Step Workspace (Option TypeVarId) := do
  let body ← bodyOfNode id
  let { tree, flow, .. } ← get
  match (flow.body body).returns, (tree.children id).head? with
  | some returns, some value =>
    let typeVar ← askTree (fun tree => tree.typeVarOf value)
    addSource returns typeVar
    typeNode id typeVar
    pure (some typeVar)
  | _, _ => pure none

/-! ## Loops and branches -/

/-- New versions of all given variables; each starts as a copy of its version before the loop. -/
def openLoopFrom (body : BodyId) (position : Position) : List (SymbolId × TypeVarId) → Step Workspace Versions
  | [] => pure ∅
  | (symbol, previous) :: rest => do
    let head ← joinVersions symbol position body [previous] (some previous)
    let heads ← openLoopFrom body position rest
    pure (((∅ : Versions).insert symbol head).union heads)

/-- The versions of all variables at the head of a loop. -/
def openLoop (body : BodyId) (position : Position) : Step Workspace Versions := do
  openLoopFrom body position ((← get).flow.headsIn body).entries

/-- Join the versions that reach the end of a loop's body into those at its head. -/
def closeLoopFrom (last : Versions) : List (SymbolId × TypeVarId) → Step Workspace Unit
  | [] => pure ()
  | (symbol, head) :: rest => do
    match last.get? symbol with
    | some version => if version != head then addSource head version
    | none => pure ()
    modifyFlow (·.setHead symbol head)
    closeLoopFrom last rest

/-- Close a loop; since its body may be skipped, the versions at its head are those behind it. -/
def closeLoop (heads : Versions) (body : BodyId) : Step Workspace Unit := do
  closeLoopFrom ((← get).flow.headsIn body) heads.entries

/-- The variables of which some branch ends with another version than it began with. -/
def changedIn (before : Versions) (branches : List Versions) : List SymbolId :=
  ((branches.flatMap (·.entries)).filter (fun (symbol, head) => before.get? symbol != some head)).map (·.1) |>.eraseDups

/-- The versions of a variable that reach the place behind the branches, each once. If the branches can all be skipped,
the version before them is among these. -/
def reaching (before : Versions) (branches : List Versions) (exhaustive : Bool) (symbol : SymbolId) : List TypeVarId :=
  let ends := branches.filterMap (fun branch => (branch.get? symbol).or (before.get? symbol))
  (if exhaustive then ends else ends ++ (before.get? symbol).toList).eraseDups

/-- Join the versions of the given variables behind branches; a single version needs no join. -/
def mergeVersionsOf (before : Versions) (branches : List Versions) (exhaustive : Bool) (body : BodyId)
    (position : Position) : List SymbolId → Step Workspace Versions
  | [] => pure ∅
  | symbol :: rest => do
    let head ← match reaching before branches exhaustive symbol with
      | [single] => pure single
      | sources => joinVersions symbol position body sources (before.get? symbol)
    modifyFlow (·.setHead symbol head)
    let merged ← mergeVersionsOf before branches exhaustive body position rest
    pure (((∅ : Versions).insert symbol head).union merged)

/-- Join the versions with which branches end. -/
def mergeVersions (before : Versions) (branches : List Versions) (exhaustive : Bool) (body : BodyId)
    (position : Position) : Step Workspace Versions :=
  mergeVersionsOf before branches exhaustive body position (changedIn before branches)

end SoftTyping.Workspace
