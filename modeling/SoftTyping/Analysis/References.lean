import SoftTyping.Analysis.Workspace

/-!
# References

The second pass binds the names of a program to what they stand for and checks its declarations. A name that stands for
nothing is reported and bound to an erroneous symbol, so that the analysis goes on.
-/

namespace SoftTyping.Workspace

/-! ## Aliases and repeated declarations -/

/-- Bind an alias to the type that it stands for. -/
def bindAlias (rules : NameRules) (id : NodeId) : Step Workspace (Option SymbolId) := do
  let node ← askTree (fun tree => tree.nodeOfKind id .useDecl)
  let use ← askTree (fun tree => tree.symbolOf id)
  let block ← askTree (fun tree => tree.scopeOf id)
  let symbol ← askTable (fun table => table.symbol use)
  match symbol.aliasTarget? with
  | none => throw (.unexpectedSymbol symbol.name "alias")
  | some target =>
    let identifier := Identifier.ofKind target .type block node.position rules.caseInsensitiveTypes
    let found ← askTable (fun table => Resolver.resolveAll rules.resolvers table identifier)
    match found.symbol with
    | some resolved =>
      onTable (SymbolTable.updateSymbol use fun symbol => { symbol with data := .aliasOf target (some resolved) })
      pure (some resolved)
    | none =>
      report ((Issue.ofKind .aliasTargetNotDefined node.position).withParameter "name" target)
      pure none

/-- Report a declaration that is not the first of its name. -/
def reportRepeated (declared : SymbolId) (first : Option SymbolId) : Step Workspace Unit := do
  match first.filter (fun other => other != declared) with
  | none => pure ()
  | some first =>
    let symbol ← askTable (fun table => table.symbol declared)
    let earlier ← askTable (fun table => table.symbol first)
    report ((((Issue.ofKind .alreadyDefined symbol.position).withRelated earlier.position).withParameter
      "kind" symbol.label).withParameter "name" symbol.name)

/-- Report an alias whose name is an alias of its namespace block already. -/
def checkAliasUnique (id : NodeId) : Step Workspace Unit := do
  let use ← askTree (fun tree => tree.symbolOf id)
  let block ← askTree (fun tree => tree.scopeOf id)
  let symbol ← askTable (fun table => table.symbol use)
  let first ← askTable (fun table => table.useNamed? block symbol.name)
  reportRepeated use first

/-- The scope of a symbol, which has to belong to one. -/
def owningScope (symbol : Symbol) : Except Fault ScopeId :=
  match symbol.scope with
  | some scope => .ok scope
  | none => .error (.missingDefinitionScope symbol.name)

/-- Report a declaration whose name has been declared in its scope already, in the same category. -/
def checkUnique (id : NodeId) : Step Workspace Unit := do
  let declared ← askTree (fun tree => tree.symbolOf id)
  let symbol ← askTable (fun table => table.symbol declared)
  let scope ← Step.query (fun _ => owningScope symbol)
  let rule := if symbol.isCaseInsensitive then CaseRule.insensitive else .sensitive
  let first ← askTable (fun table => table.find? scope symbol.name rule (fun other => other.label = symbol.label))
  reportRepeated declared first

/-! ## Binding names -/

/-- Report that a name went through an alias which is declared behind it. -/
def reportForwardAlias (node : Node) (found : Resolution) : Step Workspace Unit := do
  match found.throughAlias with
  | some use =>
    if found.aliasIsForward then
      let use ← askTable (fun table => table.symbol use)
      report (((Issue.ofKind .aliasForwardReference node.position).withRelated use.position).withParameter "name" use.name)
  | none => pure ()

/-- The symbol that was found for a name; if there is none, that is reported as an issue of kind `failure` and an erroneous
symbol stands in for it. -/
def foundSymbol (node : Node) (kind : IdentifierKind) (failure : IssueKind) (found : Resolution) :
    Step Workspace SymbolId := do
  match found.symbol with
  | some symbol => pure symbol
  | none =>
    let issue := ((Issue.ofKind failure node.position).withParameter "kind" kind.label).withParameter "name" node.text
    let stand ← onTable (SymbolTable.addErroneous node.text node.position issue)
    report issue
    pure stand

/-- Bind the name at a node; what fails is reported as an issue of kind `failure`. -/
def bindNode (rules : NameRules) (id : NodeId) (kind : IdentifierKind) (failure : IssueKind) :
    Step Workspace SymbolId := do
  let node ← askTree (fun tree => tree.node id)
  let scope ← askTree (fun tree => tree.scopeOf id)
  let identifier := Identifier.ofKind node.text kind scope node.position rules.caseInsensitiveTypes
  let found ← askTable (fun table => Resolver.resolveAll rules.resolvers table identifier)
  reportForwardAlias node found
  let symbol ← foundSymbol node kind failure found
  updateNode id fun node => { node with symbol := some symbol }
  pure symbol

def bindVariable (rules : NameRules) (id : NodeId) : Step Workspace SymbolId := bindNode rules id .var .notDefined

def bindConstant (rules : NameRules) (id : NodeId) : Step Workspace SymbolId := bindNode rules id .const .notDefined

def bindFunction (rules : NameRules) (id : NodeId) : Step Workspace SymbolId := bindNode rules id .method .notDefined

def bindType (rules : NameRules) (id : NodeId) : Step Workspace SymbolId := bindNode rules id .type .unknownType

/-- Bind the type with which a parameter is declared. A type that is not known counts as the erroneous one, which accepts
everything. -/
def bindHint (rules : NameRules) (id : NodeId) : Step Workspace (Option SymbolId) := do
  let parameter ← askTree (fun tree => tree.symbolOf id)
  match (← get).tree.childOfKind? id .typeName with
  | none => pure none
  | some hint =>
    let resolved ← bindType rules hint
    let symbol ← askTable (fun table => table.symbol resolved)
    let { table, .. } ← get
    let declared := if symbol.type?.isSome then resolved else table.erroneousType
    onTable (SymbolTable.updateSymbol parameter fun symbol =>
      symbol.mapVariable fun data => { data with declared := some declared })
    pure (some declared)

/-- Report a constant of the program that is read before its declaration. -/
def checkDeclaredBefore (id : NodeId) : Step Workspace Unit := do
  let node ← askTree (fun tree => tree.node id)
  let referred ← askTree (fun tree => tree.symbolOf id)
  unless ← askTable (fun table => table.isBuiltin referred) do
    let symbol ← askTable (fun table => table.symbol referred)
    if symbol.isConstant && node.position.isBefore symbol.position then
      report (((Issue.ofKind .forwardReference node.position).withRelated symbol.position).withParameter "name" symbol.name)

/-! ## Initialisation -/

/-- Record that a node writes its variable. -/
def markWritten (id : NodeId) : Step Workspace Unit := do
  let symbol ← askTree (fun tree => tree.symbolOf id)
  let scope ← askTree (fun tree => tree.scopeOf id)
  onTable (SymbolTable.markInitialised scope symbol)

/-- The issue of reading a variable in a scope that is not initialised on every way to it. Parameters and super-globals
always are, and a namespace's variables are no concern of a function that reads them. -/
def writtenIssue? (table : SymbolTable) (scope : ScopeId) (id : SymbolId) : Except Fault (Option (IssueKind × String)) := do
  let symbol ← table.symbol id
  match symbol.var? with
  | none => .ok none
  | some data =>
    if data.isParameter || data.isSuperGlobal then .ok none
    else
      let owner ← owningScope symbol
      let reader ← table.variableScope scope
      if (← table.storageScope owner) != (← table.storageScope reader) then .ok none
      else
        match ← table.initialisation scope id with
        | (true, _) => .ok none
        | (false, true) => .ok (some (.variablePartiallyInitialised, symbol.name))
        | (false, false) => .ok (some (.variableNotInitialised, symbol.name))

/-- Report the read of a variable that is not initialised on every way to it. -/
def checkWritten (id : NodeId) : Step Workspace Unit := do
  let node ← askTree (fun tree => tree.node id)
  let symbol ← askTree (fun tree => tree.symbolOf id)
  let scope ← askTree (fun tree => tree.scopeOf id)
  match ← askTable (fun table => writtenIssue? table scope symbol) with
  | none => pure ()
  | some (kind, name) => report ((Issue.ofKind kind node.position).withParameter "name" name)

/-- Carry what branches initialise over into the scope around them. -/
def mergeBranches (target : ScopeId) (branches : List ScopeId) (exhaustive : Bool) : Step Workspace Unit :=
  onTable (SymbolTable.mergeBranches target branches exhaustive)

end SoftTyping.Workspace

namespace SoftTyping

/-! ## Implicit returns -/

mutual
/-- Whether every way through a block ends in a return: its last statement is one, or chooses between two blocks that
both do. -/
def Shape.alwaysReturns : Shape → Bool
  | .node _ _ children => lastReturns children
/-- Whether the last of some statements returns on every way. -/
def Shape.lastReturns : List Shape → Bool
  | [] => false
  | [.node _ kind children] =>
    match kind with
    | .returnStmt => true
    | .ifStmt => Shape.blocksReturn children == (true, 2)
    | _ => false
  | _ :: second :: rest => lastReturns (second :: rest)
/-- Whether all blocks among some nodes return on every way, and how many blocks there are. -/
def Shape.blocksReturn : List Shape → Bool × Nat
  | [] => (true, 0)
  | .node _ kind children :: rest =>
    let (all, count) := blocksReturn rest
    if kind = .block then (lastReturns children && all, count + 1) else (all, count)
end

namespace Workspace

/-- The body of a function. -/
def functionBody (tree : Tree) (function : NodeId) : Except Fault NodeId := do
  let _ ← tree.nodeOfKind function .functionDecl
  match tree.childOfKind? function .block with
  | some body => .ok body
  | none => .error (.unexpectedNode function "function body" "no block")

/-- Add a node that stands in a scope. -/
def addPlaced (parent : NodeId) (kind : NodeKind) (text : String) (position : Position) (scope : ScopeId) :
    Step Workspace NodeId :=
  modifyGet fun workspace =>
    let (id, tree) := workspace.tree.add parent kind text position
    (id, { workspace with tree := tree.update id fun node => { node with scope := some scope } })

/-- Let a function return `null` at its end, if its end can be reached. -/
def closeBody (function : NodeId) : Step Workspace (Option NodeId) := do
  let body ← askTree (fun tree => functionBody tree function)
  if ((← get).tree.shape body).alwaysReturns then pure none
  else
    let scope ← askTree (fun tree => tree.scopeOf body)
    let node ← askTree (fun tree => tree.node body)
    let statement ← addPlaced body .returnStmt "return" node.position scope
    let _ ← addPlaced statement (.literal .null) "null" node.position scope
    pure (some statement)

end Workspace

end SoftTyping
