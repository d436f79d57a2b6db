import SoftTyping.Flow
import SoftTyping.Issue.Log
import SoftTyping.Resolver
import SoftTyping.SymbolTable.Initialised
import SoftTyping.Tree

/-!
# The workspace

The workspace is what the passes of the analysis work on: the tree, whose nodes they annotate, the symbol table, the flow
of types and the log of issues.
-/

namespace SoftTyping

namespace Tree

/-- The node at a place, which has to exist. -/
def node (tree : Tree) (id : NodeId) : Except Fault Node :=
  match tree.get? id with
  | some node => .ok node
  | none => .error (.unknownNode id)

/-- The node at a place, which has to be of a kind. -/
def nodeOfKind (tree : Tree) (id : NodeId) (kind : NodeKind) : Except Fault Node := do
  let node ← tree.node id
  if node.kind = kind then .ok node else .error (.unexpectedNode id kind.render node.kind.render)

/-- The scope of a node, which has to have one. -/
def scopeOf (tree : Tree) (id : NodeId) : Except Fault ScopeId := do
  match (← tree.node id).scope with
  | some scope => .ok scope
  | none => .error (.nodeWithoutScope id)

/-- The symbol of a node, which has to have one. -/
def symbolOf (tree : Tree) (id : NodeId) : Except Fault SymbolId := do
  match (← tree.node id).symbol with
  | some symbol => .ok symbol
  | none => .error (.nodeWithoutSymbol id)

/-- The type variable of a node, which has to have one. -/
def typeVarOf (tree : Tree) (id : NodeId) : Except Fault TypeVarId := do
  match (← tree.node id).typeVar with
  | some typeVar => .ok typeVar
  | none => .error (.nodeWithoutTypeVariable id)

end Tree

/-- What the passes of the analysis work on. -/
structure Workspace where
  tree : Tree
  table : SymbolTable
  flow : Flow
  issues : IssueLog

instance : Inhabited Workspace := ⟨⟨default, default, default, default⟩⟩

/-- How names are looked up. -/
structure NameRules where
  resolvers : List Resolver
  /-- Whether the case of letters does not matter in the names of types. -/
  caseInsensitiveTypes : Bool

namespace Workspace

/-- Do a step on the symbol table. -/
def onTable {α : Type} (step : Step SymbolTable α) : Step Workspace α :=
  Step.onPart (·.table) (fun table workspace => { workspace with table }) step

/-- Ask the symbol table a question. -/
def askTable {α : Type} (question : SymbolTable → Except Fault α) : Step Workspace α :=
  Step.query fun workspace => question workspace.table

/-- Ask the tree a question. -/
def askTree {α : Type} (question : Tree → Except Fault α) : Step Workspace α :=
  Step.query fun workspace => question workspace.tree

/-- Change a node, which has to exist. -/
def updateNode (id : NodeId) (change : Node → Node) : Step Workspace Unit := do
  let _ ← askTree (fun tree => tree.node id)
  modify fun workspace => { workspace with tree := workspace.tree.update id change }

/-- Report an issue. -/
def report (issue : Issue) : Step Workspace Unit :=
  modify fun workspace => { workspace with issues := workspace.issues.report issue }

/-- Change the flow of types. -/
def modifyFlow (change : Flow → Flow) : Step Workspace Unit :=
  modify fun workspace => { workspace with flow := change workspace.flow }

end Workspace

end SoftTyping
