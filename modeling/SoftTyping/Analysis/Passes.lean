import SoftTyping.Analysis.Constraints
import SoftTyping.Analysis.Declarations
import SoftTyping.Analysis.References

/-!
# The passes

Each pass goes over the statements of a program once, in order, and does for each node what its kind asks for: the first
declares names, the second binds and checks them, the third makes the constraints. A pass recurses on the shape that the
tree had when the pass began.
-/

namespace SoftTyping.Workspace

/-! ## Declaring -/

mutual
/-- Note the scope of an expression and of everything in it. -/
def placeExpression (scope : ScopeId) : Shape → Step Workspace Unit
  | .node id _ children => do
    place id scope
    placeExpressions scope children
/-- Note the scope of expressions and of everything in them. -/
def placeExpressions (scope : ScopeId) : List Shape → Step Workspace Unit
  | [] => pure ()
  | expression :: rest => do
    placeExpression scope expression
    placeExpressions scope rest
end

/-- Note the scope of nodes, but not of what is below them. -/
def placeEach (scope : ScopeId) : List Shape → Step Workspace Unit
  | [] => pure ()
  | shape :: rest => do
    place shape.id scope
    placeEach scope rest

mutual
/-- Declare what a statement declares in a scope. -/
def declareStatement (scope : ScopeId) : Shape → Step Workspace Unit
  | .node id kind children =>
    match kind with
    | .namespaceDecl => do
      let block ← openNamespace id
      declareStatements block children
    | .useDecl => do
      let _ ← declareAlias id scope
      placeEach scope children
    | .constantDecl => do
      let _ ← declareConstant id scope
      placeExpressions scope children
    | .classDecl => do
      let _ ← declareClass id scope
    | .functionDecl => do
      let inner ← declareFunction id scope
      declareParts inner children
    | .ifStmt | .whileStmt => do
      place id scope
      declareBranches scope children
    | .assign => do
      place id scope
      match children with
      | [target, value] =>
        placeExpression scope value
        place target.id scope
        let _ ← declareVariable target.id
      | _ => pure ()
    | _ => do
      place id scope
      placeExpressions scope children
/-- Declare what statements declare in a scope. -/
def declareStatements (scope : ScopeId) : List Shape → Step Workspace Unit
  | [] => pure ()
  | statement :: rest => do
    declareStatement scope statement
    declareStatements scope rest
/-- Declare the parameters of a function, and what its body declares. -/
def declareParts (scope : ScopeId) : List Shape → Step Workspace Unit
  | [] => pure ()
  | .node id kind children :: rest => do
    match kind with
    | .parameter =>
      let _ ← declareParameter id scope
      placeExpressions scope children
    | .block =>
      place id scope
      declareStatements scope children
    | _ => place id scope
    declareParts scope rest
/-- Open the scopes of the branches of a statement, and declare what they declare. -/
def declareBranches (scope : ScopeId) : List Shape → Step Workspace Unit
  | [] => pure ()
  | .node id kind children :: rest => do
    match kind with
    | .block =>
      let branch ← openBranch id scope
      declareStatements branch children
    | _ =>
      place id scope
      placeExpressions scope children
    declareBranches scope rest
end

/-! ## Referring -/

/-- Bind the name at one node of an expression, if it has one. -/
def referName (rules : NameRules) (id : NodeId) : NodeKind → Step Workspace Unit
  | .variableRef => do
    let _ ← bindVariable rules id
    checkWritten id
  | .identifier => do
    let _ ← bindConstant rules id
    checkDeclaredBefore id
  | .typeName => do let _ ← bindType rules id
  | .call => do let _ ← bindFunction rules id
  | _ => pure ()

mutual
/-- Bind the names in an expression. -/
def referExpression (rules : NameRules) : Shape → Step Workspace Unit
  | .node id kind children => do
    referName rules id kind
    referExpressions rules children
/-- Bind the names in expressions. -/
def referExpressions (rules : NameRules) : List Shape → Step Workspace Unit
  | [] => pure ()
  | expression :: rest => do
    referExpression rules expression
    referExpressions rules rest
end

mutual
/-- Bind the names in a statement and check what it declares. -/
def referStatement (rules : NameRules) : Shape → Step Workspace Unit
  | .node id kind children =>
    match kind with
    | .namespaceDecl => referStatements rules children
    | .useDecl => do
      let _ ← bindAlias rules id
      checkAliasUnique id
    | .classDecl => checkUnique id
    | .constantDecl => do
      checkUnique id
      referExpressions rules children
    | .functionDecl => do
      checkUnique id
      referParts rules children
      let _ ← closeBody id
    | .ifStmt => do
      let branches ← referBranches rules children
      let scope ← askTree (fun tree => tree.scopeOf id)
      mergeBranches scope branches (branches.length == 2)
    | .whileStmt => do
      let branches ← referBranches rules children
      let scope ← askTree (fun tree => tree.scopeOf id)
      mergeBranches scope branches false
    | .assign =>
      match children with
      | [target, value] => do
        referExpression rules value
        markWritten target.id
      | _ => pure ()
    | _ => referExpressions rules children
/-- Bind the names in statements and check what they declare. -/
def referStatements (rules : NameRules) : List Shape → Step Workspace Unit
  | [] => pure ()
  | statement :: rest => do
    referStatement rules statement
    referStatements rules rest
/-- Bind the names in the parameters and the body of a function. -/
def referParts (rules : NameRules) : List Shape → Step Workspace Unit
  | [] => pure ()
  | .node id kind children :: rest => do
    match kind with
    | .parameter =>
      checkUnique id
      let _ ← bindHint rules id
    | .block => referStatements rules children
    | _ => pure ()
    referParts rules rest
/-- Bind the names in the branches of a statement; the answer is the scopes of the branches. -/
def referBranches (rules : NameRules) : List Shape → Step Workspace (List ScopeId)
  | [] => pure []
  | .node id kind children :: rest => do
    let own ← match kind with
      | .block => do
        referStatements rules children
        pure [← askTree (fun tree => tree.scopeOf id)]
      | _ => do
        referExpression rules (.node id kind children)
        pure []
    let others ← referBranches rules rest
    pure (own ++ others)
end

/-! ## Constraining -/

mutual
/-- Give an expression its type variable, after those of its parts. -/
def typeExpression : Shape → Step Workspace Unit
  | .node id kind children => do
    typeExpressions children
    match kind with
    | .literal _ => let _ ← typeLiteral id
    | .variableRef => let _ ← typeRead id
    | .identifier => let _ ← typeConstant id
    | .call => let _ ← typeCall id
    | .operator => let _ ← typeOperator id
    | _ => pure ()
/-- Give expressions their type variables. -/
def typeExpressions : List Shape → Step Workspace Unit
  | [] => pure ()
  | expression :: rest => do
    typeExpression expression
    typeExpressions rest
end

mutual
/-- Make the constraints of a statement. -/
def typeStatement : Shape → Step Workspace Unit
  | .node id kind children =>
    match kind with
    | .namespaceDecl => typeStatements children
    | .functionDecl => do
      let _ ← openFunction id
      typeFirstBlock children
    | .ifStmt => do
      let body ← bodyOfNode id
      let node ← askTree (fun tree => tree.node id)
      let before := (← get).flow.headsIn body
      let branches ← typeBranches body before children
      let _ ← mergeVersions before branches (branches.length == 2) body node.position
    | .whileStmt => do
      let body ← bodyOfNode id
      let node ← askTree (fun tree => tree.node id)
      let heads ← openLoop body node.position
      typeLoop children
      closeLoop heads body
    | .assign => do
      match children with
      | _ :: value :: _ => typeExpression value
      | _ => pure ()
      let _ ← typeAssignment id
    | .returnStmt => do
      typeExpressions children
      let _ ← typeReturn id
    | .echoStmt => do
      typeExpressions children
      let _ ← typeEcho id
    | .exprStmt => typeExpressions children
    | _ => pure ()
/-- Make the constraints of statements. -/
def typeStatements : List Shape → Step Workspace Unit
  | [] => pure ()
  | statement :: rest => do
    typeStatement statement
    typeStatements rest
/-- Make the constraints of the first block among some nodes. -/
def typeFirstBlock : List Shape → Step Workspace Unit
  | [] => pure ()
  | .node _ kind children :: rest =>
    match kind with
    | .block => typeStatements children
    | _ => typeFirstBlock rest
/-- Make the constraints of the branches of a statement; each starts from the versions before them. The answer is the
versions with which the branches end. -/
def typeBranches (body : BodyId) (before : Versions) : List Shape → Step Workspace (List Versions)
  | [] => pure []
  | .node id kind children :: rest => do
    let own ← match kind with
      | .block => do
        typeStatements children
        let last := (← get).flow.headsIn body
        modifyFlow (·.restoreHeads body before)
        pure [last]
      | _ => do
        typeExpression (.node id kind children)
        pure []
    let others ← typeBranches body before rest
    pure (own ++ others)
/-- Make the constraints of the condition and the body of a loop. -/
def typeLoop : List Shape → Step Workspace Unit
  | [] => pure ()
  | .node id kind children :: rest => do
    match kind with
    | .block => typeStatements children
    | _ => typeExpression (.node id kind children)
    typeLoop rest
end

/-! ## Whole programs -/

/-- The statements of the program. -/
def statements (workspace : Workspace) : List Shape := (workspace.tree.shape Tree.root).children

/-- The first pass. -/
def declareAll : Step Workspace Unit := do
  let workspace ← get
  declareStatements workspace.table.defaultNamespace workspace.statements

/-- The second pass. -/
def referAll (rules : NameRules) : Step Workspace Unit := do
  referStatements rules (← get).statements

/-- The third pass. -/
def typeAll : Step Workspace Unit := do
  typeStatements (← get).statements

end SoftTyping.Workspace
