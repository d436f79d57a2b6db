import SoftTyping.Analysis.Workspace
import SoftTyping.Builtin.Standard

/-!
# Declarations

The first pass makes the scopes of a program and declares its names. Every declaration is made, also of a name that is
declared already: whether that is a problem is seen later, when the whole program is known.
-/

namespace SoftTyping.Workspace

/-- Note the scope in which a node stands. -/
def place (id : NodeId) (scope : ScopeId) : Step Workspace Unit := do
  let _ ← askTable (fun table => table.scope scope)
  updateNode id fun node => { node with scope := some scope }

/-- Note the scope and the symbol of a node that declares something. -/
def annotate (id : NodeId) (scope : ScopeId) (symbol : SymbolId) : Step Workspace Unit :=
  updateNode id fun node => { node with scope := some scope, symbol := some symbol }

/-- Declare a symbol for a node. -/
def declareFor (id : NodeId) (scope : ScopeId) (symbol : Symbol) : Step Workspace SymbolId := do
  let declared ← onTable (SymbolTable.define scope symbol)
  annotate id scope declared
  pure declared

/-- Open a namespace block. All blocks of one path share their declarations; each has its own aliases and knows for itself
which variables it has initialised. -/
def openNamespace (id : NodeId) : Step Workspace ScopeId := do
  let node ← askTree (fun tree => tree.nodeOfKind id .namespaceDecl)
  let storage ← onTable (SymbolTable.namespaceOf node.text)
  let scope ← onTable (SymbolTable.addScope (normalizePath node.text) storage (.namespaceBlock storage ∅))
  updateNode id fun node => { node with scope := some scope }
  pure scope

/-- Declare the alias of a use declaration; it is the last segment of the target if no other is given. -/
def declareAlias (id : NodeId) (block : ScopeId) : Step Workspace SymbolId := do
  let node ← askTree (fun tree => tree.nodeOfKind id .useDecl)
  let target ← match node.children.head? with
    | some child => askTree (fun tree => tree.node child)
    | none => throw (.unexpectedNode id "use target" "no children")
  let name ← match (← get).tree.childOfKind? id .identifier with
    | some child => do pure (← askTree (fun tree => tree.node child)).text
    | none => pure (lastSegment target.text)
  let symbol ← onTable (SymbolTable.defineUse block
    { name, position := node.position, data := .aliasOf (makeAbsolute target.text) none })
  annotate id block symbol
  pure symbol

/-- The type of the literal that a constant is declared with. -/
def literalType? (workspace : Workspace) (id : NodeId) : Option SymbolId := do
  let child ← (workspace.tree.children id).head?
  match (← workspace.tree.get? child).kind with
  | .literal kind => workspace.table.coreType? kind.typeName
  | _ => none

/-- Declare a constant. -/
def declareConstant (id : NodeId) (scope : ScopeId) : Step Workspace SymbolId := do
  let node ← askTree (fun tree => tree.nodeOfKind id .constantDecl)
  let type := (← get).literalType? id
  declareFor id scope { name := node.text, position := node.position, data := .const type }

/-- Declare a class. -/
def declareClass (id : NodeId) (scope : ScopeId) : Step Workspace SymbolId := do
  let node ← askTree (fun tree => tree.nodeOfKind id .classDecl)
  let absoluteName ← askTable (fun table => table.absoluteName scope node.text)
  declareFor id scope { name := node.text, position := node.position, data := .type { kind := .classType, absoluteName } }

/-- The modifiers of a function: the identifiers before its other children. -/
def modifiersOf (tree : Tree) (id : NodeId) : List Modifier :=
  ((((tree.children id).filterMap tree.get?).takeWhile (fun child => child.kind = .identifier)).filterMap
    (fun child => Modifier.ofKeyword? child.text)).eraseDups

/-- Declare a function and open the scope of its parameters and local variables. -/
def declareFunction (id : NodeId) (scope : ScopeId) : Step Workspace ScopeId := do
  let node ← askTree (fun tree => tree.nodeOfKind id .functionDecl)
  let modifiers := modifiersOf (← get).tree id
  let method ← onTable (SymbolTable.define scope
    { name := node.text, position := node.position, data := .method { kind := .function, modifiers, isBuiltin := false } })
  let inner ← onTable (SymbolTable.addScope (node.text ++ "()") scope (.method method))
  onTable (SymbolTable.updateSymbol method fun symbol => symbol.mapMethod fun data => { data with scope := some inner })
  annotate id scope method
  pure inner

/-- Declare a parameter of the function whose scope is given. -/
def declareParameter (id : NodeId) (scope : ScopeId) : Step Workspace SymbolId := do
  let method ← match (← askTable (fun table => table.scope scope)).kind with
    | .method method => pure method
    | other => throw (.unexpectedScope "method" other.label)
  let node ← askTree (fun tree => tree.nodeOfKind id .parameter)
  let parameter ← declareFor id scope
    { name := node.text, position := node.position, data := .var { isParameter := true } }
  onTable (SymbolTable.updateSymbol method fun symbol =>
    symbol.mapMethod fun data => { data with parameters := data.parameters ++ [parameter] })
  pure parameter

/-- Open the scope of a branch or loop body. -/
def openBranch (id : NodeId) (enclosing : ScopeId) : Step Workspace ScopeId := do
  let scope ← onTable (SymbolTable.addScope SymbolTable.conditionalName enclosing .conditional)
  updateNode id fun node => { node with scope := some scope }
  pure scope

/-- Declare the variable that is written at a node, unless its function or namespace has it already. -/
def declareVariable (id : NodeId) : Step Workspace SymbolId := do
  let scope ← askTree (fun tree => tree.scopeOf id)
  let node ← askTree (fun tree => tree.nodeOfKind id .variableRef)
  let owner ← askTable (fun table => table.variableScope scope)
  let existing ← askTable (fun table =>
    table.find? owner node.text .sensitive (fun symbol => symbol.var?.isSome))
  let symbol ← match existing with
    | some symbol => pure symbol
    | none => onTable (SymbolTable.define owner { name := node.text, position := node.position, data := .var {} })
  updateNode id fun node => { node with symbol := some symbol }
  pure symbol

end SoftTyping.Workspace
