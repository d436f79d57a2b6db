import SoftTyping.SymbolTable

/-!
# Scopes around a scope

The chain of a scope is the scope itself and the scopes around it, innermost first. Every question about where a scope
stands is a question about its chain. The first scope of the chain that is no branch or loop body is its home: what is
declared in the scope belongs there.
-/

namespace SoftTyping.SymbolTable

/-- At most `length` scopes of the chain of `id`. -/
def chainWithin (table : SymbolTable) : (length : Nat) → ScopeId → List (ScopeId × Scope)
  | 0, _ => []
  | length + 1, id =>
    match table.scope? id with
    | none => []
    | some scope => (id, scope) :: match scope.enclosing with
      | none => []
      | some outer => table.chainWithin length outer

/-- The chain of `id`. A scope is made after the scope around it, so its place bounds the length. -/
def chain (table : SymbolTable) (id : ScopeId) : List (ScopeId × Scope) :=
  table.chainWithin (id.index + 1) id

/-- The nearest scope that is no branch or loop body. -/
def home (table : SymbolTable) (id : ScopeId) : Except Fault (ScopeId × Scope) := do
  let scope ← table.scope id
  match (table.chain id).find? (fun entry => !entry.2.isConditional) with
  | some entry => .ok entry
  | none => .error (.unexpectedScope "enclosed conditional" scope.name)

/-- The scope in which variables are declared: the function or the namespace block. -/
def variableScope (table : SymbolTable) (id : ScopeId) : Except Fault ScopeId := do
  .ok (← table.home id).1

/-- The scope that keeps the declarations: for a namespace block, that of its namespace. -/
def storageScope (table : SymbolTable) (id : ScopeId) : Except Fault ScopeId := do
  let (home, scope) ← table.home id
  match scope.kind with
  | .namespaceBlock storage _ => .ok storage
  | _ => .ok home

/-- The function around a scope, if there is one. -/
def enclosingMethod (table : SymbolTable) (id : ScopeId) : Except Fault (Option SymbolId) := do
  match (← table.home id).2.kind with
  | .method function => .ok (some function)
  | _ => .ok none

/-- The nearest namespace block, or scope of a namespace's declarations. -/
def enclosingNamespace (table : SymbolTable) (id : ScopeId) : Except Fault ScopeId := do
  let scope ← table.scope id
  match (table.chain id).find? (fun entry => entry.2.isNamespace) with
  | some entry => .ok entry.1
  | none => .error (.unexpectedScope "scope enclosed by a namespace" scope.name)

/-- The path of the namespace around a scope. -/
def namespacePath (table : SymbolTable) (id : ScopeId) : Except Fault String := do
  let block ← table.enclosingNamespace id
  let storage ← table.storageScope block
  match (← table.scope storage).kind with
  | .globalNamespace path => .ok path
  | other => .error (.unexpectedScope "global namespace" other.label)

/-- The absolute form of a name that is declared in the namespace around a scope. -/
def absoluteName (table : SymbolTable) (id : ScopeId) (name : String) : Except Fault String := do
  .ok ((← table.namespacePath id) ++ name)

/-- The names of a chain up to the first scope of a namespace's declarations. -/
def namesToNamespace : List (ScopeId × Scope) → List String
  | [] => []
  | (_, scope) :: rest => scope.name :: if scope.isGlobalNamespace then [] else namesToNamespace rest

/-- The names of the scopes around a scope and of the scope itself, outermost first, each with a point behind it. -/
def scopePath (table : SymbolTable) (id : ScopeId) : Except Fault String := do
  let _ ← table.scope id
  .ok (String.join ((namesToNamespace (table.chain id)).reverse.map (· ++ ".")))

end SoftTyping.SymbolTable
