import SoftTyping.Namespace
import SoftTyping.Scope
import SoftTyping.Step
import SoftTyping.Symbol
import SoftTyping.Text.LowerCase

/-!
# The symbol table

The table owns all scopes and symbols of one run and names them by handles of its generation. Scopes and symbols are only
ever added. The first three scopes are the default namespace, the scope of the built-ins and the scope of the
super-globals; the first symbol is the erroneous type.
-/

namespace SoftTyping

open Text

/-- All scopes and symbols of one run. -/
structure SymbolTable where
  generation : Generation
  scopes : Array Scope
  symbols : Array Symbol
  /-- The scope of each namespace's declarations, by the lower case of its path. -/
  namespaces : OrderedMap String ScopeId

namespace SymbolTable

/-- The name of the erroneous type. -/
def erroneousName : String := "@error"

/-- The name of every conditional scope. -/
def conditionalName : String := "cScope"

/-- The table that every run starts from. -/
def new (generation : Generation) : SymbolTable where
  generation
  scopes := #[
    { name := defaultPath, enclosing := none, kind := .globalNamespace defaultPath },
    { name := "core", enclosing := none, kind := .globalNamespace "core" },
    { name := "superglobals", enclosing := none, kind := .globalNamespace "superglobals" }]
  symbols := #[{
    name := erroneousName
    position := .origin
    scope := some ⟨generation, 1⟩
    data := .type { kind := .erroneous, absoluteName := erroneousName } }]
  namespaces := (∅ : OrderedMap String ScopeId).insert defaultPath ⟨generation, 0⟩

instance : Inhabited SymbolTable := ⟨new 0⟩

/-- The scope of the default namespace's declarations. -/
def defaultNamespace (table : SymbolTable) : ScopeId := ⟨table.generation, 0⟩

/-- The scope of the built-in types, constants, functions and operators. -/
def coreScope (table : SymbolTable) : ScopeId := ⟨table.generation, 1⟩

/-- The scope of the super-globals. -/
def superGlobalScope (table : SymbolTable) : ScopeId := ⟨table.generation, 2⟩

/-- The type of expressions that have none. -/
def erroneousType (table : SymbolTable) : SymbolId := ⟨table.generation, 0⟩

/-! ## Handles -/

/-- The scope with a handle of this generation. -/
def scope? (table : SymbolTable) (id : ScopeId) : Option Scope :=
  if id.generation = table.generation then table.scopes[id.index]? else none

/-- The symbol with a handle of this generation. -/
def symbol? (table : SymbolTable) (id : SymbolId) : Option Symbol :=
  if id.generation = table.generation then table.symbols[id.index]? else none

/-- The scope with a handle; any other handle is stale. -/
def scope (table : SymbolTable) (id : ScopeId) : Except Fault Scope :=
  match table.scope? id with
  | some scope => .ok scope
  | none => .error (.staleScope id)

/-- The symbol with a handle; any other handle is stale. -/
def symbol (table : SymbolTable) (id : SymbolId) : Except Fault Symbol :=
  match table.symbol? id with
  | some symbol => .ok symbol
  | none => .error (.staleSymbol id)

/-- All symbols with their handles, in the order of their creation. -/
def allSymbols (table : SymbolTable) : List (SymbolId × Symbol) :=
  table.symbols.toList.zipIdx.map fun (symbol, index) => (⟨table.generation, index⟩, symbol)

/-! ## Changes -/

/-- The table with one more scope, and its handle. -/
def pushScope (table : SymbolTable) (scope : Scope) : ScopeId × SymbolTable :=
  (⟨table.generation, table.scopes.size⟩, { table with scopes := table.scopes.push scope })

/-- The table with one more symbol, and its handle. -/
def pushSymbol (table : SymbolTable) (symbol : Symbol) : SymbolId × SymbolTable :=
  (⟨table.generation, table.symbols.size⟩, { table with symbols := table.symbols.push symbol })

/-- Change the scope with a handle. -/
def updateScope (id : ScopeId) (change : Scope → Scope) : Step SymbolTable Unit := do
  let _ ← Step.query (fun table => table.scope id)
  modify fun table => { table with scopes := table.scopes.modify id.index change }

/-- Change the symbol with a handle. -/
def updateSymbol (id : SymbolId) (change : Symbol → Symbol) : Step SymbolTable Unit := do
  let _ ← Step.query (fun table => table.symbol id)
  modify fun table => { table with symbols := table.symbols.modify id.index change }

/-- Add a symbol that belongs to no scope. -/
def addDetached (symbol : Symbol) : Step SymbolTable SymbolId :=
  modifyGet (fun table => table.pushSymbol symbol)

/-- Add the stand-in for a name that could not be resolved. -/
def addErroneous (name : String) (position : Position) (issue : Issue) : Step SymbolTable SymbolId :=
  addDetached { name, position, data := .erroneous issue }

/-- Add a scope inside another. -/
def addScope (name : String) (enclosing : ScopeId) (kind : ScopeKind) : Step SymbolTable ScopeId := do
  let _ ← Step.query (fun table => table.scope enclosing)
  modifyGet (fun table => table.pushScope { name, enclosing := some enclosing, kind })

/-- The scope of the declarations of a namespace, if there is one for its path. -/
def findNamespace? (table : SymbolTable) (path : String) : Option ScopeId :=
  table.namespaces.get? (lowerCase (normalizePath path))

/-- The scope of the declarations of a namespace; the first mention of a path makes one. -/
def namespaceOf (path : String) : Step SymbolTable ScopeId :=
  modifyGet fun table =>
    match table.findNamespace? path with
    | some id => (id, table)
    | none =>
      let normal := normalizePath path
      let (id, table') := table.pushScope
        { name := normal, enclosing := some table.defaultNamespace, kind := .globalNamespace normal }
      (id, { table' with namespaces := table'.namespaces.insert (lowerCase normal) id })

/-! ## Names of types -/

/-- The name by which unions hold a type. -/
def typeName (table : SymbolTable) (id : SymbolId) : Except Fault String := do
  let symbol ← table.symbol id
  match symbol.data with
  | .type data => .ok data.absoluteName
  | .erroneous _ => .ok erroneousName
  | _ => .error (.unexpectedSymbol symbol.name "type")

/-- Whether a symbol was declared by a built-in library. -/
def isBuiltin (table : SymbolTable) (id : SymbolId) : Except Fault Bool := do
  let symbol ← table.symbol id
  .ok (symbol.scope = some table.coreScope || symbol.scope = some table.superGlobalScope)

end SymbolTable

end SoftTyping
