import SoftTyping.SymbolTable.Chain

/-!
# Declaring and looking up names

Symbols are filed under the lower case of their names, in the order of their declaration; a lookup takes the first one
that fits. A lookup sees one scope only: where else to look is for the resolvers to say.
-/

namespace SoftTyping.SymbolTable

open Text

/-- Declare a symbol: it is added to the table, belongs to the home of `scope`, and is filed where the home keeps its
declarations. -/
def define (scope : ScopeId) (symbol : Symbol) : Step SymbolTable SymbolId := do
  let home ← Step.query (fun table => table.variableScope scope)
  let storage ← Step.query (fun table => table.storageScope scope)
  let id ← addDetached { symbol with scope := some home }
  updateScope storage fun entry => { entry with symbols := fileUnder entry.symbols (lowerCase symbol.name) id }
  pure id

/-- Declare an alias in a namespace block. -/
def defineUse (block : ScopeId) (symbol : Symbol) : Step SymbolTable SymbolId := do
  let id ← addDetached { symbol with scope := some block }
  let entry ← Step.query (fun table => table.scope block)
  match entry.kind with
  | .namespaceBlock storage uses =>
    updateScope block fun entry =>
      { entry with kind := .namespaceBlock storage (fileUnder uses (lowerCase symbol.name) id) }
    pure id
  | other => throw (.unexpectedScope "namespace" other.label)

/-- The symbols whose names have the same lower case as `name`, in the order of their declaration. -/
def symbolsNamed (table : SymbolTable) (scope : ScopeId) (name : String) : Except Fault (List SymbolId) := do
  let storage ← table.storageScope scope
  let entry ← table.scope storage
  .ok ((entry.symbols.get? (lowerCase name)).getD [])

/-- The aliases of a namespace block whose names have the same lower case as `name`; no other scope has any. -/
def usesNamed (table : SymbolTable) (block : ScopeId) (name : String) : Except Fault (List SymbolId) := do
  match (← table.scope block).kind with
  | .namespaceBlock _ uses => .ok ((uses.get? (lowerCase name)).getD [])
  | _ => .ok []

/-- The first alias of a name. -/
def useNamed? (table : SymbolTable) (block : ScopeId) (name : String) : Except Fault (Option SymbolId) := do
  .ok (← table.usesNamed block name).head?

/-- Whether a symbol is one that a lookup of `name` asks for. -/
def fits (table : SymbolTable) (name : String) (rule : CaseRule) (accept : Symbol → Bool) (id : SymbolId) : Bool :=
  match table.symbol? id with
  | some symbol => (rule = .insensitive || symbol.name = name) && accept symbol
  | none => false

/-- The first symbol that is declared in a scope under a name and is accepted. -/
def find? (table : SymbolTable) (scope : ScopeId) (name : String) (rule : CaseRule) (accept : Symbol → Bool) :
    Except Fault (Option SymbolId) := do
  .ok ((← table.symbolsNamed scope name).find? (table.fits name rule accept))

/-- The first built-in of a name that is accepted; the case of letters does not matter. -/
def findCore? (table : SymbolTable) (name : String) (accept : Symbol → Bool) : Option SymbolId :=
  match table.find? table.coreScope name .insensitive accept with
  | .ok found => found
  | .error _ => none

/-- The built-in type of a name. -/
def coreType? (table : SymbolTable) (name : String) : Option SymbolId :=
  table.findCore? name (fun symbol => symbol.type?.isSome)

/-- The built-in function or operator of a name. -/
def coreMethod? (table : SymbolTable) (name : String) : Option SymbolId :=
  table.findCore? name (fun symbol => symbol.method?.isSome)

end SoftTyping.SymbolTable
