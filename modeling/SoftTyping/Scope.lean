import SoftTyping.OrderedMap
import SoftTyping.Handle

/-!
# Scopes

A scope is where names are declared. The declarations of a namespace lie in one scope per path, which all namespace
blocks of that path share; a block has its own aliases. The body of a function has a scope for its parameters and local
variables. A branch or a loop body is a conditional scope: what is declared in it belongs to the scope around it, and
only what it initialises is its own.
-/

namespace SoftTyping

/-- How much of the ways to a place initialise a variable: all of them, or some. -/
inductive Initialisation where
  | partially | fully
deriving DecidableEq, Repr

def Initialisation.render : Initialisation → String
  | .partially => "Partial"
  | .fully => "Full"

/-- Whether the case of letters matters in a comparison of names. -/
inductive CaseRule where
  | sensitive | insensitive
deriving DecidableEq, Repr

def CaseRule.render : CaseRule → String
  | .sensitive => "Sensitive"
  | .insensitive => "Insensitive"

/-- The kinds of scopes. -/
inductive ScopeKind where
  /-- The declarations of all namespace blocks with one path. -/
  | globalNamespace (path : String)
  /-- A namespace block: where its declarations lie, and its aliases by the lower case of their names. -/
  | namespaceBlock (storage : ScopeId) (uses : OrderedMap String (List SymbolId))
  | conditional
  /-- The body of a function. -/
  | method (id : SymbolId)

def ScopeKind.label : ScopeKind → String
  | .globalNamespace _ => "global namespace"
  | .namespaceBlock _ _ => "namespace"
  | .conditional => "conditional"
  | .method _ => "method"

/-- A place where names are declared. -/
structure Scope where
  name : String
  /-- The scope around this one. -/
  enclosing : Option ScopeId
  kind : ScopeKind
  /-- The symbols declared here, by the lower case of their names. -/
  symbols : OrderedMap String (List SymbolId) := ∅
  /-- The variables that this scope itself initialises. -/
  initialised : OrderedMap SymbolId Initialisation := ∅

namespace Scope

def isConditional (scope : Scope) : Bool :=
  match scope.kind with
  | .conditional => true
  | _ => false

def isGlobalNamespace (scope : Scope) : Bool :=
  match scope.kind with
  | .globalNamespace _ => true
  | _ => false

/-- Whether the scope is a namespace block or the scope of a namespace's declarations. -/
def isNamespace (scope : Scope) : Bool :=
  match scope.kind with
  | .globalNamespace _ | .namespaceBlock _ _ => true
  | _ => false

/-- The symbols declared here: the names in the order of their first declaration, and the symbols of one name in the
order of theirs. -/
def allSymbols (scope : Scope) : List SymbolId := scope.symbols.values.flatten

end Scope

/-- Put a symbol behind those that are filed under a key. -/
def fileUnder (files : OrderedMap String (List SymbolId)) (key : String) (id : SymbolId) :
    OrderedMap String (List SymbolId) :=
  files.insert key ((files.get? key).getD [] ++ [id])

end SoftTyping
