/-!
# Handles

Nodes, symbols, scopes and type variables are named by their place in the order of creation. The handles of symbols and
scopes also carry the generation of the table that made them, so that one kept from an earlier run is told apart.
-/

namespace SoftTyping

/-- The number of a run. After 2^32 runs the numbers begin again. -/
abbrev Generation := UInt32

/-- The place of a node in its tree. -/
structure NodeId where
  index : Nat
deriving DecidableEq, Repr

/-- The place of a symbol in the table of one run. -/
structure SymbolId where
  generation : Generation
  index : Nat
deriving DecidableEq, Repr

/-- The place of a scope in the table of one run. -/
structure ScopeId where
  generation : Generation
  index : Nat
deriving DecidableEq, Repr

/-- The place of a type variable among all of a run. -/
structure TypeVarId where
  index : Nat
deriving DecidableEq, Repr

/-- The code whose types are inferred together: one function, or all code outside functions. -/
inductive BodyId where
  | global
  | function (id : SymbolId)
deriving DecidableEq, Repr

/-- The function of a body, if it is one. -/
def BodyId.function? : BodyId → Option SymbolId
  | .global => none
  | .function id => some id

/-! ## Order -/

/-- Symbols are ordered by generation, then by place. -/
def SymbolId.le (a b : SymbolId) : Bool :=
  a.generation < b.generation || (a.generation == b.generation && a.index ≤ b.index)

/-- The global body comes first, then the functions by their symbols. -/
def BodyId.le : BodyId → BodyId → Bool
  | .global, _ => true
  | .function _, .global => false
  | .function a, .function b => a.le b

/-- A sorted list with a further item. -/
def insertBy {α : Type} (le : α → α → Bool) (item : α) : List α → List α
  | [] => [item]
  | other :: rest => if le item other then item :: other :: rest else other :: insertBy le item rest

/-- A list in order. Sorting by insertion recurses on the list itself, so that it can be evaluated in proofs. -/
def sortBy {α : Type} (le : α → α → Bool) (items : List α) : List α := items.foldr (insertBy le) []

/-! ## How handles are shown -/

def NodeId.render (id : NodeId) : String := s!"node#{id.index}"

def SymbolId.render (id : SymbolId) : String := s!"symbol#{id.index}@{id.generation}"

def ScopeId.render (id : ScopeId) : String := s!"scope#{id.index}@{id.generation}"

def TypeVarId.render (id : TypeVarId) : String := s!"T{id.index}"

def BodyId.render : BodyId → String
  | .global => "global"
  | .function id => "method " ++ id.render

end SoftTyping
