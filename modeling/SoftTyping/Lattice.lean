import SoftTyping.Builtin.Standard
import SoftTyping.Graph.Distance

/-!
# The lattice of types

The lattice is read off the types of a symbol table. An edge leads from a type to each of its parents, and a class without
parents lies directly below `mixed`. A type promotes to another at the level that is the length of a shortest path
between them; it converts to another through one of its conversions, and that costs one level more. A union is normal when
none of its members promotes to another.
-/

namespace SoftTyping

/-- What the lattice knows of one type. -/
structure LatticeEntry where
  id : SymbolId
  name : String
  conversions : List SymbolId
  /-- The types to which it promotes, itself included, each with its level. -/
  ancestors : List (SymbolId × Nat)

/-- The types of a table with their promotions and conversions. -/
structure Lattice where
  entries : List LatticeEntry
  /-- The type that is compatible with every other. -/
  erroneous : SymbolId
  /-- The type of all values, if the built-in libraries declare it. -/
  mixed : Option SymbolId

namespace SymbolTable

/-- The types of a table, in the order of their creation. -/
def types (table : SymbolTable) : List (SymbolId × TypeData) :=
  table.allSymbols.filterMap fun (id, symbol) => symbol.type?.map fun data => (id, data)

/-- The parents of a type, those left out that are no types; a class without parents is put below `mixed`. -/
def parentsOf (types : List (SymbolId × TypeData)) (mixed : Option SymbolId) (id : SymbolId) : List SymbolId :=
  match types.find? (fun entry => entry.1 = id) with
  | none => []
  | some (_, data) =>
    let parents :=
      if data.parents.isEmpty && data.kind = .classType then (mixed.filter (fun top => top != id)).toList
      else data.parents
    parents.filter (fun parent => types.any (fun entry => entry.1 = parent))

end SymbolTable

namespace Lattice

/-- The lattice of all types that are now in a table. -/
def ofTable (table : SymbolTable) : Lattice :=
  let types := table.types
  let mixed := table.coreType? mixedName
  { entries := types.map fun (id, data) => {
      id
      name := data.absoluteName
      conversions := data.conversions
      ancestors := Graph.distances (SymbolTable.parentsOf types mixed) types.length id }
    erroneous := table.erroneousType
    mixed }

/-- What the lattice knows of a type. -/
def entry? (lattice : Lattice) (id : SymbolId) : Option LatticeEntry :=
  lattice.entries.find? (fun entry => entry.id = id)

/-- The name of a type. -/
def nameOf? (lattice : Lattice) (id : SymbolId) : Option String :=
  (lattice.entry? id).map (·.name)

/-- The first type of a name; the case of the letters `a` to `z` does not matter. -/
def typeNamed? (lattice : Lattice) (name : String) : Option SymbolId :=
  (lattice.entries.find? (fun entry => entry.name.toLower = name.toLower)).map (·.id)

/-- The union of one type; empty for a symbol that is no type. -/
def unionOf (lattice : Lattice) (id : SymbolId) : Union :=
  match lattice.nameOf? id with
  | some name => .single name id
  | none => ∅

/-- The union of the erroneous type. -/
def erroneousUnion (lattice : Lattice) : Union := lattice.unionOf lattice.erroneous

/-- The union of the type of all values; without such a type, that of the erroneous one. -/
def mixedUnion (lattice : Lattice) : Union :=
  match lattice.mixed with
  | some mixed => lattice.unionOf mixed
  | none => lattice.erroneousUnion

/-- How many steps to a parent lead from one type to another at least. -/
def promotionLevel? (lattice : Lattice) (source target : SymbolId) : Option Nat :=
  if source = target then some 0
  else match lattice.entry? source with
    | none => none
    | some entry => (entry.ancestors.find? (fun ancestor => ancestor.1 = target)).map (·.2)

/-- What it costs to reach a type through one conversion. -/
def conversionLevel? (lattice : Lattice) (source target : SymbolId) : Option Nat :=
  match lattice.entry? source with
  | none => none
  | some entry =>
    (entry.conversions.filterMap (fun converted => lattice.promotionLevel? converted target)).min?.map (· + 1)

/-- Whether one type lies properly below another. -/
def isBelow (lattice : Lattice) (source target : SymbolId) : Bool :=
  source != target && (lattice.promotionLevel? source target).isSome

/-- The union without the members that promote to another member. -/
def normalize (lattice : Lattice) (union : Union) : Union :=
  union.filter fun (_, id) => !union.symbols.any (lattice.isBelow id)

/-- The normal union of two unions. -/
def join (lattice : Lattice) (left right : Union) : Union :=
  lattice.normalize (left.extend right)

end Lattice

end SoftTyping
