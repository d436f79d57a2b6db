import SoftTyping.OrderedMap
import SoftTyping.Handle

/-!
# Unions of types

A union is a set of types. Its members are kept by their absolute names, in the order in which they came in; the order
shows in its text and nowhere else. Two unions count as equal (`==`) when they hold the same names.
-/

namespace SoftTyping

/-- A set of types, by their absolute names. -/
structure Union where
  members : OrderedMap String SymbolId
deriving Inhabited

namespace Union

/-- The union without members. -/
def empty : Union := ⟨∅⟩

instance : EmptyCollection Union := ⟨empty⟩

/-- The union of one type. -/
def single (name : String) (id : SymbolId) : Union := ⟨(∅ : OrderedMap String SymbolId).insert name id⟩

/-- The union with one more member; a name that is there already takes the new symbol. -/
def insert (u : Union) (name : String) (id : SymbolId) : Union := ⟨u.members.insert name id⟩

/-- The union without a member. -/
def erase (u : Union) (name : String) : Union := ⟨u.members.erase name⟩

/-- The union with every member of another. -/
def extend (u other : Union) : Union := ⟨u.members.union other.members⟩

/-- Whether a name is a member. -/
def contains (u : Union) (name : String) : Bool := u.members.contains name

/-- Whether a type is a member, under whatever name. -/
def containsSymbol (u : Union) (id : SymbolId) : Bool := u.members.values.contains id

/-- The names, in the order in which they came in. -/
def names (u : Union) : List String := u.members.keys

/-- The types, in the order in which their names came in. -/
def symbols (u : Union) : List SymbolId := u.members.values

/-- How many members the union has. -/
def size (u : Union) : Nat := u.members.size

/-- Whether the union has no member. -/
def isEmpty (u : Union) : Bool := u.members.isEmpty

/-- The members that pass a test. -/
def filter (u : Union) (test : String × SymbolId → Bool) : Union := ⟨u.members.filter test⟩

/-- The names by their bytes. -/
def sortedNames (u : Union) : List String := u.names.mergeSort (fun a b => decide (a ≤ b))

/-- Whether two unions hold the same names. -/
def sameNames (u v : Union) : Bool := u.size == v.size && u.names.all v.contains

instance : BEq Union := ⟨sameNames⟩

/-- The names in braces, with bars between them. -/
def render (u : Union) : String := "\x7b" ++ " | ".intercalate u.names ++ "\x7d"

end Union

/-- What is known of the type of one variable: every value lies in the lower bound's types as far as they are known, and
an empty upper bound stands for no bound. The bounds of literals and of parameters are fixed. -/
structure Bounds where
  lower : Union := ∅
  upper : Union := ∅
  fixed : Bool := false
deriving BEq

namespace Bounds

instance : Inhabited Bounds := ⟨{}⟩

/-- The bounds of a value whose type is given. -/
def ofGiven (u : Union) : Bounds := ⟨u, u, true⟩

/-- The bounds of a value whose type has been found. -/
def ofFound (u : Union) : Bounds := ⟨u, u, false⟩

end Bounds

end SoftTyping
