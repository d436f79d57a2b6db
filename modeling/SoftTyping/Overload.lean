import SoftTyping.Union

/-!
# Overloads

A function or operator has one or more overloads, each with the types of its parameters and the type of its result. A
convertible parameter also accepts values that reach its type by an implicit conversion.
-/

namespace SoftTyping

/-- The type of one parameter of an overload. -/
structure ParameterType where
  bound : Union
  /-- Whether an argument may reach the parameter by an implicit conversion. -/
  convertible : Bool := false
deriving BEq, Inhabited

/-- One signature of a function or operator. -/
structure Overload where
  method : SymbolId
  parameters : List ParameterType
  result : Union
deriving BEq

def ParameterType.render (parameter : ParameterType) : String :=
  if parameter.convertible then "as " ++ parameter.bound.render else parameter.bound.render

namespace Overload

/-- How many parameters the overload has. -/
def arity (overload : Overload) : Nat := overload.parameters.length

/-- Whether some parameter accepts converted values. -/
def hasConvertibleParameters (overload : Overload) : Bool := overload.parameters.any (·.convertible)

def render (overload : Overload) : String :=
  "(" ++ ", ".intercalate (overload.parameters.map ParameterType.render) ++ ") -> " ++ overload.result.render

end Overload

end SoftTyping
