import SoftTyping.OrderedMap
import SoftTyping.Union

/-!
# Bindings

A binding is one way to give the type variables of a body their bounds. It counts the implicit conversions it commits to:
those of the calls it makes, and the parameters it takes as convertible.
-/

namespace SoftTyping

/-- One way to give the type variables of a body their bounds. -/
structure Binding where
  body : BodyId
  bounds : OrderedMap TypeVarId Bounds := ∅
  /-- The calls that convert an argument. -/
  convertibleCalls : List TypeVarId := []
  /-- The places of the parameters that take converted arguments. -/
  convertibleParameters : List Nat := []

namespace Binding

/-- The bounds of a variable; a variable that has none is unbounded. -/
def boundsOf (binding : Binding) (id : TypeVarId) : Bounds := (binding.bounds.get? id).getD {}

/-- Record whether a call converts an argument. -/
def recordCall (binding : Binding) (call : TypeVarId) (converting : Bool) : Binding :=
  if converting then
    if call ∈ binding.convertibleCalls then binding
    else { binding with convertibleCalls := binding.convertibleCalls ++ [call] }
  else { binding with convertibleCalls := binding.convertibleCalls.filter (fun other => other != call) }

/-- Record that a parameter takes converted arguments. -/
def recordParameter (binding : Binding) (index : Nat) : Binding :=
  if index ∈ binding.convertibleParameters then binding
  else { binding with convertibleParameters := binding.convertibleParameters ++ [index] }

/-- How many implicit conversions the binding commits to. -/
def convertibleApplications (binding : Binding) : Nat :=
  binding.convertibleCalls.length + binding.convertibleParameters.length

end Binding

end SoftTyping
