import SoftTyping.OrderedMap
import SoftTyping.Position
import SoftTyping.Fault

/-!
# The flow of types

Every value that a program computes and every version of a variable has a type variable. A constraint says where its type
comes from: it is the join of other types, the copy of one, or what a call gives. The type variables of one body are kept
together, in the order in which they were added. For each body the flow also knows the current version of every variable
at the place that has been reached.
-/

namespace SoftTyping

/-- Where the type of a value comes from. -/
inductive Constraint where
  /-- From all of the sources: an assignment, the end of branches, the head of a loop. -/
  | join (sources : List TypeVarId)
  /-- From one earlier version of a variable that is read. -/
  | copy (source : TypeVarId)
  /-- From the call of a function or operator; `site` is its place among the calls of its body. -/
  | call (callee : SymbolId) (arguments : List TypeVarId) (site : Nat)
deriving DecidableEq, Repr

def Constraint.isCall : Constraint → Bool
  | .call .. => true
  | _ => false

/-- That a type variable is a version of a variable. -/
structure VersionOf where
  symbol : SymbolId
  previous : Option TypeVarId
deriving DecidableEq, Repr

/-- The type of one value. -/
structure TypeVar where
  id : TypeVarId
  name : String
  position : Position
  body : BodyId
  constraint : Constraint
  /-- The type of a literal, a constant or a declared parameter. -/
  fixed : Option SymbolId := none
  versionOf : Option VersionOf := none
  /-- The place of a parameter among the parameters of its function. -/
  parameterIndex : Option Nat := none
deriving DecidableEq

/-- The code whose types are inferred together. -/
structure Body where
  id : BodyId
  /-- In the order in which they were added, which is also the order in which they are evaluated. -/
  typeVars : List TypeVarId := []
  parameters : List TypeVarId := []
  returns : Option TypeVarId := none
  /-- The type variables of the calls. -/
  calls : List TypeVarId := []
deriving DecidableEq

/-- The current version of each variable at one place. -/
abbrev Versions := OrderedMap SymbolId TypeVarId

/-- All type variables of a run. -/
structure Flow where
  typeVars : Array TypeVar
  bodies : OrderedMap BodyId Body
  heads : OrderedMap BodyId Versions
  /-- Every body is kept under its own handle. -/
  keyed : ∀ {id : BodyId} {body : Body}, bodies.get? id = some body → body.id = id

namespace Flow

/-- The flow that every run starts from: it has the global body. -/
def empty : Flow where
  typeVars := #[]
  bodies := (∅ : OrderedMap BodyId Body).insert .global { id := .global }
  heads := ∅
  keyed := by
    intro id body h
    rw [OrderedMap.get?_insert] at h
    split at h
    · next hid =>
      rw [← hid, ← Option.some.inj h]
    · nomatch h

instance : EmptyCollection Flow := ⟨empty⟩

instance : Inhabited Flow := ⟨empty⟩

def typeVar? (flow : Flow) (id : TypeVarId) : Option TypeVar := flow.typeVars[id.index]?

/-- The type variable with a handle, which has to exist. -/
def find (flow : Flow) (id : TypeVarId) : Except Fault TypeVar :=
  match flow.typeVar? id with
  | some var => .ok var
  | none => .error (.unknownTypeVariable id)

def body? (flow : Flow) (id : BodyId) : Option Body := flow.bodies.get? id

/-- The body with a handle; one that has not been met is empty. -/
def body (flow : Flow) (id : BodyId) : Body := (flow.body? id).getD { id }

/-- Change a type variable; nothing happens when there is none. -/
def updateVariable (flow : Flow) (id : TypeVarId) (change : TypeVar → TypeVar) : Flow :=
  { flow with typeVars := flow.typeVars.modify id.index change }

/-- Change a body, which keeps its handle; one that has not been met is added. -/
def updateBody (flow : Flow) (id : BodyId) (change : Body → Body) : Flow :=
  { flow with
    bodies := flow.bodies.insert id { change (flow.body id) with id }
    keyed := by
      intro other body h
      rw [OrderedMap.get?_insert] at h
      split at h
      · next hid =>
        rw [← Option.some.inj h, hid]
      · exact flow.keyed h }

/-- Add a type variable to a body. -/
def add (flow : Flow) (name : String) (position : Position) (body : BodyId) (constraint : Constraint) :
    TypeVarId × Flow :=
  let id : TypeVarId := ⟨flow.typeVars.size⟩
  let flow := { flow with typeVars := flow.typeVars.push { id, name, position, body, constraint } }
  (id, flow.updateBody body fun entry => { entry with
    typeVars := entry.typeVars ++ [id]
    calls := if constraint.isCall then entry.calls ++ [id] else entry.calls })

/-- The place that the next call of a body will have. -/
def nextSite (flow : Flow) (body : BodyId) : Nat := (flow.body body).calls.length

/-- The current versions in a body. -/
def headsIn (flow : Flow) (body : BodyId) : Versions := (flow.heads.get? body).getD ∅

/-- The current version of a variable in a body. -/
def head? (flow : Flow) (body : BodyId) (symbol : SymbolId) : Option TypeVarId := (flow.headsIn body).get? symbol

/-- Take all current versions of a body from an earlier place; variables first written since then have none. -/
def restoreHeads (flow : Flow) (body : BodyId) (versions : Versions) : Flow :=
  { flow with heads := flow.heads.insert body versions }

/-- Make a type variable the current version of a variable in the body to which it belongs. -/
def setHead (flow : Flow) (symbol : SymbolId) (head : TypeVarId) : Flow :=
  match flow.typeVar? head with
  | none => flow
  | some var => flow.restoreHeads var.body ((flow.headsIn var.body).insert symbol head)

end Flow

end SoftTyping
