import SoftTyping.Graph.Order
import SoftTyping.Handle
import SoftTyping.OrderedMap

/-!
# The call graph

While bodies are solved, each call of a function whose overloads are not final yet is registered here. The graph then
tells which bodies wait for a function, which functions have called it, and which functions call each other in a circle.
-/

namespace SoftTyping

/-- The registered calls. -/
structure CallGraph where
  /-- The functions that have called a function. -/
  callers : OrderedMap SymbolId (List SymbolId) := ∅
  /-- The bodies that wait for the overloads of a function. -/
  waiting : OrderedMap SymbolId (List BodyId) := ∅
  /-- The functions that a body calls, with the places of the calls. -/
  calls : OrderedMap BodyId (OrderedMap SymbolId (List Nat)) := ∅

/-- What the calls between functions amount to. -/
structure RecursionReport where
  /-- The functions, each behind those that it calls; empty when there is recursion. -/
  order : List SymbolId
  /-- The groups of functions that call each other in a circle. -/
  groups : List (List SymbolId)
deriving DecidableEq

/-- The list with an element, which it holds once. -/
def includeOnce {α : Type} [BEq α] (items : List α) (item : α) : List α :=
  if items.contains item then items else items ++ [item]

namespace CallGraph

instance : EmptyCollection CallGraph := ⟨{}⟩

instance : Inhabited CallGraph := ⟨∅⟩

/-- The functions that a body calls, in the order in which they were registered. -/
def callsOf (graph : CallGraph) (caller : BodyId) : OrderedMap SymbolId (List Nat) :=
  (graph.calls.get? caller).getD ∅

/-- Register that a body waits for the overloads of the function it calls at `site`. -/
def register (graph : CallGraph) (caller : BodyId) (callee : SymbolId) (site : Nat) : CallGraph where
  callers := match caller.function? with
    | some function => graph.callers.insert callee (includeOnce ((graph.callers.get? callee).getD []) function)
    | none => graph.callers
  waiting := graph.waiting.insert callee (includeOnce ((graph.waiting.get? callee).getD []) caller)
  calls :=
    let callees := graph.callsOf caller
    graph.calls.insert caller (callees.insert callee (includeOnce ((callees.get? callee).getD []) site))

/-- Register several calls of a body. -/
def registerAll (graph : CallGraph) (caller : BodyId) (calls : List (SymbolId × Nat)) : CallGraph :=
  calls.foldl (fun graph call => graph.register caller call.1 call.2) graph

/-- Forget the calls of a body, before it is solved again. -/
def forgetCalls (graph : CallGraph) (caller : BodyId) : CallGraph :=
  { graph with calls := graph.calls.erase caller }

/-- The bodies that wait for a function, in order. -/
def waitingFor (graph : CallGraph) (callee : SymbolId) : List BodyId :=
  sortBy BodyId.le ((graph.waiting.get? callee).getD [])

/-- Nobody waits for a function any more. -/
def release (graph : CallGraph) (callee : SymbolId) : CallGraph :=
  { graph with waiting := graph.waiting.erase callee }

/-- The functions that have called a function, in order. -/
def callersOf (graph : CallGraph) (callee : SymbolId) : List SymbolId :=
  sortBy SymbolId.le ((graph.callers.get? callee).getD [])

/-- Whether no calls are registered and nobody waits. -/
def isEmpty (graph : CallGraph) : Bool := graph.calls.isEmpty && graph.waiting.isEmpty

/-- Pairs of symbols are ordered by the first, then by the second. -/
def edgeLe (a b : SymbolId × SymbolId) : Bool :=
  if a.1 = b.1 then a.2.le b.2 else a.1.le b.1

/-- The calls between functions: each callee with its caller, in order. -/
def edges (graph : CallGraph) : List (SymbolId × SymbolId) :=
  sortBy edgeLe (graph.calls.entries.flatMap fun (caller, callees) =>
    match caller.function? with
    | some function => callees.keys.map (fun callee => (callee, function))
    | none => [])

/-- The functions that a list of calls mentions, in the order in which it mentions them. -/
def endpoints (edges : List (SymbolId × SymbolId)) : List SymbolId :=
  (edges.flatMap fun (callee, caller) => [callee, caller]).eraseDups

/-- The callers of a function in a list of calls. -/
def successors (edges : List (SymbolId × SymbolId)) (callee : SymbolId) : List SymbolId :=
  (edges.filter (fun edge => edge.1 = callee)).map (·.2)

/-- What the calls between functions amount to now. -/
def recursion (graph : CallGraph) : RecursionReport :=
  let edges := graph.edges
  { order := Graph.topological (successors edges) (endpoints edges)
    groups := Graph.cyclicGroups (successors edges) (sortBy SymbolId.le (endpoints edges)) }

end CallGraph

end SoftTyping
