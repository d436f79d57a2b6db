import SoftTyping.Graph.Distance

/-!
# Cycles and orders of a finite graph

`cyclicGroups` are the sets of nodes that reach each other along at least one edge, and `topological` lists the nodes of
a graph without cycles such that every edge points forward. Among the many such lists it is the reverse of the order in
which a depth-first search finishes the nodes, taking nodes and neighbours in the order given.
-/

namespace SoftTyping.Graph

variable {α : Type} [DecidableEq α]

/-- Whether some path of at least one edge leads from `a` back to `a`. -/
def onCycle (next : α → List α) (bound : Nat) (a : α) : Bool :=
  (next a).any (fun b => reaches next bound b a)

/-- The nodes that `a` reaches and that reach `a`, in the order of `nodes`. -/
def groupOf (next : α → List α) (nodes : List α) (a : α) : List α :=
  nodes.filter (fun b => reaches next nodes.length a b && reaches next nodes.length b a)

/-- The groups of nodes that lie on common cycles, each once. -/
def cyclicGroups (next : α → List α) (nodes : List α) : List (List α) :=
  ((nodes.filter (onCycle next nodes.length)).map (groupOf next nodes)).eraseDups

/-- Add `a` to the finished nodes, behind everything that can be reached from it. -/
def finish (next : α → List α) : (depth : Nat) → (finished : List α) → α → List α
  | 0, finished, _ => finished
  | depth + 1, finished, a =>
    if a ∈ finished then finished else (next a).foldl (finish next depth) finished ++ [a]

/-- The nodes in an order in which every edge points forward; none when there is a cycle. -/
def topological (next : α → List α) (nodes : List α) : List α :=
  if nodes.any (onCycle next nodes.length) then []
  else (nodes.foldl (finish next nodes.length) []).reverse

end SoftTyping.Graph
