/-!
# Distances in a finite graph

A graph is given by the neighbours of each node. `distances` explores it breadth first from one node and lists the nodes
it meets with the number of edges on a shortest path to them, nearest first. The number of layers is bounded by the
caller, who takes the number of nodes: no shortest path is longer.
-/

namespace SoftTyping.Graph

variable {α : Type} [DecidableEq α]

/-- The neighbours of a layer that have not been met before, each once. -/
def freshNeighbours (next : α → List α) (met : List (α × Nat)) (layer : List α) : List α :=
  (layer.flatMap next).eraseDups.filter (fun a => !met.any (fun entry => entry.1 = a))

/-- Explore at most `layers` layers beyond `layer`, which lies at `distance`. -/
def explore (next : α → List α) : (layers distance : Nat) → (layer : List α) → (met : List (α × Nat)) → List (α × Nat)
  | 0, _, _, met => met
  | layers + 1, distance, layer, met =>
    let fresh := freshNeighbours next met layer
    if fresh.isEmpty then met
    else explore next layers (distance + 1) fresh (met ++ fresh.map (fun a => (a, distance + 1)))

/-- The nodes at most `bound` edges from `start`, with their distances, nearest first. -/
def distances (next : α → List α) (bound : Nat) (start : α) : List (α × Nat) :=
  explore next bound 0 [start] [(start, 0)]

/-- A path of `n` edges. -/
inductive Path (next : α → List α) : Nat → α → α → Prop where
  | refl (a : α) : Path next 0 a a
  | step {n : Nat} {a b c : α} (edge : b ∈ next a) (rest : Path next n b c) : Path next (n + 1) a c

/-- Whether `target` is met from `start`. -/
def reaches (next : α → List α) (bound : Nat) (start target : α) : Bool :=
  (distances next bound start).any (fun entry => entry.1 = target)

end SoftTyping.Graph
