import SoftTyping.Node

/-!
# Syntax trees

A tree is an array of nodes whose first one is the root; nodes are only ever added, below a node that exists already, so
that a child comes after its parent. `SourceTree` is a piece of program before it has a place in a tree, and `Shape` is
the view of a tree that the passes of the analysis recurse on.
-/

namespace SoftTyping

/-- A syntax tree. -/
structure Tree where
  nodes : Array Node
deriving DecidableEq, Repr

/-- A piece of program: a kind, a text, a position and the pieces below. -/
inductive SourceTree where
  | node (kind : NodeKind) (text : String) (position : Position) (children : List SourceTree)

/-- The nodes below a node, with their kinds and in their order. -/
inductive Shape where
  | node (id : NodeId) (kind : NodeKind) (children : List Shape)

namespace Shape

def id : Shape → NodeId
  | .node id _ _ => id

def kind : Shape → NodeKind
  | .node _ kind _ => kind

def children : Shape → List Shape
  | .node _ _ children => children

end Shape

namespace Tree

/-- The place of the root. -/
def root : NodeId := ⟨0⟩

/-- The tree that holds only its root. -/
def empty : Tree := ⟨#[{ kind := .root, text := "", position := .origin }]⟩

instance : Inhabited Tree := ⟨empty⟩

/-- How many nodes the tree has. -/
def size (tree : Tree) : Nat := tree.nodes.size

/-- Whether the tree has no node but its root. -/
def isEmpty (tree : Tree) : Bool := tree.size ≤ 1

/-- The node at a place. -/
def get? (tree : Tree) (id : NodeId) : Option Node := tree.nodes[id.index]?

/-- The tree with the node at a place changed, if there is one. -/
def update (tree : Tree) (id : NodeId) (change : Node → Node) : Tree :=
  ⟨tree.nodes.modify id.index change⟩

/-- Add a node behind the children of `parent`. The new node names `parent` also when there is no such node. -/
def add (tree : Tree) (parent : NodeId) (kind : NodeKind) (text : String) (position : Position) : NodeId × Tree :=
  let id : NodeId := ⟨tree.size⟩
  let grown : Tree := ⟨tree.nodes.push { kind, text, position, parent := some parent }⟩
  (id, grown.update parent (fun node => { node with children := node.children ++ [id] }))

/-- The children of a node, none for a node that is not there. -/
def children (tree : Tree) (id : NodeId) : List NodeId :=
  match tree.get? id with
  | some node => node.children
  | none => []

/-- The first child of a kind. -/
def childOfKind? (tree : Tree) (id : NodeId) (kind : NodeKind) : Option NodeId :=
  (tree.children id).find? (fun child => (tree.get? child).any (fun node => node.kind = kind))

mutual
/-- Add a piece of program, its root first, behind the children of `parent`. -/
def graft (tree : Tree) (parent : NodeId) : SourceTree → Tree
  | .node kind text position children =>
    let (id, grown) := tree.add parent kind text position
    grown.graftAll id children
/-- Add pieces of program, one after another. -/
def graftAll (tree : Tree) (parent : NodeId) : List SourceTree → Tree
  | [] => tree
  | source :: rest => (tree.graft parent source).graftAll parent rest
end

/-- The shape below a node to a given depth. -/
def shapeWithin (tree : Tree) : (depth : Nat) → NodeId → Shape
  | 0, id => .node id ((tree.get? id).elim .root (·.kind)) []
  | depth + 1, id =>
    .node id ((tree.get? id).elim .root (·.kind)) ((tree.children id).map (tree.shapeWithin depth))

/-- The shape of the whole tree below a node: no branch has more nodes than the tree. -/
def shape (tree : Tree) (id : NodeId) : Shape :=
  tree.shapeWithin tree.size id

/-- The tree of a program: its pieces below the root. -/
def ofProgram (program : List SourceTree) : Tree :=
  empty.graftAll root program

/-! ## Nodes of a tree that has been changed -/

@[simp] theorem size_update (tree : Tree) (id : NodeId) (change : Node → Node) :
    (tree.update id change).size = tree.size := by
  simp [update, size]

/-- A change reaches the node at its place and no other. -/
@[simp] theorem get?_update (tree : Tree) (id other : NodeId) (change : Node → Node) :
    (tree.update id change).get? other =
      if id.index = other.index then (tree.get? other).map change else tree.get? other := by
  simp [update, get?, Array.getElem?_modify]

end Tree

end SoftTyping
