import Mathlib.Data.List.Nodup
import SoftTyping.Tree

/-!
# Well-formed trees

In a tree that is built by adding nodes every child knows its parent, comes after it and stands below no other
(`wellFormed_ofProgram`). So the nodes below one child are not below another (`Below.disjoint`), and the shape of the tree
holds all of it (`isShape_shape`), and the pieces below its children are apart (`IsShape.apart`). What nodes are annotated
with does not matter for any of this (`Annotates`).
-/

namespace SoftTyping

attribute [ext] NodeId

/-- A node without its annotations. -/
def Node.bare (node : Node) : Node := { node with scope := none, symbol := none, typeVar := none }

theorem Node.kind_of_bare {node node' : Node} (h : node'.bare = node.bare) : node'.kind = node.kind :=
  (congrArg Node.kind h : node'.bare.kind = node.bare.kind)

theorem Node.children_of_bare {node node' : Node} (h : node'.bare = node.bare) : node'.children = node.children :=
  (congrArg Node.children h : node'.bare.children = node.bare.children)

theorem Shape.induction {P : Shape → Prop}
    (node : ∀ id kind children, (∀ child ∈ children, P child) → P (.node id kind children)) : ∀ shape, P shape
  | .node id kind children => node id kind children fun child _ => Shape.induction node child

/-- A node is shown by a shape. -/
inductive Shape.Has : Shape → NodeId → Prop where
  | here {id : NodeId} {kind : NodeKind} {children : List Shape} : Has (.node id kind children) id
  | inside {id x : NodeId} {kind : NodeKind} {child : Shape} {children : List Shape} :
    child ∈ children → Has child x → Has (.node id kind children) x

/-- A node is shown by one of some shapes. -/
def Shape.HasAny (shapes : List Shape) (id : NodeId) : Prop := ∃ shape ∈ shapes, shape.Has id

theorem Shape.hasAny_cons {shape : Shape} {shapes : List Shape} {x : NodeId} :
    HasAny (shape :: shapes) x ↔ shape.Has x ∨ HasAny shapes x := by
  simp [HasAny]

theorem Shape.has_node {id x : NodeId} {kind : NodeKind} {children : List Shape} :
    (Shape.node id kind children).Has x ↔ x = id ∨ HasAny children x := by
  constructor
  · intro h
    cases h with
    | here => exact .inl rfl
    | inside hcd hx => exact .inr ⟨_, hcd, hx⟩
  · rintro (rfl | ⟨child, hcd, hx⟩)
    · exact .here
    · exact .inside hcd hx

/-- No node is shown twice by some shapes. -/
inductive Shape.Distinct : List Shape → Prop where
  | nil : Distinct []
  | cons {id : NodeId} {kind : NodeKind} {children rest : List Shape} :
    ¬ HasAny children id → Distinct children → (∀ x, (Shape.node id kind children).Has x → ¬ HasAny rest x) →
      Distinct rest → Distinct (.node id kind children :: rest)

theorem Shape.has_id : ∀ shape : Shape, shape.Has shape.id
  | .node _ _ _ => .here

namespace Tree

variable {tree tree' : Tree} {id parent child a b c x : NodeId} {node : Node}

/-- Every child knows its parent, comes after it, and is listed once. -/
structure WellFormed (tree : Tree) : Prop where
  parent : ∀ {id child}, child ∈ tree.children id → ∃ node, tree.get? child = some node ∧ node.parent = some id
  after : ∀ {id child}, child ∈ tree.children id → id.index < child.index
  nodup : ∀ id, (tree.children id).Nodup

theorem children_of_get? (h : tree.get? id = some node) : tree.children id = node.children := by
  rw [children, h]

theorem lt_size_of_get? (h : tree.get? id = some node) : id.index < tree.size :=
  (Array.getElem?_eq_some_iff.mp h).1

theorem get?_of_lt_size (h : id.index < tree.size) : ∃ node, tree.get? id = some node :=
  ⟨_, Array.getElem?_eq_getElem h⟩

theorem get?_of_mem_children (h : child ∈ tree.children id) : ∃ node, tree.get? id = some node ∧ child ∈ node.children := by
  unfold children at h
  split at h
  · next node hnd => exact ⟨node, hnd, h⟩
  · nomatch h

theorem WellFormed.unique (hwf : tree.WellFormed) (ha : child ∈ tree.children a) (hb : child ∈ tree.children b) :
    a = b := by
  obtain ⟨node, hnd, hprt⟩ := hwf.parent ha
  obtain ⟨node', hnd', hprt'⟩ := hwf.parent hb
  rw [hnd] at hnd'
  cases hnd'
  exact Option.some.inj (hprt.symm.trans hprt')

/-! ## Nodes below a node -/

/-- A node is another one or stands below it. -/
inductive Below (tree : Tree) : NodeId → NodeId → Prop where
  | refl (a : NodeId) : Below tree a a
  | step {a b x : NodeId} (child : b ∈ tree.children a) (rest : Below tree b x) : Below tree a x

theorem Below.last (h : tree.Below a x) : x = a ∨ ∃ b, tree.Below a b ∧ x ∈ tree.children b := by
  induction h with
  | refl a => exact Or.inl rfl
  | @step a b x child _ ih =>
    rcases ih with rfl | ⟨d, hd, hx⟩
    · exact Or.inr ⟨a, .refl a, child⟩
    · exact Or.inr ⟨d, .step child hd, hx⟩

theorem Below.le (hwf : tree.WellFormed) (h : tree.Below a x) : a.index ≤ x.index := by
  induction h with
  | refl a => exact Nat.le_refl _
  | step child _ ih => exact Nat.le_trans (Nat.le_of_lt (hwf.after child)) ih

/-- What is below one child is not below another. -/
theorem Below.disjoint (hwf : tree.WellFormed) (ha : a ∈ tree.children parent) (hb : b ∈ tree.children parent)
    (hne : a ≠ b) (hax : tree.Below a x) : ¬ tree.Below b x := by
  -- A child that is below another one would be a child of one below it, but its parent is above both.
  have hap : ∀ {first second : NodeId}, first ∈ tree.children parent → second ∈ tree.children parent →
      first ≠ second → ¬ tree.Below first second := by
    intro first second hfst hsnd hne hbel
    rcases hbel.last with rfl | ⟨d, hd, hcd⟩
    · exact hne rfl
    · rw [hwf.unique hcd hsnd] at hd
      exact absurd (hd.le hwf) (Nat.not_le.mpr (hwf.after hfst))
  induction hn : x.index using Nat.strongRecOn generalizing x with
  | _ n ih =>
    intro hbx
    rcases hax.last with rfl | ⟨d, had, hxd⟩
    · exact hap hb ha (Ne.symm hne) hbx
    · rcases hbx.last with rfl | ⟨d', hbd, hxd'⟩
      · exact hap ha hb hne hax
      · cases hwf.unique hxd hxd'
        exact ih d.index (hn ▸ hwf.after hxd) had rfl hbd

/-! ## Annotations -/

/-- Two trees differ in the annotations of their nodes only. -/
def Annotates (tree tree' : Tree) : Prop := ∀ id, (tree'.get? id).map Node.bare = (tree.get? id).map Node.bare

theorem Annotates.refl (tree : Tree) : tree.Annotates tree := fun _ => rfl

section

variable (h : tree.Annotates tree')

include h

theorem Annotates.trans {tree'' : Tree} (h' : tree'.Annotates tree'') : tree.Annotates tree'' :=
  fun id => (h' id).trans (h id)

theorem Annotates.symm : tree'.Annotates tree := fun id => (h id).symm

theorem Annotates.get? (hnd : tree.get? id = some node) : ∃ node', tree'.get? id = some node' ∧ node'.bare = node.bare := by
  have hid := h id
  rw [hnd, Option.map_some] at hid
  obtain ⟨node', hnd', hbare⟩ := Option.map_eq_some_iff.mp hid
  exact ⟨node', hnd', hbare⟩

/-- What is read from the bare node is the same in both trees. -/
theorem Annotates.elim_eq {α : Type} {read : Node → α} (hread : ∀ node, read node.bare = read node) (absent : α)
    (id : NodeId) : (tree'.get? id).elim absent read = (tree.get? id).elim absent read := by
  have hid := congrArg (Option.elim · absent read) (h id)
  simpa only [Option.elim_map, Function.comp_def, hread] using hid

theorem Annotates.children_eq (id : NodeId) : tree'.children id = tree.children id := by
  have hread : ∀ tree : Tree, tree.children id = (tree.get? id).elim [] Node.children := by
    intro tree
    unfold children
    cases tree.get? id <;> rfl
  rw [hread, hread]
  exact h.elim_eq (fun _ => rfl) [] id

theorem Annotates.kind_eq (id : NodeId) : (tree'.get? id).elim NodeKind.root (·.kind) = (tree.get? id).elim .root (·.kind) :=
  h.elim_eq (fun _ => rfl) _ id

theorem Annotates.wellFormed (hwf : tree.WellFormed) : tree'.WellFormed where
  parent := by
    intro id child hcd
    rw [h.children_eq] at hcd
    obtain ⟨node, hnd, hprt⟩ := hwf.parent hcd
    obtain ⟨node', hnd', hbare⟩ := h.get? hnd
    exact ⟨node', hnd', (congrArg Node.parent hbare : node'.bare.parent = node.bare.parent).trans hprt⟩
  after := by
    intro id child hcd
    rw [h.children_eq] at hcd
    exact hwf.after hcd
  nodup := fun id => h.children_eq id ▸ hwf.nodup id

theorem Annotates.below (hbel : tree.Below a x) : tree'.Below a x := by
  induction hbel with
  | refl a => exact .refl a
  | step child _ ih => exact .step (h.children_eq _ ▸ child) ih

theorem Annotates.size_eq : tree'.size = tree.size := by
  have hle : ∀ {a b : Tree}, a.Annotates b → a.size ≤ b.size := by
    intro a b h
    by_contra hlt
    have hls : (⟨b.size⟩ : NodeId).index < a.size := Nat.lt_of_not_le hlt
    obtain ⟨node, hnd⟩ := get?_of_lt_size hls
    obtain ⟨node', hnd', _⟩ := h.get? hnd
    exact Nat.lt_irrefl _ (lt_size_of_get? hnd')
  exact Nat.le_antisymm (hle h.symm) (hle h)

theorem Annotates.shape_eq (id : NodeId) : tree'.shape id = tree.shape id := by
  rw [shape, shape, h.size_eq]
  generalize tree.size = depth
  induction depth generalizing id with
  | zero => rw [shapeWithin, shapeWithin, h.kind_eq]
  | succ depth ih => rw [shapeWithin, shapeWithin, h.kind_eq, h.children_eq, List.map_congr_left fun child _ => ih child]

end

theorem annotates_update (tree : Tree) (id : NodeId) {change : Node → Node} (h : ∀ node, (change node).bare = node.bare) :
    tree.Annotates (tree.update id change) := by
  intro other
  rw [get?_update]
  split
  · rw [Option.map_map]
    exact congrArg (fun f => (tree.get? other).map f) (funext h)
  · rfl

/-! ## Adding nodes -/

/-- The tree after a node has been added below one that is there: the new node, its parent with one more child, and all
others as before. -/
theorem get?_add (kind : NodeKind) (text : String) (position : Position) (hprt : parent.index < tree.size)
    (other : NodeId) :
    (tree.add parent kind text position).2.get? other =
      if other.index = tree.size then some { kind, text, position, parent := some parent }
      else if other.index = parent.index then
        (tree.get? other).map fun node => { node with children := node.children ++ [⟨tree.size⟩] }
      else tree.get? other := by
  simp only [add, get?_update]
  by_cases hnew : other.index = tree.size
  · rw [if_pos hnew, if_neg (by omega)]
    simp [get?, hnew, size]
  · have hold : (⟨tree.nodes.push { kind, text, position, parent := some parent }⟩ : Tree).get? other =
        tree.get? other := by
      unfold size at hnew
      simp [get?, Array.getElem?_push, hnew]
    rw [if_neg hnew, hold]
    by_cases hoth : other.index = parent.index
    · rw [if_pos hoth.symm, if_pos hoth]
    · rw [if_neg (Ne.symm hoth), if_neg hoth]

theorem size_add (tree : Tree) (parent : NodeId) (kind : NodeKind) (text : String) (position : Position) :
    (tree.add parent kind text position).2.size = tree.size + 1 := by
  simp [add, size, update]

theorem children_add (kind : NodeKind) (text : String) (position : Position) (hprt : parent.index < tree.size)
    (other : NodeId) :
    (tree.add parent kind text position).2.children other =
      if other.index = tree.size then []
      else if other.index = parent.index then tree.children other ++ [⟨tree.size⟩]
      else tree.children other := by
  by_cases hnew : other.index = tree.size
  · rw [if_pos hnew, children, get?_add kind text position hprt, if_pos hnew]
  · by_cases hoth : other.index = parent.index
    · obtain ⟨node, hnd⟩ := get?_of_lt_size (hoth.symm ▸ hprt : other.index < tree.size)
      rw [if_neg hnew, if_pos hoth, children, get?_add kind text position hprt, if_neg hnew, if_pos hoth,
        children, hnd]
      rfl
    · rw [if_neg hnew, if_neg hoth, children, get?_add kind text position hprt, if_neg hnew, if_neg hoth,
        children]

theorem WellFormed.add (hwf : tree.WellFormed) (kind : NodeKind) (text : String) (position : Position)
    (hprt : parent.index < tree.size) : (tree.add parent kind text position).2.WellFormed := by
  have hold : ∀ {id child : NodeId}, child ∈ tree.children id → child.index < tree.size := by
    intro id child hcd
    obtain ⟨node, hnd, _⟩ := hwf.parent hcd
    exact lt_size_of_get? hnd
  have hcas : ∀ {id child : NodeId}, child ∈ (tree.add parent kind text position).2.children id →
      child ∈ tree.children id ∨ (child = ⟨tree.size⟩ ∧ id = parent) := by
    intro id child hcd
    rw [children_add kind text position hprt] at hcd
    split at hcd
    · nomatch hcd
    · split at hcd
      · next hid =>
        rcases List.mem_append.mp hcd with hcd | hcd
        · exact Or.inl hcd
        · exact Or.inr ⟨List.mem_singleton.mp hcd, NodeId.ext hid⟩
      · exact Or.inl hcd
  refine ⟨fun {id child} hcd => ?_, fun {id child} hcd => ?_, fun id => ?_⟩
  · rcases hcas hcd with hcd | ⟨rfl, rfl⟩
    · obtain ⟨node, hnd, hndParent⟩ := hwf.parent hcd
      have hlt := hold hcd
      rw [get?_add kind text position hprt, if_neg (by omega), hnd]
      split
      · exact ⟨_, rfl, hndParent⟩
      · exact ⟨node, rfl, hndParent⟩
    · rw [get?_add kind text position hprt, if_pos rfl]
      exact ⟨_, rfl, rfl⟩
  · rcases hcas hcd with hcd | ⟨rfl, rfl⟩
    · exact hwf.after hcd
    · exact hprt
  · rw [children_add kind text position hprt]
    split
    · exact List.nodup_nil
    · split
      · refine List.nodup_append.mpr ⟨hwf.nodup id, List.nodup_singleton _, fun first hfst second hsnd => ?_⟩
        rw [List.mem_singleton.mp hsnd]
        rintro rfl
        exact absurd (hold hfst) (Nat.lt_irrefl _)
      · exact hwf.nodup id

mutual
theorem wellFormed_graft : ∀ (source : SourceTree) {tree : Tree} {parent : NodeId}, tree.WellFormed →
    parent.index < tree.size → (tree.graft parent source).WellFormed ∧ tree.size ≤ (tree.graft parent source).size
  | .node kind text position children, tree, parent, hwf, hprt => by
    have hsz := size_add tree parent kind text position
    have hnew : (⟨tree.size⟩ : NodeId).index < (tree.add parent kind text position).2.size := by
      rw [hsz]
      exact Nat.lt_succ_self _
    obtain ⟨hrs, hle⟩ := wellFormed_graftAll children (hwf.add kind text position hprt) hnew
    exact ⟨hrs, Nat.le_trans (by omega) hle⟩
theorem wellFormed_graftAll : ∀ (sources : List SourceTree) {tree : Tree} {parent : NodeId}, tree.WellFormed →
    parent.index < tree.size → (tree.graftAll parent sources).WellFormed ∧ tree.size ≤ (tree.graftAll parent sources).size
  | [], _, _, hwf, _ => ⟨hwf, Nat.le_refl _⟩
  | source :: rest, _, _, hwf, hprt => by
    obtain ⟨hfst, hle⟩ := wellFormed_graft source hwf hprt
    obtain ⟨hrs, hle'⟩ := wellFormed_graftAll rest hfst (Nat.lt_of_lt_of_le hprt hle)
    exact ⟨hrs, Nat.le_trans hle hle'⟩
end

theorem wellFormed_ofProgram (program : List SourceTree) : (ofProgram program).WellFormed := by
  have hem : empty.WellFormed := by
    have hno : ∀ id, empty.children id = [] := by
      intro id
      unfold children
      split
      · next node hnd =>
        obtain ⟨index⟩ := id
        cases index with
        | zero =>
          cases hnd
          rfl
        | succ index => simp [empty, get?] at hnd
      · rfl
    refine ⟨fun {id child} h => ?_, fun {id child} h => ?_, fun id => ?_⟩
    · rw [hno] at h
      cases h
    · rw [hno] at h
      cases h
    · rw [hno]
      exact List.nodup_nil
  exact (wellFormed_graftAll program hem (by decide)).1

/-! ## Shapes -/

/-- A shape shows a node of a tree with its kind and everything below it. -/
inductive IsShape (tree : Tree) : Shape → Prop where
  | node {id : NodeId} {kind : NodeKind} {children : List Shape} :
    (tree.get? id).elim .root (·.kind) = kind → children.map Shape.id = tree.children id →
      (∀ child ∈ children, IsShape tree child) → IsShape tree (.node id kind children)

theorem isShape_shapeWithin (hwf : tree.WellFormed) {depth : Nat} (h : tree.size ≤ depth + id.index) :
    tree.IsShape (tree.shapeWithin depth id) := by
  induction depth generalizing id with
  | zero =>
    have hno : tree.get? id = none := Array.getElem?_eq_none (by simpa [size] using h)
    exact .node rfl (by rw [children, hno]; rfl) (by simp)
  | succ depth ih =>
    refine .node rfl ?_ fun shape hsh => ?_
    · rw [List.map_map]
      refine (List.map_congr_left fun child _ => ?_).trans (List.map_id _)
      cases depth <;> rfl
    · obtain ⟨child, hcd, rfl⟩ := List.mem_map.mp hsh
      have := hwf.after hcd
      exact ih (by omega)

theorem id_shape (tree : Tree) (id : NodeId) : (tree.shape id).id = id := by
  unfold shape
  cases tree.size <;> rfl

theorem isShape_shape (hwf : tree.WellFormed) (id : NodeId) : tree.IsShape (tree.shape id) :=
  isShape_shapeWithin hwf (Nat.le_add_right _ _)

theorem Annotates.isShape (h : tree.Annotates tree') {shape : Shape} (hsh : tree.IsShape shape) :
    tree'.IsShape shape := by
  induction hsh with
  | @node id kind children hk hch _ ih => exact .node ((h.kind_eq id).trans hk) ((h.children_eq id).symm ▸ hch) ih

/-! ## Pieces of a tree -/

/-- Shapes show pieces of a tree that have no node in common. -/
structure Apart (tree : Tree) (shapes : List Shape) : Prop where
  isShape : ∀ shape ∈ shapes, tree.IsShape shape
  isThere : ∀ shape ∈ shapes, ∃ node, tree.get? shape.id = some node
  disjoint : shapes.Pairwise fun a b => ∀ x, tree.Below a.id x → ¬ tree.Below b.id x

/-- A node is in one of some pieces of a tree. -/
def Within (tree : Tree) (shapes : List Shape) (id : NodeId) : Prop := ∃ shape ∈ shapes, tree.Below shape.id id

variable {shape : Shape} {shapes : List Shape} {kind : NodeKind}

theorem IsShape.mem_children (h : tree.IsShape (.node id kind shapes)) (hsh : shape ∈ shapes) :
    shape.id ∈ tree.children id := by
  obtain ⟨_, hids, _⟩ := h
  rw [← hids]
  exact List.mem_map_of_mem hsh

theorem Apart.sublist {others : List Shape} (h : tree.Apart shapes) (hsub : others.Sublist shapes) : tree.Apart others :=
  ⟨fun shape hsh => h.isShape shape (hsub.subset hsh), fun shape hsh => h.isThere shape (hsub.subset hsh),
    h.disjoint.sublist hsub⟩

theorem Apart.tail (h : tree.Apart (shape :: shapes)) : tree.Apart shapes := h.sublist (List.sublist_cons_self shape shapes)

/-- The children of a node are apart. -/
theorem IsShape.apart (hwf : tree.WellFormed) (h : tree.IsShape (.node id kind shapes)) : tree.Apart shapes := by
  have hmem : ∀ {shape}, shape ∈ shapes → shape.id ∈ tree.children id := h.mem_children
  obtain ⟨_, hids, hshs⟩ := h
  have hndp : (shapes.map Shape.id).Pairwise (· ≠ ·) := hids ▸ hwf.nodup id
  refine ⟨hshs, fun shape hsh => ?_, (List.pairwise_map.mp hndp).imp_of_mem fun {a b} ha hb hne x =>
    Below.disjoint hwf (hmem ha) (hmem hb) hne⟩
  obtain ⟨node, hnd, _⟩ := hwf.parent (hmem hsh)
  exact ⟨node, hnd⟩

theorem Annotates.apart (h : tree.Annotates tree') (hap : tree.Apart shapes) : tree'.Apart shapes where
  isShape := fun shape hsh => h.isShape (hap.isShape shape hsh)
  isThere := fun shape hsh => by
    obtain ⟨node, hnd⟩ := hap.isThere shape hsh
    obtain ⟨node', hnd', _⟩ := h.get? hnd
    exact ⟨node', hnd'⟩
  disjoint := hap.disjoint.imp fun hab x ha hb => hab x (h.symm.below ha) (h.symm.below hb)

theorem IsShape.kind_eq (h : tree.IsShape (.node id kind shapes)) (hnd : tree.get? id = some node) :
    node.kind = kind := by
  obtain ⟨hk, _, _⟩ := h
  rw [hnd] at hk
  exact hk

theorem IsShape.children_eq (h : tree.IsShape (.node id kind shapes)) (hnd : tree.get? id = some node) :
    node.children = shapes.map Shape.id := by
  obtain ⟨_, hids, _⟩ := h
  rw [hids, children_of_get? hnd]

theorem IsShape.not_within (hwf : tree.WellFormed) (h : tree.IsShape (.node id kind shapes)) : ¬ tree.Within shapes id := by
  rintro ⟨child, hcd, hbel⟩
  exact absurd (hbel.le hwf) (Nat.not_le.mpr (hwf.after (h.mem_children hcd)))

theorem IsShape.within (h : tree.IsShape (.node id kind shapes)) {x : NodeId} (hx : tree.Within shapes x) :
    tree.Below id x := by
  obtain ⟨child, hcd, hbel⟩ := hx
  exact .step (h.mem_children hcd) hbel

theorem Annotates.within (h : tree.Annotates tree') {x : NodeId} (hx : tree.Within shapes x) : tree'.Within shapes x := by
  obtain ⟨shape, hsh, hbel⟩ := hx
  exact ⟨shape, hsh, h.below hbel⟩

theorem IsShape.below_of_has {x : NodeId} (h : tree.IsShape shape) (hx : shape.Has x) : tree.Below shape.id x := by
  induction hx with
  | here => exact .refl _
  | inside hcd _ ih =>
    have hmem := h.mem_children hcd
    obtain ⟨_, _, hch⟩ := h
    exact .step hmem (ih (hch _ hcd))

theorem Apart.distinct (hwf : tree.WellFormed) (h : tree.Apart shapes) : Shape.Distinct shapes := by
  have hbel : ∀ {shapes : List Shape}, (∀ shape ∈ shapes, tree.IsShape shape → Shape.Distinct [shape]) →
      tree.Apart shapes → Shape.Distinct shapes := by
    intro shapes hone hap
    induction shapes with
    | nil => exact .nil
    | cons shape rest ih =>
      have hsh := hap.isShape shape List.mem_cons_self
      have hfst := hone shape List.mem_cons_self hsh
      cases hfst with
      | cons hid hch _ _ =>
        refine .cons hid hch ?_ (ih (fun other hoth => hone other (List.mem_cons_of_mem _ hoth)) hap.tail)
        rintro x hx ⟨other, hoth, hx'⟩
        exact (List.pairwise_cons.mp hap.disjoint).1 other hoth x (hsh.below_of_has hx)
          ((hap.isShape other (List.mem_cons_of_mem _ hoth)).below_of_has hx')
  have hone : ∀ shape, tree.IsShape shape → Shape.Distinct [shape] := by
    intro shape
    induction shape using Shape.induction with
    | node id kind children ih =>
      intro hsh
      have hch := hbel ih (hsh.apart hwf)
      refine .cons ?_ hch (fun _ _ hnil => ?_) .nil
      · rintro ⟨child, hcd, hx⟩
        refine hsh.not_within hwf ⟨child, hcd, ?_⟩
        exact ((hsh.apart hwf).isShape child hcd).below_of_has hx
      · obtain ⟨_, hmem, _⟩ := hnil
        nomatch hmem
  exact hbel (fun shape _ => hone shape) h

end Tree

end SoftTyping
