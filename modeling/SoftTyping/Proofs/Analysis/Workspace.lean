import SoftTyping.Analysis.Passes
import SoftTyping.Proofs.SymbolTable.Changes
import SoftTyping.Proofs.Tree

/-!
# Steps on a workspace

Where each kind of step on a workspace leads when it is not refused. A step touches some nodes (`Touches`) when it changes
annotations of those alone, adds to the symbol table and leaves the flow of types as it is.
-/

namespace SoftTyping

namespace Tree

variable {tree : Tree} {id : NodeId} {node : Node}

/-- Asking for a node succeeds exactly if there is one. -/
theorem node_eq_ok : tree.node id = .ok node ↔ tree.get? id = some node := by
  unfold Tree.node
  cases tree.get? id <;> simp

/-- A node of a kind is given exactly if the node is of that kind. -/
theorem nodeOfKind_eq_ok {kind : NodeKind} :
    tree.nodeOfKind id kind = .ok node ↔ tree.get? id = some node ∧ node.kind = kind := by
  simp only [nodeOfKind, Refusal.bind_eq_ok, node_eq_ok]
  constructor
  · rintro ⟨found, hf, h⟩
    split at h
    · next hk =>
      cases h
      exact ⟨hf, hk⟩
    · nomatch h
  · rintro ⟨hnd, hk⟩
    exact ⟨node, hnd, if_pos hk⟩

/-- The scope of a node is given exactly if the node is marked with it. -/
theorem scopeOf_eq_ok {scope : ScopeId} :
    tree.scopeOf id = .ok scope ↔ ∃ node, tree.get? id = some node ∧ node.scope = some scope := by
  simp only [scopeOf, Refusal.bind_eq_ok, node_eq_ok]
  refine exists_congr fun node => and_congr_right fun _ => ?_
  cases node.scope <;> simp

/-- The symbol of a node is given exactly if the node is marked with it. -/
theorem symbolOf_eq_ok {symbol : SymbolId} :
    tree.symbolOf id = .ok symbol ↔ ∃ node, tree.get? id = some node ∧ node.symbol = some symbol := by
  simp only [symbolOf, Refusal.bind_eq_ok, node_eq_ok]
  refine exists_congr fun node => and_congr_right fun _ => ?_
  cases node.symbol <;> simp

/-- The type variable of a node is given exactly if the node is marked with it. -/
theorem typeVarOf_eq_ok {typeVar : TypeVarId} :
    tree.typeVarOf id = .ok typeVar ↔ ∃ node, tree.get? id = some node ∧ node.typeVar = some typeVar := by
  simp only [typeVarOf, Refusal.bind_eq_ok, node_eq_ok]
  refine exists_congr fun node => and_congr_right fun _ => ?_
  cases node.typeVar <;> simp

end Tree

namespace Workspace

variable {w w' : Workspace} {α : Type} {a : α} {id : NodeId} {u : Unit} {change : Node → Node}

/-- A question to the tree changes nothing. -/
theorem askTree_eq_ok {question : Tree → Except Fault α} :
    askTree question w = .ok a w' ↔ question w.tree = .ok a ∧ w' = w :=
  Step.query_eq_ok

/-- A question to the table changes nothing. -/
theorem askTable_eq_ok {question : SymbolTable → Except Fault α} :
    askTable question w = .ok a w' ↔ question w.table = .ok a ∧ w' = w :=
  Step.query_eq_ok

/-- A step on the table changes nothing else. -/
theorem onTable_eq_ok {step : Step SymbolTable α} :
    onTable step w = .ok a w' ↔ ∃ table, step w.table = .ok a table ∧ w' = { w with table } :=
  Step.onPart_eq_ok

/-- A node that there is can be changed. -/
theorem updateNode_eq_ok : updateNode id change w = .ok u w' ↔
      (∃ node, w.tree.get? id = some node) ∧ w' = { w with tree := w.tree.update id change } := by
  simp only [updateNode, Step.bind_eq_ok, askTree_eq_ok, Step.modify_eq_ok, Tree.node_eq_ok]
  constructor
  · rintro ⟨node, _, ⟨hnd, rfl⟩, rfl⟩
    exact ⟨⟨node, hnd⟩, rfl⟩
  · rintro ⟨⟨node, hnd⟩, rfl⟩
    exact ⟨node, w, ⟨hnd, rfl⟩, rfl⟩

/-- A report always succeeds and changes the log alone. -/
theorem report_eq_ok {issue : Issue} :
    report issue w = .ok u w' ↔ w' = { w with issues := w.issues.report issue } :=
  Step.modify_eq_ok

/-- A change of the flow always succeeds. -/
theorem modifyFlow_eq_ok {change : Flow → Flow} :
    modifyFlow change w = .ok u w' ↔ w' = { w with flow := change w.flow } :=
  Step.modify_eq_ok

/-! ## Steps that touch some nodes -/

/-- A step that changes at most the scopes and symbols of some nodes, adds to the table and reports nothing. -/
structure Touches (P : NodeId → Prop) (w w' : Workspace) : Prop where
  tree : w.tree.Annotates w'.tree
  frame : ∀ id, ¬ P id → w'.tree.get? id = w.tree.get? id
  typeVar : ∀ {id node'}, w'.tree.get? id = some node' → ∃ node, w.tree.get? id = some node ∧ node'.typeVar = node.typeVar
  declares : Relation.ReflTransGen SymbolTable.Declares w.table w'.table
  flow : w'.flow = w.flow
  issues : w'.issues = w.issues

variable {P Q : NodeId → Prop}

/-- The table only grows. -/
theorem Touches.table (h : Touches P w w') : w.table.Grows w'.table := SymbolTable.grows_of_declares h.declares

theorem Touches.refl (w : Workspace) : Touches P w w :=
  ⟨.refl _, fun _ _ => rfl, fun {_ node} h => ⟨node, h, rfl⟩, .refl, rfl, rfl⟩

theorem Touches.trans {w'' : Workspace} (h : Touches P w w') (h' : Touches P w' w'') : Touches P w w'' where
  tree := h.tree.trans h'.tree
  frame := fun id hid => (h'.frame id hid).trans (h.frame id hid)
  typeVar := fun hnd => by
    obtain ⟨node', hnd', htpVar'⟩ := h'.typeVar hnd
    obtain ⟨node, hnd, htpVar⟩ := h.typeVar hnd'
    exact ⟨node, hnd, htpVar'.trans htpVar⟩
  declares := h.declares.trans h'.declares
  flow := h'.flow.trans h.flow
  issues := h'.issues.trans h.issues

/-- A step that touches few nodes touches no others among more. -/
theorem Touches.mono (h : Touches P w w') (hPQ : ∀ id, P id → Q id) : Touches Q w w' :=
  ⟨h.tree, fun id hid => h.frame id fun hP => hid (hPQ id hP), h.typeVar, h.declares, h.flow, h.issues⟩

/-- What is declared in the table touches no node. -/
theorem touches_table {table : SymbolTable} (h : w.table.Declares table) : Touches P w { w with table } :=
  ⟨.refl _, fun _ _ => rfl, fun {_ node} hnd => ⟨node, hnd, rfl⟩, .single h, rfl, rfl⟩

/-- A mark on a node touches that node alone. -/
theorem touches_updateNode (h : updateNode id change w = .ok u w')
    (hbare : ∀ node, (change node).bare = node.bare) (htpVar : ∀ node, (change node).typeVar = node.typeVar) :
    Touches (· = id) w w' := by
  obtain ⟨_, rfl⟩ := updateNode_eq_ok.mp h
  refine ⟨Tree.annotates_update _ _ hbare, fun other hoth => ?_, fun {other node'} hnd' => ?_, .refl, rfl, rfl⟩
  · rw [Tree.get?_update, if_neg fun hix => hoth (NodeId.ext hix.symm)]
  · rw [Tree.get?_update] at hnd'
    split at hnd'
    · obtain ⟨node, hnd, rfl⟩ := Option.map_eq_some_iff.mp hnd'
      exact ⟨node, hnd, htpVar node⟩
    · exact ⟨node', hnd', rfl⟩

/-- A changed node is found as it was changed. -/
theorem get?_updateNode (h : updateNode id change w = .ok u w') :
    ∃ node, w.tree.get? id = some node ∧ w'.tree.get? id = some (change node) := by
  obtain ⟨⟨node, hnd⟩, rfl⟩ := updateNode_eq_ok.mp h
  exact ⟨node, hnd, by rw [Tree.get?_update, if_pos rfl, hnd, Option.map_some]⟩

end Workspace

end SoftTyping
