import Mathlib.Data.List.Find
import SoftTyping.Proofs.Analysis.Declared

/-!
# What referring leaves behind

The pass that binds names takes the nodes of a program as it finds them: it gives some of them a symbol, and adds a return
at the end of a function's body. Every node stays where it stands (`Refers`, `refers_referAll`).
-/

namespace SoftTyping

open Step SymbolTable Shape Tree

/-- Whether the nodes of a kind have a name that is looked up. -/
def NodeKind.isName : NodeKind → Bool
  | .variableRef | .identifier | .typeName | .call => true
  | _ => false

/-- How the children of a node are visited at which nothing else is done. -/
def Role.enters? : Role → NodeKind → Option Role
  | .part, .block | .branch, .block | .statement, .namespaceDecl => some .statement
  | .statement, .useDecl | .statement, .classDecl | .statement, .constantDecl | .statement, .functionDecl
  | .statement, .ifStmt | .statement, .whileStmt | .statement, .assign => none
  | .statement, _ => some .expression
  | _, _ => none

/-- Whether a node is visited for its name. -/
def Role.Names (role : Role) (kind : NodeKind) : Prop := role = .expression ∨ role = .branch ∧ kind ≠ .block

/-- What referring leaves of a node. -/
structure Node.ReferredAs (node node' : Node) : Prop where
  kind : node'.kind = node.kind
  text : node'.text = node.text
  position : node'.position = node.position
  scope : node'.scope = node.scope
  typeVar : node'.typeVar = node.typeVar
  symbol : node.kind.isName = false → node'.symbol = node.symbol
  children : node.kind ≠ .block → node'.children = node.children
  grown : node.children <+: node'.children

theorem Node.ReferredAs.refl (node : Node) : node.ReferredAs node :=
  ⟨rfl, rfl, rfl, rfl, rfl, fun _ => rfl, fun _ => rfl, List.prefix_refl _⟩

theorem Node.ReferredAs.trans {node node' node'' : Node} (h : node.ReferredAs node') (h' : node'.ReferredAs node'') :
    node.ReferredAs node'' where
  kind := h'.kind.trans h.kind
  text := h'.text.trans h.text
  position := h'.position.trans h.position
  scope := h'.scope.trans h.scope
  typeVar := h'.typeVar.trans h.typeVar
  symbol := fun hk => (h'.symbol (h.kind ▸ hk)).trans (h.symbol hk)
  children := fun hk => (h'.children (h.kind ▸ hk)).trans (h.children hk)
  grown := h.grown.trans h'.grown

namespace Workspace

variable {w w' : Workspace} {id : NodeId} {scope : ScopeId} {symbol : SymbolId} {u : Unit} {P Q : NodeId → Prop} {α : Type}
  {a : α} {rules : NameRules} {node : Node} {kind : IdentifierKind} {failure : IssueKind} {added : Option NodeId}
  {position : Position} {found : Resolution}

/-- No node has a type variable yet. -/
def Untyped (w : Workspace) : Prop := ∀ {id node}, w.tree.get? id = some node → node.typeVar = none

/-- A step that binds names at some nodes, and leaves where nodes stand. -/
structure Refers (P : NodeId → Prop) (w w' : Workspace) : Prop where
  frame : ∀ {id node}, ¬ P id → w.tree.get? id = some node → w'.tree.get? id = some node
  kept : ∀ {id node}, w.tree.get? id = some node → ∃ node', w'.tree.get? id = some node' ∧ node.ReferredAs node'
  wellFormed : w.tree.WellFormed → w'.tree.WellFormed
  stands : ∀ {role scope lo hi ids}, Stands w.tree w.table role scope lo hi ids →
    Stands w'.tree w'.table role scope lo hi ids
  untyped : w.Untyped → w'.Untyped
  binds : Relation.ReflTransGen SymbolTable.Binds w.table w'.table
  flow : w'.flow = w.flow
  issues : w.issues.issues ⊆ w'.issues.issues

theorem Refers.table (h : Refers P w w') : w.table.Grows w'.table := grows_of_binds h.binds

theorem Refers.refl (w : Workspace) : Refers P w w where
  frame := fun _ h => h
  kept := fun {_ node} h => ⟨node, h, .refl node⟩
  wellFormed := id
  stands := id
  untyped := id
  binds := .refl
  flow := rfl
  issues := fun _ h => h

theorem Refers.trans {w'' : Workspace} (h : Refers P w w') (h' : Refers P w' w'') : Refers P w w'' where
  frame := fun hid hnd => h'.frame hid (h.frame hid hnd)
  kept := fun hnd => by
    obtain ⟨node', hnd', hkt⟩ := h.kept hnd
    obtain ⟨node'', hnd'', hkt'⟩ := h'.kept hnd'
    exact ⟨node'', hnd'', hkt.trans hkt'⟩
  wellFormed := fun hwf => h'.wellFormed (h.wellFormed hwf)
  stands := fun hstn => h'.stands (h.stands hstn)
  untyped := fun hut => h'.untyped (h.untyped hut)
  binds := h.binds.trans h'.binds
  flow := h'.flow.trans h.flow
  issues := fun _ his => h'.issues (h.issues his)

theorem isOrder_refers (P : NodeId → Prop) : IsOrder (Refers P) := ⟨.refl, .trans⟩

theorem Refers.mono (h : Refers P w w') (hPQ : ∀ id, P id → Q id) : Refers Q w w' :=
  { h with frame := fun hid => h.frame fun hP => hid (hPQ _ hP) }

/-! ## Steps -/

theorem refers_report {issue : Issue} : Respects (Refers P) (report issue) := by
  intro w _ w' h
  rw [report_eq_ok.mp h]
  exact { Refers.refl w with issues := fun _ his => List.mem_append_left _ his }

theorem refers_onTable {step : Step SymbolTable α} (h : onTable step w = .ok a w')
    (hbis : ∀ {table}, step w.table = .ok a table → w.table.Binds table) : Refers P w w' := by
  obtain ⟨table, htb, rfl⟩ := onTable_eq_ok.mp h
  have hscs := (hbis htb).grows.scopes
  exact { Refers.refl w with
    stands := fun hstn => hstn.mono hscs fun {_ _ node} _ _ hnd => ⟨node, hnd, .refl node⟩
    binds := .single (hbis htb) }

theorem refers_updateNode (hnd : w.tree.get? id = some node) (hk : node.kind.isName = true)
    (h : updateNode id (fun node => { node with symbol := some symbol }) w = .ok u w') : Refers (· = id) w w' := by
  obtain ⟨_, rfl⟩ := updateNode_eq_ok.mp h
  have hkt : ∀ {other : NodeId} {old : Node}, w.tree.get? other = some old →
      ∃ new, (w.tree.update id fun node => { node with symbol := some symbol }).get? other = some new ∧
        old.ReferredAs new := by
    intro other old hold
    rw [get?_update]
    split
    · next hix =>
      have hoth : other = id := NodeId.ext hix.symm
      subst hoth
      rw [hnd] at hold
      cases hold
      rw [hnd, Option.map_some]
      exact ⟨_, rfl, rfl, rfl, rfl, rfl, rfl, fun h => absurd (hk.symm.trans h) nofun, fun _ => rfl, List.prefix_refl _⟩
    · exact ⟨old, hold, .refl old⟩
  have htree : w.tree.Annotates (w.tree.update id fun node => { node with symbol := some symbol }) :=
    annotates_update _ _ fun _ => rfl
  refine { Refers.refl (P := (· = id)) w with
    frame := ?_, kept := hkt, wellFormed := htree.wellFormed, stands := ?_, untyped := ?_ }
  · intro other old hoth hold
    rwa [get?_update, if_neg fun hix => hoth (NodeId.ext hix.symm)]
  · intro role scope lo hi ids hstn
    refine hstn.mono (.refl _) fun {_ below old} _ _ hold => ?_
    obtain ⟨new, hnew, hrfd⟩ := hkt hold
    refine ⟨new, hnew, hrfd.kind, ?_, hrfd.scope, fun hk => hrfd.symbol (by rw [hk]; rfl)⟩
    obtain ⟨new', hnew', hbare⟩ := htree.get? hold
    rw [hnew] at hnew'
    cases hnew'
    exact Node.children_of_bare hbare
  · intro hut other new hnew
    rw [get?_update] at hnew
    split at hnew
    · obtain ⟨old, hold, rfl⟩ := Option.map_eq_some_iff.mp hnew
      exact (hut hold : old.typeVar = none)
    · exact hut hnew

/-! ### Reports -/

/-- A relation that reports of issues of some kinds respect. -/
structure LetsReport (R : Workspace → Workspace → Prop) (kinds : IssueKind → Prop) : Prop where
  order : Step.IsOrder R
  report : ∀ {issue : Issue}, kinds issue.kind → Step.Respects R (report issue)

namespace LetsReport

variable {R : Workspace → Workspace → Prop} {kinds : IssueKind → Prop} (h : LetsReport R kinds)

include h

theorem reportRepeated {first : Option SymbolId} (hk : kinds .alreadyDefined) :
    Respects R (reportRepeated symbol first) := by
  unfold Workspace.reportRepeated
  split
  · exact .pure h.order _
  · exact .ask h.order fun _ => .ask h.order fun _ => h.report hk

theorem checkAliasUnique (hk : kinds .alreadyDefined) : Respects R (checkAliasUnique id) :=
  .ask h.order fun _ => .ask h.order fun _ => .ask h.order fun _ => .ask h.order fun _ => h.reportRepeated hk

theorem checkUnique (hk : kinds .alreadyDefined) : Respects R (checkUnique id) :=
  .ask h.order fun _ => .ask h.order fun _ => .ask h.order fun _ => .ask h.order fun _ => h.reportRepeated hk

theorem checkDeclaredBefore (hk : kinds .forwardReference) : Respects R (checkDeclaredBefore id) := by
  refine .ask h.order fun _ => .ask h.order fun _ => .ask h.order fun builtin => ?_
  split
  · exact .pure h.order _
  · refine .ask h.order fun _ => ?_
    split
    · exact h.report hk
    · exact .pure h.order _

theorem reportForwardAlias (hk : kinds .aliasForwardReference) : Respects R (reportForwardAlias node found) := by
  unfold Workspace.reportForwardAlias
  split
  · split
    · exact .ask h.order fun _ => h.report hk
    · exact .pure h.order _
  · exact .pure h.order _

end LetsReport

theorem letsReport_refers : LetsReport (Refers P) fun _ => True := ⟨isOrder_refers P, fun _ => refers_report⟩

theorem refers_checkUnique : Respects (Refers P) (checkUnique id) := letsReport_refers.checkUnique trivial

theorem refers_checkWritten : Respects (Refers P) (checkWritten id) := by
  have hR := isOrder_refers P
  refine .ask hR fun _ => .ask hR fun _ => .ask hR fun _ => .ask hR fun issue => ?_
  split
  · exact .pure hR _
  · exact refers_report

/-! ### Names -/

/-- What a `use` declaration does: the target of its alias is looked up, and is bound or reported. -/
theorem bindAlias_eq_ok {answer : Option SymbolId} : bindAlias rules id w = .ok answer w' ↔
    ∃ node use block entry target found, w.tree.get? id = some node ∧ node.kind = .useDecl ∧ node.symbol = some use ∧
      node.scope = some block ∧ w.table.symbol? use = some entry ∧ entry.aliasTarget? = some target ∧
      Resolver.resolveAll rules.resolvers w.table (.ofKind target .type block node.position rules.caseInsensitiveTypes) =
        .ok found ∧ answer = found.symbol ∧
      (found.symbol = none ∧
          report ((Issue.ofKind .aliasTargetNotDefined node.position).withParameter "name" target) w = .ok () w' ∨
        ∃ resolved, found.symbol = some resolved ∧
          onTable (updateSymbol use fun symbol => { symbol with data := .aliasOf target (some resolved) }) w =
            .ok () w') := by
  simp only [bindAlias, bind_eq_ok, askTree_eq_ok, askTable_eq_ok, nodeOfKind_eq_ok, symbolOf_eq_ok, scopeOf_eq_ok]
  constructor
  · rintro ⟨node, _, ⟨⟨hnd, hk⟩, rfl⟩, use, _, ⟨⟨node', hnd', huse⟩, rfl⟩, block, _, ⟨⟨node'', hnd'', hbl⟩, rfl⟩,
      entry, w, ⟨he, rfl⟩, h⟩
    cases hnd.symm.trans hnd'
    cases hnd.symm.trans hnd''
    cases ht : entry.aliasTarget? with
    | none =>
      rw [ht] at h
      exact absurd h throw_ne_ok
    | some target =>
      simp only [ht, bind_eq_ok, askTable_eq_ok] at h
      obtain ⟨found, _, ⟨hf, rfl⟩, h⟩ := h
      refine ⟨node, use, block, entry, target, found, hnd, hk, huse, hbl, symbol_eq_ok.mp he, ht, hf, ?_⟩
      cases hsym : found.symbol <;> simp only [hsym, bind_eq_ok, pure_eq_ok] at h <;>
        obtain ⟨_, _, hone, rfl, rfl⟩ := h
      · exact ⟨rfl, .inl ⟨rfl, hone⟩⟩
      · exact ⟨rfl, .inr ⟨_, rfl, hone⟩⟩
  · rintro ⟨node, use, block, entry, target, found, hnd, hk, huse, hbl, he, ht, hf, rfl, h⟩
    refine ⟨node, w, ⟨⟨hnd, hk⟩, rfl⟩, use, w, ⟨⟨node, hnd, huse⟩, rfl⟩, block, w, ⟨⟨node, hnd, hbl⟩, rfl⟩,
      entry, w, ⟨symbol_eq_ok.mpr he, rfl⟩, ?_⟩
    rw [ht]
    refine bind_eq_ok.mpr ⟨found, w, askTable_eq_ok.mpr ⟨hf, rfl⟩, ?_⟩
    rcases h with ⟨hsym, hone⟩ | ⟨resolved, hsym, hone⟩ <;> rw [hsym] <;>
      exact bind_eq_ok.mpr ⟨(), w', hone, rfl⟩

theorem refers_bindAlias : Respects (Refers P) (bindAlias rules id) := by
  intro w found w' h
  obtain ⟨_, _, _, _, _, _, _, _, _, _, he, ht, _, _, ⟨_, hrep⟩ | ⟨_, _, hup⟩⟩ := bindAlias_eq_ok.mp h
  · exact refers_report hrep
  · exact refers_onTable hup (.bindAlias he ht)

theorem refers_foundSymbol : Respects (Refers P) (foundSymbol node kind failure found) := by
  have hR := isOrder_refers P
  unfold foundSymbol
  split
  · exact .pure hR _
  · exact .bind hR (fun w _ w' h => refers_onTable h .addErroneous) fun _ => .bind hR refers_report fun _ => .pure hR _

theorem bindNode_eq_ok (h : bindNode rules id kind failure w = .ok symbol w') : ∃ w₁ u, Refers (fun _ => False) w w₁ ∧
      updateNode id (fun node => { node with symbol := some symbol }) w₁ = .ok u w' := by
  simp only [bindNode, bind_eq_ok, askTree_eq_ok, askTable_eq_ok, pure_eq_ok] at h
  obtain ⟨node, _, ⟨_, rfl⟩, _, _, ⟨_, rfl⟩, found, _, ⟨_, rfl⟩, _, _, hrep, _, w₁, hf, _, _, hup, rfl, rfl⟩ := h
  exact ⟨w₁, _, (letsReport_refers.reportForwardAlias trivial hrep).trans (refers_foundSymbol hf), hup⟩

theorem refers_bindNode (hnd : w.tree.get? id = some node)
    (hk : node.kind.isName = true) (h : bindNode rules id kind failure w = .ok symbol w') :
    Refers (· = id) w w' := by
  obtain ⟨w₁, _, href, hup⟩ := bindNode_eq_ok h
  exact (href.mono nofun).trans (refers_updateNode (href.frame not_false hnd) hk hup)

theorem Tree.childOfKind?_eq_some {tree : Tree} {child : NodeId} {kind : NodeKind}
    (h : tree.childOfKind? id kind = some child) :
    child ∈ tree.children id ∧ ∃ node, tree.get? child = some node ∧ node.kind = kind := by
  have hk := List.find?_some h
  refine ⟨List.mem_of_find?_eq_some h, ?_⟩
  cases hnd : tree.get? child with
  | none => simp [hnd] at hk
  | some node => exact ⟨node, rfl, by simpa [hnd] using hk⟩

/-- What the type hint of a parameter leaves: the symbol that it is bound to, as the declared type. -/
theorem bindHint_eq_ok {found : Option SymbolId} (h : bindHint rules id w = .ok found w') :
    ∃ parameter, w.tree.symbolOf id = .ok parameter ∧
      (w.tree.childOfKind? id .typeName = none ∧ w' = w ∨
        ∃ hint resolved entry w₁ u, w.tree.childOfKind? id .typeName = some hint ∧
          bindNode rules hint .type .unknownType w = .ok resolved w₁ ∧ w₁.table.symbol? resolved = some entry ∧
          onTable (updateSymbol parameter (·.mapVariable fun data =>
            { data with declared := some (w₁.table.asType resolved) })) w₁ = .ok u w') := by
  simp only [bindHint, bind_eq_ok, askTree_eq_ok, get_eq_ok] at h
  obtain ⟨parameter, _, ⟨hpar, rfl⟩, _, w, ⟨rfl, rfl⟩, h⟩ := h
  refine ⟨parameter, hpar, ?_⟩
  cases hhint : w.tree.childOfKind? id .typeName with
  | none =>
    simp only [hhint, pure_eq_ok] at h
    exact .inl ⟨rfl, h.2⟩
  | some hint =>
    simp only [hhint, bind_eq_ok, askTable_eq_ok, get_eq_ok, pure_eq_ok] at h
    obtain ⟨resolved, w₁, hbi, entry, _, ⟨he, rfl⟩, _, w₁, ⟨rfl, rfl⟩, _, _, hup, _, rfl⟩ := h
    have he := symbol_eq_ok.mp he
    refine .inr ⟨hint, resolved, entry, w₁, (), rfl, hbi, he, ?_⟩
    rwa [asType, he, Option.bind_some]

theorem refers_bindHint {found : Option SymbolId} (h : bindHint rules id w = .ok found w') :
    Refers (w.tree.childOfKind? id .typeName = some ·) w w' := by
  obtain ⟨_, _, ⟨_, rfl⟩ | ⟨_, _, _, _, _, hhint, hbi, he, hup⟩⟩ := bindHint_eq_ok h
  · exact .refl _
  · obtain ⟨_, node, hnd, hk⟩ := Tree.childOfKind?_eq_some hhint
    have hbo := refers_bindNode hnd (by rw [hk]; rfl) hbi
    exact (hbo.mono fun other hoth => hoth ▸ hhint).trans (refers_onTable hup (.declareType (isHint_asType he)))

/-! ### Variables -/

theorem refers_markWritten : Respects (Refers P) (markWritten id) := by
  have hR := isOrder_refers P
  exact .ask hR fun _ => .ask hR fun _ => fun _ _ _ h => refers_onTable h .markInitialised

theorem refers_mergeBranches {branches : List ScopeId} {exhaustive : Bool} :
    Respects (Refers P) (mergeBranches scope branches exhaustive) :=
  fun _ _ _ h => refers_onTable h .mergeBranches

/-! ### Returns -/

theorem addPlaced_eq_ok {parent : NodeId} {kind : NodeKind} {text : String} :
    addPlaced parent kind text position scope w = .ok id w' ↔
      id = ⟨w.tree.size⟩ ∧ w' = { w with tree := w.tree.addPlaced parent kind text position scope } :=
  modifyGet_eq_ok

/-- The tree with the return of a literal at the end of a block. -/
def addReturn (tree : Tree) (block : NodeId) (text value : String) (position : Position) (scope : ScopeId) : Tree :=
  (tree.addPlaced block .returnStmt text position scope).addPlaced ⟨tree.size⟩ (.literal .null) value position scope

theorem get?_addReturn {tree : Tree} {block : NodeId} {text value : String} (hbl : block.index < tree.size)
    (other : NodeId) :
    (addReturn tree block text value position scope).get? other =
      if other.index = tree.size + 1 then
        some { kind := .literal .null, text := value, position, parent := some ⟨tree.size⟩, scope := some scope }
      else if other.index = tree.size then
        some { kind := .returnStmt, text, position, parent := some block, children := [⟨tree.size + 1⟩], scope := some scope }
      else if other.index = block.index then
        (tree.get? other).map fun node => { node with children := node.children ++ [⟨tree.size⟩] }
      else tree.get? other := by
  rw [addReturn, get?_addPlaced (by rw [size_addPlaced]; exact Nat.lt_succ_self _), size_addPlaced,
    get?_addPlaced hbl]
  by_cases hnew : other.index = tree.size
  · simp [hnew]
  · rw [if_neg hnew, if_neg hnew, if_neg hnew]

theorem refers_addReturn {block : NodeId} {text value : String}
    (hnd : w.tree.get? block = some node) (hk : node.kind = .block) (hsc : node.scope = some scope) :
    Refers (· = block) w { w with tree := addReturn w.tree block text value position scope } := by
  have hbl := lt_size_of_get? hnd
  have hret : (⟨w.tree.size⟩ : NodeId).index < (w.tree.addPlaced block .returnStmt text position scope).size := by
    rw [size_addPlaced]
    exact Nat.lt_succ_self _
  have hadded : (w.tree.addPlaced block .returnStmt text position scope).get? ⟨w.tree.size⟩ =
      some { kind := .returnStmt, text, position, parent := some block, scope := some scope } := by
    rw [get?_addPlaced hbl, if_pos rfl]
  refine { Refers.refl (P := (· = block)) w with frame := ?_, kept := ?_, wellFormed := ?_, stands := ?_, untyped := ?_ }
  · intro id old hid hget
    have hlt := lt_size_of_get? hget
    rw [get?_addReturn hbl, if_neg (by omega), if_neg (by omega),
      if_neg fun hix => hid (NodeId.ext hix), hget]
  · intro id old hget
    have hlt := lt_size_of_get? hget
    rw [get?_addReturn hbl, if_neg (by omega), if_neg (by omega)]
    split
    · next hix =>
      have hid : id = block := NodeId.ext hix
      subst hid
      rw [hnd] at hget
      cases hget
      rw [hnd, Option.map_some]
      exact ⟨_, rfl, rfl, rfl, rfl, rfl, rfl, fun _ => rfl, fun h => absurd hk h, List.prefix_append _ _⟩
    · exact ⟨old, hget, .refl old⟩
  · intro hwf
    exact (hwf.addPlaced _ _ _ _ hbl).addPlaced _ _ _ _ hret
  · intro role scope lo hi ids hstn
    refine Stands.addPlaced hadded rfl nofun nofun ?_
      (.addPlaced hnd hsc (by rw [hk]; nofun) (by rw [hk]; nofun) ?_ hstn)
    all_goals rintro (_ | _ | _ | _) hpt <;> first | exact ⟨_, rfl⟩ | exact absurd rfl hpt
  · intro hut id new hget
    rw [get?_addReturn hbl] at hget
    split at hget
    · cases hget
      rfl
    · split at hget
      · cases hget
        rfl
      · split at hget
        · obtain ⟨old, hold, rfl⟩ := Option.map_eq_some_iff.mp hget
          exact (hut hold : old.typeVar = none)
        · exact hut hget

theorem functionBody_eq_ok {tree : Tree} {block : NodeId} :
    functionBody tree id = .ok block ↔
      (∃ node, tree.get? id = some node ∧ node.kind = .functionDecl) ∧ tree.childOfKind? id .block = some block := by
  simp only [functionBody, Refusal.bind_eq_ok, nodeOfKind_eq_ok, exists_and_right]
  refine and_congr_right fun _ => ?_
  split <;> simp_all

/-- A function whose end can be reached takes a return of `null` there. -/
theorem closeBody_eq_ok :
    closeBody id w = .ok added w' ↔
      ∃ block node, functionBody w.tree id = .ok block ∧ w.tree.get? block = some node ∧ node.kind = .block ∧
        ((w.tree.shape block).alwaysReturns = true ∧ added = none ∧ w' = w ∨
          (w.tree.shape block).alwaysReturns = false ∧ ∃ scope, node.scope = some scope ∧ added = some ⟨w.tree.size⟩ ∧
            w' = { w with tree := addReturn w.tree block "return" "null" node.position scope }) := by
  simp only [closeBody, bind_eq_ok, askTree_eq_ok, get_eq_ok]
  constructor
  · rintro ⟨block, _, ⟨hbl, rfl⟩, _, w, ⟨rfl, rfl⟩, h⟩
    obtain ⟨_, node, hnd, hk⟩ := Tree.childOfKind?_eq_some (functionBody_eq_ok.mp hbl).2
    refine ⟨block, node, hbl, hnd, hk, ?_⟩
    cases hrets : (w.tree.shape block).alwaysReturns with
    | true =>
      rw [if_pos hrets] at h
      obtain ⟨rfl, rfl⟩ := pure_eq_ok.mp h
      exact .inl ⟨rfl, rfl, rfl⟩
    | false =>
      rw [if_neg (by rw [hrets]; nofun)] at h
      simp only [bind_eq_ok, askTree_eq_ok, scopeOf_eq_ok, node_eq_ok, addPlaced_eq_ok, pure_eq_ok] at h
      obtain ⟨scope, _, ⟨⟨node', hnd', hsc⟩, rfl⟩, _, _, ⟨hnd'', rfl⟩, _, _, ⟨rfl, rfl⟩, _, _, ⟨rfl, rfl⟩, rfl, rfl⟩ := h
      cases hnd.symm.trans hnd'
      cases hnd.symm.trans hnd''
      exact .inr ⟨rfl, scope, hsc, rfl, rfl⟩
  · rintro ⟨block, node, hbl, hnd, -, ⟨hrets, rfl, rfl⟩ | ⟨hrets, scope, hsc, rfl, rfl⟩⟩
    · exact ⟨block, _, ⟨hbl, rfl⟩, _, _, ⟨rfl, rfl⟩, by rw [if_pos hrets]; rfl⟩
    · refine ⟨block, _, ⟨hbl, rfl⟩, _, _, ⟨rfl, rfl⟩, ?_⟩
      rw [if_neg (by rw [hrets]; nofun)]
      simp only [bind_eq_ok, askTree_eq_ok, scopeOf_eq_ok, node_eq_ok, addPlaced_eq_ok, pure_eq_ok]
      exact ⟨scope, _, ⟨⟨node, hnd, hsc⟩, rfl⟩, _, _, ⟨hnd, rfl⟩, _, _, ⟨rfl, rfl⟩, _, _, ⟨rfl, rfl⟩, rfl, rfl⟩

/-- A return is added to a block below a function. -/
theorem refers_closeBody (h : closeBody id w = .ok added w') :
    Refers (fun other => other ∈ w.tree.children id ∧ ∃ node, w.tree.get? other = some node ∧ node.kind = .block) w w' := by
  obtain ⟨block, node, hbl, hnd, hk, ⟨_, _, rfl⟩ | ⟨_, scope, hsc, _, rfl⟩⟩ := closeBody_eq_ok.mp h
  · exact .refl _
  · have hch := (Tree.childOfKind?_eq_some (functionBody_eq_ok.mp hbl).2).1
    exact (refers_addReturn hnd hk hsc).mono fun other hoth => hoth ▸ ⟨hch, node, hnd, hk⟩

/-! ## The pass -/

/-- A tree shows what a shape shows; a block may have more children by now. -/
inductive Follows (tree : Tree) : Shape → Prop where
  | node {id : NodeId} {kind : NodeKind} {children : List Shape} {node : Node} :
    tree.get? id = some node → node.kind = kind → (kind ≠ .block → node.children = children.map Shape.id) →
      children.map Shape.id <+: node.children → (∀ child ∈ children, Follows tree child) →
      Follows tree (.node id kind children)

theorem follows_of_isShape {tree : Tree} (hwf : tree.WellFormed) {shape : Shape} (h : tree.IsShape shape)
    (hthr : ∃ node, tree.get? shape.id = some node) : Follows tree shape := by
  induction h with
  | @node id kind children hk hids hch ih =>
    obtain ⟨node, hnd⟩ := hthr
    have hsh : tree.IsShape (.node id kind children) := .node hk hids hch
    have hlsd := hsh.children_eq hnd
    refine .node hnd (hsh.kind_eq hnd) (fun _ => hlsd) (hlsd ▸ List.prefix_refl _) fun child hcd => ?_
    exact ih child hcd ((hsh.apart hwf).isThere child hcd)

theorem Refers.follows (h : Refers P w w') {shape : Shape} (hsh : Follows w.tree shape) : Follows w'.tree shape := by
  induction hsh with
  | node hnd hk hlsd hgrown _ ih =>
    obtain ⟨node', hnd', hkt⟩ := h.kept hnd
    refine .node hnd' (hkt.kind.trans hk) (fun hbl => ?_) (hgrown.trans hkt.grown) ih
    exact (hkt.children (hk ▸ hbl)).trans (hlsd hbl)

variable {role : Role} {kind : NodeKind} {shape : Shape} {shapes children rest : List Shape} {w₁ : Workspace}

theorem Follows.has_child (h : Follows w.tree (.node id kind children)) (hbl : kind ≠ .block) {child : NodeId}
    (hcd : child ∈ w.tree.children id) : HasAny children child := by
  obtain ⟨hnd, _, hlsd, _, _⟩ := h
  rw [children_of_get? hnd, hlsd hbl] at hcd
  obtain ⟨shape, hsh, rfl⟩ := List.mem_map.mp hcd
  exact ⟨shape, hsh, shape.has_id⟩

theorem Follows.child (h : Follows w.tree (.node id kind children)) : ∀ child ∈ children, Follows w.tree child := by
  obtain ⟨_, _, _, _, hch⟩ := h
  exact hch

theorem Follows.exists_node (h : Follows w.tree (.node id kind children)) :
    ∃ node, w.tree.get? id = some node ∧ node.kind = kind := by
  obtain ⟨hnd, hk, _, _, _⟩ := h
  exact ⟨_, hnd, hk⟩

theorem Follows.childOfKind? (h : Follows w.tree (.node id kind children)) (hbl : kind ≠ .block) (sought : NodeKind) :
    w.tree.childOfKind? id sought = (children.find? (·.kind = sought)).map Shape.id := by
  obtain ⟨hnd, _, hlsd, _, hch⟩ := h
  rw [Tree.childOfKind?, children_of_get? hnd, hlsd hbl, List.find?_map]
  refine congrArg _ (List.find?_congr fun child hcd => ?_)
  obtain ⟨hget, hk, _⟩ := hch child hcd
  rw [Function.comp_apply, Shape.id, hget, Option.any_some, hk]
  rfl

theorem refers_referName (hnd : w.tree.get? id = some node) (hk : node.kind = kind)
    (h : referName rules id kind w = .ok u w') : Refers (· = id) w w' := by
  cases kind <;> simp only [referName, bind_eq_ok, pure_eq_ok] at h
  case variableRef =>
    obtain ⟨_, _, hbi, hcheck⟩ := h
    exact (refers_bindNode hnd (by rw [hk]; rfl) hbi).trans (refers_checkWritten hcheck)
  case identifier =>
    obtain ⟨_, _, hbi, hcheck⟩ := h
    exact (refers_bindNode hnd (by rw [hk]; rfl) hbi).trans (letsReport_refers.checkDeclaredBefore trivial hcheck)
  case typeName =>
    obtain ⟨_, _, hbi, _, rfl⟩ := h
    exact refers_bindNode hnd (by rw [hk]; rfl) hbi
  case call =>
    obtain ⟨_, _, hbi, _, rfl⟩ := h
    exact refers_bindNode hnd (by rw [hk]; rfl) hbi
  all_goals
    rw [h.2]
    exact .refl w

/-- The pass over nodes that stand in some way. -/
def referIn (rules : NameRules) : Role → List Shape → Step Workspace Unit
  | .statement, shapes => referStatements rules shapes
  | .part, shapes => referParts rules shapes
  | .branch, shapes => do let _ ← referBranches rules shapes
  | .expression, shapes => referExpressions rules shapes

theorem referIn_nil (h : referIn rules role [] w = .ok u w') : w' = w := by
  cases role <;> exact (pure_eq_ok.mp h).2

theorem referIn_cons (h : referIn rules role (shape :: rest) w = .ok u w') :
    ∃ w₁, referIn rules role [shape] w = .ok () w₁ ∧ referIn rules role rest w₁ = .ok () w' := by
  obtain ⟨id, kind, children⟩ := shape
  cases role with
  | statement =>
    simp only [referIn, referStatements, bind_eq_ok] at h ⊢
    obtain ⟨_, w₁, hfst, hrs⟩ := h
    exact ⟨w₁, ⟨(), w₁, hfst, rfl⟩, hrs⟩
  | expression =>
    simp only [referIn, referExpressions, bind_eq_ok] at h ⊢
    obtain ⟨_, w₁, hfst, hrs⟩ := h
    exact ⟨w₁, ⟨(), w₁, hfst, rfl⟩, hrs⟩
  | part => cases kind <;> simp only [referIn, referParts, bind_eq_ok] at h ⊢ <;> grind [pure_eq_ok]
  | branch =>
    cases kind <;> simp only [referIn, referBranches, bind_eq_ok, pure_eq_ok] at h ⊢ <;> grind

/-- What is done at a child of a function. -/
theorem referIn_part (h : referIn rules .part [.node id kind children] w = .ok u w') :
    (kind = .parameter ∧ ∃ w₁ found, checkUnique id w = .ok () w₁ ∧ bindHint rules id w₁ = .ok found w') ∨
      (kind = .block ∧ referStatements rules children w = .ok () w') ∨ (kind ≠ .parameter ∧ kind ≠ .block ∧ w' = w) := by
  cases kind <;> simp only [referIn, referParts, bind_eq_ok, pure_eq_ok] at h
  case parameter =>
    obtain ⟨_, w₁, huq, found, _, hhint, _, rfl⟩ := h
    exact .inl ⟨rfl, w₁, found, huq, hhint⟩
  case block =>
    obtain ⟨_, _, hch, _, rfl⟩ := h
    exact .inr (.inl ⟨rfl, hch⟩)
  all_goals exact .inr (.inr ⟨nofun, nofun, h.2⟩)

theorem referIn_branch (h : referIn rules .branch [.node id kind children] w = .ok u w') :
    (kind = .block ∧ referStatements rules children w = .ok () w') ∨
      (kind ≠ .block ∧ referExpression rules (.node id kind children) w = .ok () w') := by
  cases kind <;> simp only [referIn, referBranches, bind_eq_ok, askTree_eq_ok, pure_eq_ok] at h
  case block =>
    obtain ⟨_, _, ⟨_, _, hch, _, _, ⟨_, rfl⟩, _, _, ⟨_, rfl⟩, _, _, ⟨_, rfl⟩, _, rfl⟩, _, rfl⟩ := h
    exact .inl ⟨rfl, hch⟩
  all_goals
    obtain ⟨_, _, ⟨_, _, hexp, _, _, ⟨_, rfl⟩, _, _, ⟨_, rfl⟩, _, rfl⟩, _, rfl⟩ := h
    exact .inr ⟨nofun, hexp⟩

/-- A run of the pass over nodes that the tree shows, with what it does at each of them. -/
inductive Proceeds (rules : NameRules) : Role → List Shape → Workspace → Workspace → Prop where
  | nil {role : Role} {w : Workspace} : Proceeds rules role [] w w
  | cons {role : Role} {shape : Shape} {rest : List Shape} {w w₁ w' : Workspace} :
    (∀ other ∈ shape :: rest, Follows w.tree other) → Proceeds rules role [shape] w w₁ → Refers shape.Has w w₁ →
      Proceeds rules role rest w₁ w' → Refers (HasAny rest) w₁ w' → Proceeds rules role (shape :: rest) w w'
  | name {role : Role} {id : NodeId} {kind : NodeKind} {children : List Shape} {w w₁ w' : Workspace} :
    role.Names kind → Follows w.tree (.node id kind children) → referName rules id kind w = .ok () w₁ →
      Refers (· = id) w w₁ → Proceeds rules .expression children w₁ w' → Proceeds rules role [.node id kind children] w w'
  | enters {role inner : Role} {id : NodeId} {kind : NodeKind} {children : List Shape} {w w' : Workspace} :
    role.enters? kind = some inner → Follows w.tree (.node id kind children) → Proceeds rules inner children w w' →
      Proceeds rules role [.node id kind children] w w'
  | passes {role : Role} {id : NodeId} {kind : NodeKind} {children : List Shape} {w : Workspace} :
    role.Passes kind children → Proceeds rules role [.node id kind children] w w
  | parameter {id : NodeId} {children : List Shape} {found : Option SymbolId} {w w₁ w' : Workspace} :
    Follows w.tree (.node id .parameter children) → checkUnique id w = .ok () w₁ → bindHint rules id w₁ = .ok found w' →
      Proceeds rules .part [.node id .parameter children] w w'
  | use {id : NodeId} {children : List Shape} {found : Option SymbolId} {w w₁ w' : Workspace} :
    bindAlias rules id w = .ok found w₁ → checkAliasUnique id w₁ = .ok () w' →
      Proceeds rules .statement [.node id .useDecl children] w w'
  | type {id : NodeId} {children : List Shape} {w w' : Workspace} :
    Follows w.tree (.node id .classDecl children) → checkUnique id w = .ok () w' →
      Proceeds rules .statement [.node id .classDecl children] w w'
  | constant {id : NodeId} {children : List Shape} {w w₁ w' : Workspace} :
    Follows w.tree (.node id .constantDecl children) → checkUnique id w = .ok () w₁ →
      Proceeds rules .expression children w₁ w' → Proceeds rules .statement [.node id .constantDecl children] w w'
  | function {id : NodeId} {children : List Shape} {added : Option NodeId} {w w₁ w₂ w' : Workspace} :
    Follows w.tree (.node id .functionDecl children) → checkUnique id w = .ok () w₁ → Proceeds rules .part children w₁ w₂ →
      Refers (Shape.Has (.node id .functionDecl children)) w w₂ → closeBody id w₂ = .ok added w' →
        Proceeds rules .statement [.node id .functionDecl children] w w'
  | branches {id : NodeId} {kind : NodeKind} {children : List Shape} {scope : ScopeId} {branches : List ScopeId}
      {exhaustive : Bool} {w w₁ w' : Workspace} :
    kind = .ifStmt ∨ kind = .whileStmt → Follows w.tree (.node id kind children) → Proceeds rules .branch children w w₁ →
      Refers (Shape.Has (.node id kind children)) w w₁ → w₁.tree.scopeOf id = .ok scope →
      mergeBranches scope branches exhaustive w₁ = .ok () w' → Proceeds rules .statement [.node id kind children] w w'
  | assignment {id : NodeId} {target value : Shape} {w w₁ w' : Workspace} :
    Follows w.tree (.node id .assign [target, value]) → Proceeds rules .expression [value] w w₁ → Refers value.Has w w₁ →
      markWritten target.id w₁ = .ok () w' → Proceeds rules .statement [.node id .assign [target, value]] w w'

/-- Wherever a node is visited, the pass proceeds at it and below it, and touches nothing else. -/
def ReferVisited (rules : NameRules) (shape : Shape) : Prop :=
  ∀ {role : Role} {w w' : Workspace} {u : Unit}, Follows w.tree shape → referIn rules role [shape] w = .ok u w' →
    Proceeds rules role [shape] w w' ∧ Refers shape.Has w w'

theorem proceeds_all (hvd : ∀ shape ∈ shapes, ReferVisited rules shape)
    (hfol : ∀ shape ∈ shapes, Follows w.tree shape) (h : referIn rules role shapes w = .ok u w') :
    Proceeds rules role shapes w w' ∧ Refers (HasAny shapes) w w' := by
  induction shapes generalizing w with
  | nil =>
    rw [referIn_nil h]
    exact ⟨.nil, .refl w⟩
  | cons shape rest ih =>
    obtain ⟨w₁, hfst, hrs⟩ := referIn_cons h
    obtain ⟨hsh, hoths⟩ := List.forall_mem_cons.mp hfol
    obtain ⟨hvd, hvdRest⟩ := List.forall_mem_cons.mp hvd
    obtain ⟨hone, href⟩ := hvd hsh hfst
    obtain ⟨hprcs, hrefRest⟩ := ih hvdRest (fun other hoth => href.follows (hoths other hoth)) hrs
    refine ⟨.cons hfol hone href hprcs hrefRest, (href.mono fun x hx => ?_).trans (hrefRest.mono fun x hx => ?_)⟩
    · exact hasAny_cons.mpr (.inl hx)
    · exact hasAny_cons.mpr (.inr hx)

section Node

variable (hvd : ∀ child ∈ children, ReferVisited rules child) (hfol : Follows w.tree (.node id kind children))

include hvd hfol

theorem proceeds_children (role : Role) (hfst : Refers (Has (.node id kind children)) w w₁)
    (h : referIn rules role children w₁ = .ok u w') :
    Proceeds rules role children w₁ w' ∧ Refers (Has (.node id kind children)) w w' := by
  obtain ⟨hprcs, href⟩ := proceeds_all hvd (fun child hcd => hfst.follows (hfol.child child hcd)) h
  refine ⟨hprcs, hfst.trans (href.mono fun x hx => ?_)⟩
  exact has_node.mpr (.inr hx)

theorem proceeds_enters (inner : Role) (hnt : role.enters? kind = some inner)
    (h : referIn rules inner children w = .ok u w') :
    Proceeds rules role [.node id kind children] w w' ∧ Refers (Has (.node id kind children)) w w' :=
  (proceeds_children hvd hfol inner (.refl w) h).imp_left (.enters hnt hfol)

theorem proceeds_expression (hnames : role.Names kind) (h : referExpression rules (.node id kind children) w = .ok u w') :
    Proceeds rules role [.node id kind children] w w' ∧ Refers (Has (.node id kind children)) w w' := by
  simp only [referExpression, bind_eq_ok] at h
  obtain ⟨_, w₁, hnm, hrs⟩ := h
  obtain ⟨node, hnd, hk⟩ := hfol.exists_node
  have href := refers_referName hnd hk hnm
  exact (proceeds_children hvd hfol .expression (href.mono fun x hx => hx ▸ .here) hrs).imp_left
    (.name hnames hfol hnm href)

theorem proceeds_part (h : referIn rules .part [.node id kind children] w = .ok u w') :
    Proceeds rules .part [.node id kind children] w w' ∧ Refers (Has (.node id kind children)) w w' := by
  rcases referIn_part h with ⟨rfl, w₁, _, huq, hhint⟩ | ⟨rfl, hch⟩ | ⟨hpar, hbl, rfl⟩
  · have hfst : Refers (Has (.node id .parameter children)) w w₁ := refers_checkUnique huq
    refine ⟨.parameter hfol huq hhint, hfst.trans ((refers_bindHint hhint).mono fun x hx => ?_)⟩
    exact Shape.has_node.mpr (.inr ((hfst.follows hfol).has_child nofun (Tree.childOfKind?_eq_some hx).1))
  · exact proceeds_enters hvd hfol .statement rfl hch
  · exact ⟨.passes ⟨hpar, hbl⟩, .refl _⟩

theorem proceeds_branch (h : referIn rules .branch [.node id kind children] w = .ok u w') :
    Proceeds rules .branch [.node id kind children] w w' ∧ Refers (Has (.node id kind children)) w w' := by
  rcases referIn_branch h with ⟨rfl, hch⟩ | ⟨hbl, hexp⟩
  · exact proceeds_enters hvd hfol .statement rfl hch
  · exact proceeds_expression hvd hfol (.inr ⟨rfl, hbl⟩) hexp

theorem proceeds_statement (h : referStatement rules (.node id kind children) w = .ok u w') :
    Proceeds rules .statement [.node id kind children] w w' ∧ Refers (Has (.node id kind children)) w w' := by
  cases kind <;> simp only [referStatement, bind_eq_ok, askTree_eq_ok] at h
  case useDecl =>
    obtain ⟨_, _, hbi, huq⟩ := h
    exact ⟨.use hbi huq, (refers_bindAlias hbi).trans (letsReport_refers.checkAliasUnique trivial huq)⟩
  case classDecl => exact ⟨.type hfol h, refers_checkUnique h⟩
  case constantDecl =>
    obtain ⟨_, _, huq, hrs⟩ := h
    exact (proceeds_children hvd hfol .expression (refers_checkUnique huq) hrs).imp_left
      (.constant hfol huq)
  case functionDecl =>
    obtain ⟨_, _, huq, _, w₁, hpts, _, _, hclose, _, rfl⟩ := h
    obtain ⟨hprcs, href⟩ := proceeds_children hvd hfol .part (refers_checkUnique huq) hpts
    refine ⟨.function hfol huq hprcs href hclose, href.trans ((refers_closeBody hclose).mono fun x hx => ?_)⟩
    exact has_node.mpr (.inr ((href.follows hfol).has_child nofun hx.1))
  case ifStmt | whileStmt =>
    obtain ⟨_, _, hbrs, _, w₁, ⟨hsc, rfl⟩, hmg⟩ := h
    obtain ⟨hprcs, href⟩ := proceeds_children hvd hfol .branch (.refl w)
      (bind_eq_ok.mpr ⟨_, w₁, hbrs, rfl⟩)
    exact ⟨.branches (by simp) hfol hprcs href hsc hmg, href.trans (refers_mergeBranches hmg)⟩
  case assign =>
    rcases children with _ | ⟨target, _ | ⟨value, _ | ⟨_, _⟩⟩⟩
    case cons.cons.nil =>
      simp only [bind_eq_ok] at h
      obtain ⟨_, w₁, hvl, hwr⟩ := h
      have hmem : value ∈ [target, value] := List.mem_cons_of_mem _ (List.mem_singleton_self _)
      have hrun : referIn rules .expression [value] w = .ok () w₁ := bind_eq_ok.mpr ⟨_, w₁, hvl, rfl⟩
      obtain ⟨hprcs, href⟩ := hvd value hmem (hfol.child value hmem) hrun
      refine ⟨.assignment hfol hprcs href hwr, (href.mono fun x hx => ?_).trans (refers_markWritten hwr)⟩
      exact .inside hmem hx
    all_goals
      rw [(pure_eq_ok.mp h).2]
      exact ⟨.passes ⟨rfl, by simp⟩, .refl w⟩
  case namespaceDecl => exact proceeds_enters hvd hfol .statement rfl h
  all_goals exact proceeds_enters hvd hfol .expression rfl h

end Node

theorem referVisited (rules : NameRules) (shape : Shape) : ReferVisited rules shape := by
  induction shape using induction with
  | node id kind children ih =>
    intro role w w' u hfol h
    cases role with
    | statement =>
      obtain ⟨_, w₁, hstm, hnil⟩ := bind_eq_ok.mp h
      rw [(pure_eq_ok.mp hnil).2]
      exact proceeds_statement ih hfol hstm
    | part => exact proceeds_part ih hfol h
    | branch => exact proceeds_branch ih hfol h
    | expression =>
      obtain ⟨_, w₁, hexp, hnil⟩ := bind_eq_ok.mp h
      rw [(pure_eq_ok.mp hnil).2]
      exact proceeds_expression ih hfol (.inl rfl) hexp

theorem proceeds_referIn (role : Role) (hfol : ∀ shape ∈ shapes, Follows w.tree shape)
    (h : referIn rules role shapes w = .ok u w') :
    Proceeds rules role shapes w w' ∧ Refers (HasAny shapes) w w' :=
  proceeds_all (fun shape _ => referVisited rules shape) hfol h

theorem proceeds_referAll (hwf : w.tree.WellFormed) (h : referAll rules w = .ok u w') :
    Proceeds rules .statement w.statements w w' ∧ Refers (HasAny w.statements) w w' := by
  simp only [referAll, bind_eq_ok, get_eq_ok] at h
  obtain ⟨_, w, ⟨rfl, rfl⟩, h⟩ := h
  have hap := apart_statements hwf
  have hfol : ∀ shape ∈ w.statements, Follows w.tree shape := fun shape hsh =>
    follows_of_isShape hwf (hap.isShape shape hsh) (hap.isThere shape hsh)
  exact proceeds_referIn .statement hfol h

/-- After the second pass every node stands where it stood. -/
theorem refers_referAll (hwf : w.tree.WellFormed) (h : referAll rules w = .ok u w') :
    Refers (HasAny w.statements) w w' :=
  (proceeds_referAll hwf h).2

end Workspace

end SoftTyping
