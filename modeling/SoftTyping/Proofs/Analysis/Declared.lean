import SoftTyping.Proofs.Analysis.Standing

/-!
# What declaring leaves behind

The pass that declares names visits every node once. It annotates the nodes below the statements it is given and no others
(`Touches`), and afterwards these stand where they were visited (`stands_declareAll`).
-/

namespace SoftTyping

open Step SymbolTable Tree

/-- Whether a node is passed over with all that is below it. -/
def Role.Passes : Role → NodeKind → List Shape → Prop
  | .statement, kind, children => kind = .assign ∧ children.length ≠ 2
  | .part, kind, _ => kind ≠ .parameter ∧ kind ≠ .block
  | _, _, _ => False

theorem Role.Passes.skips {role : Role} {node : Node} {children : List Shape} (h : role.Passes node.kind children)
    (hch : node.children = children.map Shape.id) : role.Skips node := by
  cases role with
  | statement => exact .inr (.inr (.inr ⟨h.1, by rw [hch, List.length_map]; exact h.2⟩))
  | part => exact h.2
  | branch | expression => exact absurd h not_false

namespace SymbolTable

variable {table table' : SymbolTable} {scope : ScopeId} {symbol : Symbol} {id : SymbolId}

theorem KeepsScopes.size_le (h : table.KeepsScopes table') : table.scopes.size ≤ table'.scopes.size := by
  cases hsz : table.scopes.size with
  | zero => exact Nat.zero_le _
  | succ last =>
    have he : table.scope? ⟨table.generation, last⟩ = some table.scopes[last] := by
      rw [scope?, if_pos rfl, Array.getElem?_eq_getElem]
    obtain ⟨entry', he', _⟩ := h.scope he
    exact (Array.getElem?_eq_some_iff.mp (scope?_eq_some he').2).1

theorem index_addScope {name : String} {enclosing : ScopeId} {kind : ScopeKind}
    (h : addScope name enclosing kind table = .ok scope table') :
    scope.index = table.scopes.size ∧ table'.scopes.size = scope.index + 1 := by
  obtain ⟨rfl, rfl⟩ := addScope_eq_ok h
  exact ⟨rfl, Array.size_push _⟩

end SymbolTable

namespace Workspace

variable {w w' : Workspace} {id : NodeId} {scope opened : ScopeId} {symbol : SymbolId} {u : Unit} {P : NodeId → Prop}

/-! ## One node -/

theorem place_eq_ok (h : place id scope w = .ok u w') :
    w'.table = w.table ∧ Touches (· = id) w w' ∧
      ∃ node, w.tree.get? id = some node ∧ w'.tree.get? id = some { node with scope := some scope } := by
  simp only [place, bind_eq_ok, askTable_eq_ok] at h
  obtain ⟨_, _, ⟨_, rfl⟩, h⟩ := h
  refine ⟨?_, touches_updateNode h (fun _ => rfl) (fun _ => rfl), get?_updateNode h⟩
  obtain ⟨_, rfl⟩ := updateNode_eq_ok.mp h
  rfl

theorem annotate_eq_ok (h : annotate id scope symbol w = .ok u w') :
    w'.table = w.table ∧ Touches (· = id) w w' ∧ ∃ node, w.tree.get? id = some node ∧
      w'.tree.get? id = some { node with scope := some scope, symbol := some symbol } := by
  refine ⟨?_, touches_updateNode h (fun _ => rfl) (fun _ => rfl), get?_updateNode h⟩
  obtain ⟨_, rfl⟩ := updateNode_eq_ok.mp h
  rfl

theorem declareFor_eq_ok {entry : Symbol} (h : declareFor id scope entry w = .ok symbol w') :
    ∃ table, define scope entry w.table = .ok symbol table ∧
      annotate id scope symbol { w with table } = .ok () w' := by
  simp only [declareFor, bind_eq_ok, pure_eq_ok, onTable_eq_ok] at h
  obtain ⟨_, _, ⟨table, hdef, rfl⟩, _, _, hann, rfl, rfl⟩ := h
  exact ⟨table, hdef, hann⟩

theorem touches_declareFor {entry : Symbol} (h : declareFor id scope entry w = .ok symbol w')
    (he : entry.data.IsNew w.table scope entry.name) : Touches (· = id) w w' := by
  obtain ⟨table, hdef, hann⟩ := declareFor_eq_ok h
  exact (touches_table (.define he hdef)).trans (annotate_eq_ok hann).2.1

theorem declareAlias_eq_ok (h : declareAlias id scope w = .ok symbol w') :
    ∃ entry target table, entry.data = .aliasOf (makeAbsolute target) none ∧
      defineUse scope entry w.table = .ok symbol table ∧ annotate id scope symbol { w with table } = .ok () w' := by
  simp only [declareAlias, bind_eq_ok, askTree_eq_ok] at h
  obtain ⟨node, w, ⟨_, rfl⟩, h⟩ := h
  cases ht : node.children.head? with
  | none =>
    simp only [ht, bind_eq_ok] at h
    obtain ⟨_, _, hthrow, _⟩ := h
    exact absurd hthrow throw_ne_ok
  | some child =>
    simp only [ht, bind_eq_ok, askTree_eq_ok, get_eq_ok] at h
    obtain ⟨_, w, ⟨_, rfl⟩, _, w, ⟨rfl, rfl⟩, h⟩ := h
    cases hnm : w.tree.childOfKind? id .identifier with
    | none =>
      simp only [hnm, bind_eq_ok, pure_eq_ok, onTable_eq_ok] at h
      obtain ⟨_, _, ⟨rfl, rfl⟩, _, _, ⟨table, hdef, rfl⟩, _, _, hann, rfl, rfl⟩ := h
      exact ⟨_, _, table, rfl, hdef, hann⟩
    | some child =>
      simp only [hnm, bind_eq_ok, askTree_eq_ok, pure_eq_ok, onTable_eq_ok] at h
      obtain ⟨_, _, ⟨_, rfl⟩, _, _, ⟨rfl, rfl⟩, _, _, ⟨table, hdef, rfl⟩, _, _, hann, rfl, rfl⟩ := h
      exact ⟨_, _, table, rfl, hdef, hann⟩

theorem touches_declareAlias (h : declareAlias id scope w = .ok symbol w') : Touches (· = id) w w' := by
  obtain ⟨_, _, _, hal, hdef, hann⟩ := declareAlias_eq_ok h
  exact (touches_table (.defineUse hal hdef)).trans (annotate_eq_ok hann).2.1

theorem touches_declareConstant (h : declareConstant id scope w = .ok symbol w') : Touches (· = id) w w' := by
  simp only [declareConstant, bind_eq_ok, askTree_eq_ok, get_eq_ok] at h
  obtain ⟨_, _, ⟨_, rfl⟩, _, _, ⟨rfl, rfl⟩, h⟩ := h
  exact touches_declareFor h (.const _)

theorem touches_declareClass (h : declareClass id scope w = .ok symbol w') : Touches (· = id) w w' := by
  simp only [declareClass, bind_eq_ok, askTree_eq_ok, askTable_eq_ok] at h
  obtain ⟨_, _, ⟨_, rfl⟩, _, _, ⟨habs, rfl⟩, h⟩ := h
  exact touches_declareFor h (.classType habs)

/-- A parameter is declared for its node, and then its function lists it. -/
theorem declareParameter_eq_ok (h : declareParameter id scope w = .ok symbol w') :
    ∃ entry method node w₁ table, w.table.scope? scope = some entry ∧ entry.kind = .method method ∧
      w.tree.get? id = some node ∧ node.kind = .parameter ∧
      declareFor id scope { name := node.text, position := node.position, data := .var { isParameter := true } } w =
        .ok symbol w₁ ∧
      updateSymbol method (·.mapMethod fun data => { data with parameters := data.parameters ++ [symbol] })
        w₁.table = .ok () table ∧ w' = { w₁ with table } := by
  simp only [declareParameter, bind_eq_ok, askTable_eq_ok, scope_eq_ok] at h
  obtain ⟨entry, w, ⟨he, rfl⟩, h⟩ := h
  cases hk : entry.kind with
  | method method =>
    simp only [hk, bind_eq_ok, askTree_eq_ok, pure_eq_ok, nodeOfKind_eq_ok, onTable_eq_ok] at h
    obtain ⟨_, _, ⟨rfl, rfl⟩, node, _, ⟨⟨hnd, hndKind⟩, rfl⟩, _, w₁, hdcl, _, _, ⟨table, hup, rfl⟩, rfl, rfl⟩ := h
    exact ⟨entry, _, node, w₁, table, he, hk, hnd, hndKind, hdcl, hup, rfl⟩
  | _ =>
    simp only [hk, bind_eq_ok] at h
    obtain ⟨_, _, hthrow, _⟩ := h
    exact absurd hthrow throw_ne_ok

theorem touches_declareParameter (h : declareParameter id scope w = .ok symbol w') : Touches (· = id) w w' := by
  obtain ⟨_, _, _, _, _, hsc, hk, _, _, hdcl, hup, rfl⟩ := declareParameter_eq_ok h
  obtain ⟨_, hdef, hann⟩ := declareFor_eq_ok hdcl
  obtain ⟨htb, htch, _⟩ := annotate_eq_ok hann
  rw [htb] at hup
  exact { htch with declares := .single (.parameter hsc hk rfl hdef hup) }

/-- The variable is declared if need be, and then the node takes it as its symbol. -/
theorem declareVariable_eq_ok (h : declareVariable id w = .ok symbol w') :
    ∃ node scope owner table, w.tree.get? id = some node ∧ node.scope = some scope ∧ w.table.variableScope scope = .ok owner ∧
      (table = w.table ∨
        ∃ name position, w.table.find? owner name .sensitive (fun symbol => symbol.var?.isSome) = .ok none ∧
          define owner { name, position, data := .var {} } w.table = .ok symbol table) ∧
      updateNode id (fun node => { node with symbol := some symbol }) { w with table } = .ok () w' := by
  simp only [declareVariable, bind_eq_ok, askTree_eq_ok, askTable_eq_ok, scopeOf_eq_ok] at h
  obtain ⟨scope, _, ⟨⟨node, hnd, hsc⟩, rfl⟩, _, _, ⟨_, rfl⟩, owner, _, ⟨hwnr, rfl⟩, existing, _, ⟨hf, rfl⟩, h⟩ := h
  cases existing with
  | some existing =>
    simp only [bind_eq_ok, pure_eq_ok] at h
    obtain ⟨_, _, ⟨rfl, rfl⟩, _, _, hup, rfl, rfl⟩ := h
    exact ⟨node, scope, owner, _, hnd, hsc, hwnr, .inl rfl, hup⟩
  | none =>
    simp only [bind_eq_ok, pure_eq_ok, onTable_eq_ok] at h
    obtain ⟨_, _, ⟨table, hdef, rfl⟩, _, _, hup, rfl, rfl⟩ := h
    exact ⟨node, scope, owner, table, hnd, hsc, hwnr, .inr ⟨_, _, hf, hdef⟩, hup⟩

theorem touches_declareVariable (h : declareVariable id w = .ok symbol w') :
    Touches (· = id) w w' ∧ ∃ node node', w.tree.get? id = some node ∧ w'.tree.get? id = some node' ∧
      node'.scope = node.scope := by
  obtain ⟨_, _, _, table, _, _, _, htb, hup⟩ := declareVariable_eq_ok h
  obtain ⟨node, hnd, hnew⟩ := get?_updateNode hup
  have hfst : Touches (· = id) w { w with table } := by
    rcases htb with rfl | ⟨_, _, hf, hdef⟩
    · exact .refl w
    · exact touches_table (.define (.var hf) hdef)
  exact ⟨hfst.trans (touches_updateNode hup (fun _ => rfl) (fun _ => rfl)), node, _, hnd, hnew, rfl⟩

/-! ## Nodes that open a scope -/

/-- What is left behind by a step that opens a scope for the children of a node: the scope is new, and the node opens it. -/
structure Opened (role : Role) (id : NodeId) (scope opened : ScopeId) (inner : Role) (w w' : Workspace) : Prop where
  touches : Touches (· = id) w w'
  fresh : w.table.scopes.size ≤ opened.index
  size : w'.table.scopes.size = opened.index + 1
  opens : ∃ node, w'.tree.get? id = some node ∧ Opens w'.table scope role node opened inner

theorem openNamespace_eq_ok (h : openNamespace id w = .ok opened w') :
    ∃ node storage table₁ table₂, w.tree.get? id = some node ∧ node.kind = .namespaceDecl ∧
      namespaceOf node.text w.table = .ok storage table₁ ∧
      addScope (normalizePath node.text) storage (.namespaceBlock storage ∅) table₁ = .ok opened table₂ ∧
      updateNode id (fun node => { node with scope := some opened }) { w with table := table₂ } = .ok () w' := by
  simp only [openNamespace, bind_eq_ok, askTree_eq_ok, pure_eq_ok, nodeOfKind_eq_ok, onTable_eq_ok] at h
  obtain ⟨node, w, ⟨⟨hnd, hk⟩, rfl⟩, storage, _, ⟨table₁, hsto, rfl⟩, _, _, ⟨table₂, hbl, rfl⟩, _, _, hup, rfl,
    rfl⟩ := h
  exact ⟨node, storage, table₁, table₂, hnd, hk, hsto, hbl, hup⟩

theorem opened_openNamespace (scope : ScopeId) (h : openNamespace id w = .ok opened w') :
    Opened .statement id scope opened .statement w w' := by
  obtain ⟨node, storage, table₁, table₂, hnd, hk, hsto, hbl, hup⟩ := openNamespace_eq_ok h
  have hfst : Touches (· = id) w { w with table := table₁ } := touches_table (.namespaceOf hsto)
  have hsnd : Touches (· = id) { w with table := table₁ } { w with table := table₂ } :=
    touches_table (.openNamespace (findNamespace?_namespaceOf hsto) hbl)
  obtain ⟨node', hnd', hopn⟩ := get?_updateNode hup
  have hsm : node' = node := Option.some.inj (hnd'.symm.trans hnd)
  refine ⟨(hfst.trans hsnd).trans (touches_updateNode hup (fun _ => rfl) (fun _ => rfl)), ?_, ?_, _, hopn, ?_⟩
  · rw [(index_addScope hbl).1]
    exact (namespaceOf_keeps hsto).1.size_le
  all_goals obtain ⟨_, rfl⟩ := updateNode_eq_ok.mp hup
  · exact (index_addScope hbl).2
  · exact .namespaceBlock (hsm ▸ hk) rfl (addScope_keeps hbl).2.1 rfl

theorem openBranch_eq_ok (h : openBranch id scope w = .ok opened w') :
    ∃ table, addScope conditionalName scope .conditional w.table = .ok opened table ∧
      updateNode id (fun node => { node with scope := some opened }) { w with table } = .ok () w' := by
  simp only [openBranch, bind_eq_ok, pure_eq_ok, onTable_eq_ok] at h
  obtain ⟨_, _, ⟨table, hbl, rfl⟩, _, _, hup, rfl, rfl⟩ := h
  exact ⟨table, hbl, hup⟩

theorem opened_openBranch {node : Node} (hnd : w.tree.get? id = some node) (hk : node.kind = .block)
    (h : openBranch id scope w = .ok opened w') : Opened .branch id scope opened .statement w w' := by
  obtain ⟨table, hbl, hup⟩ := openBranch_eq_ok h
  obtain ⟨node', hnd', hopn⟩ := get?_updateNode hup
  have hsm : node' = node := Option.some.inj (hnd'.symm.trans hnd)
  obtain ⟨hix, hsz⟩ := index_addScope hbl
  refine ⟨(touches_table (.openBranch hbl)).trans (touches_updateNode hup (fun _ => rfl) (fun _ => rfl)),
    Nat.le_of_eq hix.symm, ?_, _, hopn, ?_⟩
  all_goals obtain ⟨_, rfl⟩ := updateNode_eq_ok.mp hup
  · exact hsz
  · exact .branch (hsm ▸ hk) rfl (addScope_keeps hbl).2.1 rfl rfl

theorem declareFunction_eq_ok (h : declareFunction id scope w = .ok opened w') :
    ∃ node symbol method table₁ table₂ table₃, w.tree.get? id = some node ∧ node.kind = .functionDecl ∧
      symbol.name = node.text ∧ symbol.position = node.position ∧
      (∃ modifiers, symbol.data = .method { kind := .function, modifiers, isBuiltin := false }) ∧
      define scope symbol w.table = .ok method table₁ ∧
      addScope (node.text ++ "()") scope (.method method) table₁ = .ok opened table₂ ∧
      updateSymbol method (·.mapMethod fun data => { data with scope := some opened }) table₂ = .ok () table₃ ∧
      annotate id scope method { w with table := table₃ } = .ok () w' := by
  simp only [declareFunction, bind_eq_ok, askTree_eq_ok, get_eq_ok, pure_eq_ok, nodeOfKind_eq_ok,
    onTable_eq_ok] at h
  obtain ⟨node, _, ⟨⟨hnd, hk⟩, rfl⟩, _, w, ⟨rfl, rfl⟩, method, _, ⟨table₁, hmth, rfl⟩, _, _, ⟨table₂, hinn, rfl⟩, _, _,
    ⟨table₃, hup, rfl⟩, _, _, hann, rfl, rfl⟩ := h
  exact ⟨node, _, method, table₁, table₂, table₃, hnd, hk, rfl, rfl, ⟨_, rfl⟩, hmth, hinn, hup, hann⟩

theorem opened_declareFunction (h : declareFunction id scope w = .ok opened w') :
    Opened .statement id scope opened .part w w' := by
  obtain ⟨node, _, _, _, _, _, hnd, hk, _, _, ⟨_, hdt⟩, hmth, hinn, hup, hann⟩ := declareFunction_eq_ok h
  obtain ⟨htb, htch, node', hnd', hopn⟩ := annotate_eq_ok hann
  have hsm : node' = node := Option.some.inj (hnd'.symm.trans hnd)
  obtain ⟨hix, hsz⟩ := index_addScope hinn
  have hdcs := Declares.function hdt hmth hinn hup
  obtain ⟨_, rfl⟩ := updateSymbol_eq_ok hup
  refine ⟨(touches_table hdcs).trans htch, ?_, htb ▸ hsz, _, hopn, ?_⟩
  · rw [hix]
    exact (keepsScopes_define hmth).size_le
  · rw [htb]
    exact .function (hsm ▸ hk) rfl rfl (addScope_keeps hinn).2.1 rfl

/-! ## The pass -/

variable {w₁ : Workspace} {role inner : Role} {kind : NodeKind} {shape : Shape} {children rest : List Shape}

/-- The pass over nodes that stand in some way. -/
def declareIn (scope : ScopeId) : Role → List Shape → Step Workspace Unit
  | .statement => declareStatements scope
  | .part => declareParts scope
  | .branch => declareBranches scope
  | .expression => placeExpressions scope

theorem declareIn_nil (h : declareIn scope role [] w = .ok u w') : w' = w := by
  cases role <;> exact (pure_eq_ok.mp h).2

theorem declareIn_cons (h : declareIn scope role (shape :: rest) w = .ok u w') :
    ∃ w₁, declareIn scope role [shape] w = .ok () w₁ ∧ declareIn scope role rest w₁ = .ok () w' := by
  obtain ⟨id, kind, children⟩ := shape
  cases role with
  | statement =>
    simp only [declareIn, declareStatements, bind_eq_ok] at h ⊢
    obtain ⟨_, w₁, hfst, hrs⟩ := h
    exact ⟨w₁, ⟨(), w₁, hfst, rfl⟩, hrs⟩
  | expression =>
    simp only [declareIn, placeExpressions, bind_eq_ok] at h ⊢
    obtain ⟨_, w₁, hfst, hrs⟩ := h
    exact ⟨w₁, ⟨(), w₁, hfst, rfl⟩, hrs⟩
  | part => cases kind <;> simp only [declareIn, declareParts, bind_eq_ok] at h ⊢ <;> grind [pure_eq_ok]
  | branch => cases kind <;> simp only [declareIn, declareBranches, bind_eq_ok] at h ⊢ <;> grind [pure_eq_ok]

theorem declareIn_within (hinn : role.inner? kind = some inner)
    (h : declareIn scope role [.node id kind children] w = .ok u w') :
    ∃ w₁, place id scope w = .ok () w₁ ∧ declareIn scope inner children w₁ = .ok () w' := by
  cases role <;> cases kind <;> cases hinn <;>
    simp only [declareIn, declareStatements, declareStatement, declareParts, declareBranches, placeExpressions,
      placeExpression, bind_eq_ok, pure_eq_ok] at h ⊢ <;> grind

/-- The first step at a node, after which the pass goes on to some of its children, as nodes in some role and scope. -/
inductive Starts (scope : ScopeId) : Role → Shape → Role → ScopeId → List Shape → Workspace → Workspace → Prop where
  | within {role inner : Role} {id : NodeId} {kind : NodeKind} {children : List Shape} {w w' : Workspace} :
    role.inner? kind = some inner → place id scope w = .ok () w' →
      Starts scope role (.node id kind children) inner scope children w w'
  | namespaceBlock {id : NodeId} {opened : ScopeId} {children : List Shape} {w w' : Workspace} :
    openNamespace id w = .ok opened w' →
      Starts scope .statement (.node id .namespaceDecl children) .statement opened children w w'
  | function {id : NodeId} {opened : ScopeId} {children : List Shape} {w w' : Workspace} :
    declareFunction id scope w = .ok opened w' →
      Starts scope .statement (.node id .functionDecl children) .part opened children w w'
  | branch {id : NodeId} {opened : ScopeId} {children : List Shape} {w w' : Workspace} :
    openBranch id scope w = .ok opened w' → Starts scope .branch (.node id .block children) .statement opened children w w'
  | constant {id : NodeId} {symbol : SymbolId} {children : List Shape} {w w' : Workspace} :
    declareConstant id scope w = .ok symbol w' →
      Starts scope .statement (.node id .constantDecl children) .expression scope children w w'
  | type {id : NodeId} {symbol : SymbolId} {children : List Shape} {w w' : Workspace} :
    declareClass id scope w = .ok symbol w' →
      Starts scope .statement (.node id .classDecl children) .expression scope [] w w'
  | parameter {id : NodeId} {symbol : SymbolId} {children : List Shape} {w w' : Workspace} :
    declareParameter id scope w = .ok symbol w' →
      Starts scope .part (.node id .parameter children) .expression scope children w w'
  | passed {role : Role} {id : NodeId} {kind : NodeKind} {children : List Shape} {w w' : Workspace} :
    role.Passes kind children → place id scope w = .ok () w' →
      Starts scope role (.node id kind children) .expression scope [] w w'

/-- A run of the pass over nodes in a scope, with what it does at each of them. -/
inductive Declaring : ScopeId → Role → List Shape → Workspace → Workspace → Prop where
  | nil {scope : ScopeId} {role : Role} {w : Workspace} : Declaring scope role [] w w
  | cons {scope : ScopeId} {role : Role} {shape : Shape} {rest : List Shape} {w w₁ w' : Workspace} :
    Declaring scope role [shape] w w₁ → Declaring scope role rest w₁ w' → Declaring scope role (shape :: rest) w w'
  | node {scope opened : ScopeId} {role inner : Role} {shape : Shape} {visited : List Shape} {w w₁ w' : Workspace} :
    Starts scope role shape inner opened visited w w₁ → Declaring opened inner visited w₁ w' →
      Declaring scope role [shape] w w'
  | use {scope : ScopeId} {id : NodeId} {symbol : SymbolId} {children : List Shape} {w w₁ w' : Workspace} :
    declareAlias id scope w = .ok symbol w₁ → placeEach scope children w₁ = .ok () w' →
      Declaring scope .statement [.node id .useDecl children] w w'
  | assignment {scope : ScopeId} {id : NodeId} {target value : Shape} {symbol : SymbolId} {w w₁ w₂ w₃ w' : Workspace} :
    place id scope w = .ok () w₁ → Declaring scope .expression [value] w₁ w₂ → place target.id scope w₂ = .ok () w₃ →
      declareVariable target.id w₃ = .ok symbol w' → Declaring scope .statement [.node id .assign [target, value]] w w'

theorem Starts.touches {visited : List Shape} (h : Starts scope role shape inner opened visited w w') :
    Touches (· = shape.id) w w' := by
  cases h with
  | within _ hplc | passed _ hplc => exact (place_eq_ok hplc).2.1
  | namespaceBlock hop => exact (opened_openNamespace scope hop).touches
  | function hop => exact (opened_declareFunction hop).touches
  | branch hop =>
    obtain ⟨_, hbl, hup⟩ := openBranch_eq_ok hop
    exact (touches_table (.openBranch hbl)).trans (touches_updateNode hup (fun _ => rfl) (fun _ => rfl))
  | constant hdcl => exact touches_declareConstant hdcl
  | type hdcl => exact touches_declareClass hdcl
  | parameter hdcl => exact touches_declareParameter hdcl

theorem Starts.sublist {visited : List Shape} (h : Starts scope role (.node id kind children) inner opened visited w w') :
    visited.Sublist children := by
  cases h with
  | type | passed => exact List.nil_sublist children
  | _ => exact List.Sublist.refl children

/-- Nodes have been visited in a scope. -/
structure Declared (scope : ScopeId) (role : Role) (shapes : List Shape) (w w' : Workspace) : Prop where
  touches : Touches (w.tree.Within shapes) w w'
  stands : Stands w'.tree w'.table role scope w.table.scopes.size w'.table.scopes.size (shapes.map Shape.id)

theorem Touches.node (hwf : w.tree.WellFormed) (hsh : w.tree.IsShape (.node id kind children))
    (hfst : Touches (· = id) w w₁) (hrs : Touches (w₁.tree.Within children) w₁ w') :
    Touches (w.tree.Within [.node id kind children]) w w' ∧ w'.tree.get? id = w₁.tree.get? id := by
  refine ⟨(hfst.mono ?_).trans (hrs.mono ?_), hrs.frame id ?_⟩
  · rintro _ rfl
    exact ⟨_, List.mem_singleton_self _, .refl _⟩
  · exact fun x hx => ⟨_, List.mem_singleton_self _, hsh.within (hfst.tree.symm.within hx)⟩
  · exact (hfst.tree.isShape hsh).not_within (hfst.tree.wellFormed hwf)

theorem Declared.of_within (hwf : w.tree.WellFormed) (hsh : w.tree.IsShape (.node id kind children))
    (hinn : role.inner? kind = some inner) (hplc : place id scope w = .ok u w₁)
    (hch : Declared scope inner children w₁ w') : Declared scope role [.node id kind children] w w' := by
  obtain ⟨htb, htch, node, hnd, hpcd⟩ := place_eq_ok hplc
  obtain ⟨hall, hkt⟩ := Touches.node hwf hsh htch hch.touches
  have hstn := hch.stands
  rw [htb, ← hsh.children_eq hnd] at hstn
  exact ⟨hall, .within (hkt.trans hpcd) (hsh.kind_eq hnd ▸ hinn) rfl hstn (.nil (Nat.le_refl _))⟩

theorem Declared.of_opened (hwf : w.tree.WellFormed) (hsh : w.tree.IsShape (.node id kind children))
    (hopn : Opened role id scope opened inner w w₁) (hch : Declared opened inner children w₁ w') :
    Declared scope role [.node id kind children] w w' := by
  obtain ⟨hall, hkt⟩ := Touches.node hwf hsh hopn.touches hch.touches
  obtain ⟨node, hnd, hops⟩ := hopn.opens
  have hstn := hch.stands
  rw [hopn.size, ← (hopn.touches.tree.isShape hsh).children_eq hnd] at hstn
  exact ⟨hall, .opens (hkt.trans hnd) (hops.mono hch.touches.table.scopes (.refl node)) hopn.fresh hstn
    (.nil (Nat.le_refl _))⟩

theorem Declared.of_skips {node : Node} (hnd : w.tree.get? id = some node) (hsk : role.Skips node)
    (htch : Touches (w.tree.Within [.node id kind children]) w w') :
    Declared scope role [.node id kind children] w w' := by
  obtain ⟨node', hnd', hbare⟩ := htch.tree.get? hnd
  refine ⟨htch, .skipped hnd' ?_ (.nil htch.table.scopes.size_le)⟩
  have hk := Node.kind_of_bare hbare
  have hch := Node.children_of_bare hbare
  cases role with
  | statement =>
    simp only [Role.Skips, hk, hch] at hsk ⊢
    exact hsk
  | part => exact fun h => hsk (hk.symm.trans h)
  | branch => exact hsk
  | expression => exact hsk

theorem touches_placeEach (hwf : w.tree.WellFormed) {shapes : List Shape}
    (h : placeEach scope shapes w = .ok u w') : Touches (w.tree.Within shapes) w w' := by
  induction shapes generalizing w with
  | nil =>
    rw [(pure_eq_ok.mp h).2]
    exact .refl w
  | cons shape rest ih =>
    simp only [placeEach, bind_eq_ok] at h
    obtain ⟨_, w₁, hplc, hrs⟩ := h
    obtain ⟨_, htch, _⟩ := place_eq_ok hplc
    refine (htch.mono ?_).trans ((ih (htch.tree.wellFormed hwf) hrs).mono ?_)
    · rintro _ rfl
      exact ⟨shape, List.mem_cons_self, .refl _⟩
    · rintro x hx
      obtain ⟨other, hoth, hbel⟩ := htch.tree.symm.within hx
      exact ⟨other, List.mem_cons_of_mem _ hoth, hbel⟩

theorem Declared.cons (hap : w.tree.Apart (shape :: rest))
    (hfst : Declared scope role [shape] w w₁) (hrs : Declared scope role rest w₁ w') :
    Declared scope role (shape :: rest) w w' := by
  refine ⟨(hfst.touches.mono ?_).trans (hrs.touches.mono ?_), (hfst.stands.mono hrs.touches.table.scopes ?_).append
    hrs.stands⟩
  · rintro x ⟨other, hoth, hbel⟩
    rw [List.mem_singleton.mp hoth] at hbel
    exact ⟨shape, List.mem_cons_self, hbel⟩
  · rintro x hx
    obtain ⟨other, hoth, hbel⟩ := hfst.touches.tree.symm.within hx
    exact ⟨other, List.mem_cons_of_mem _ hoth, hbel⟩
  · intro id below node hid hbel hnd
    rw [List.map_singleton, List.mem_singleton] at hid
    subst hid
    refine ⟨node, (hrs.touches.frame below ?_).trans hnd, .refl node⟩
    rintro ⟨other, hoth, hbel'⟩
    exact (List.pairwise_cons.mp (hfst.touches.tree.apart hap).disjoint).1 other hoth below hbel hbel'

/-- An assignment has been visited: its value first, and then the variable that it writes. -/
theorem Declared.of_assignment {target value : Shape} {w₂ w₃ : Workspace} {symbol : SymbolId} {u₁ u₂ : Unit}
    (hwf : w.tree.WellFormed) (hsh : w.tree.IsShape (.node id .assign [target, value]))
    (hplc : place id scope w = .ok u₁ w₁) (hvl : Declared scope .expression [value] w₁ w₂)
    (ht : place target.id scope w₂ = .ok u₂ w₃) (hdcl : declareVariable target.id w₃ = .ok symbol w') :
    Declared scope .statement [.node id .assign [target, value]] w w' := by
  obtain ⟨htb, htch, node, hnd, hpcd⟩ := place_eq_ok hplc
  obtain ⟨_, htch₃, _, _, hpcd₃⟩ := place_eq_ok ht
  obtain ⟨htch₄, written, written', hwr, hwr', hsc⟩ := touches_declareVariable hdcl
  cases hpcd₃.symm.trans hwr
  have hboth := htch₃.trans htch₄
  have hsh₁ := htch.tree.isShape hsh
  have hwf₁ := htch.tree.wellFormed hwf
  have hvl' : Touches (w₁.tree.Within [target, value]) w₁ w' := by
    refine (hvl.touches.mono ?_).trans (hboth.mono ?_)
    · rintro x ⟨other, hoth, hbel⟩
      exact ⟨other, List.mem_cons_of_mem _ hoth, hbel⟩
    · rintro _ rfl
      exact ⟨target, List.mem_cons_self, .refl _⟩
  obtain ⟨hall, hkt⟩ := Touches.node hwf hsh htch hvl'
  have hk := hsh.kind_eq hnd
  have hch := hsh.children_eq hnd
  refine ⟨hall, .assignment (hkt.trans hpcd) hk rfl hch hwr' hsc ?_ (.nil (Nat.le_refl _))⟩
  -- The target is not below the value, so what is said of the value stays true.
  have hstn := hvl.stands
  rw [htb] at hstn
  refine (hstn.mono hboth.table.scopes ?_).append (.nil hboth.table.scopes.size_le)
  intro other below node₂ hoth hbel hnd₂
  rw [List.map_singleton, List.mem_singleton] at hoth
  subst hoth
  refine ⟨node₂, (hboth.frame below ?_).trans hnd₂, .refl node₂⟩
  rintro rfl
  have hdj := (List.pairwise_cons.mp (hsh₁.apart hwf₁).disjoint).1 value (List.mem_singleton_self _)
  exact hdj _ (.refl _) (hvl.touches.tree.symm.below hbel)

/-- A step at a node and one at its children. -/
theorem Declared.of_touches {node : Node} (hwf : w.tree.WellFormed) (hsh : w.tree.IsShape (.node id kind children))
    (hnd : w.tree.get? id = some node) (hsk : role.Skips node) (hfst : Touches (· = id) w w₁)
    (hrs : Touches (w₁.tree.Within children) w₁ w') : Declared scope role [.node id kind children] w w' :=
  .of_skips hnd hsk (Touches.node hwf hsh hfst hrs).1

theorem Declaring.declared (h : Declaring scope role shapes w w') (hwf : w.tree.WellFormed) (hap : w.tree.Apart shapes) :
    Declared scope role shapes w w' := by
  induction h with
  | nil => exact ⟨.refl _, .nil (Nat.le_refl _)⟩
  | cons _ _ ih ih' =>
    have hone := ih hwf (hap.sublist (List.singleton_sublist.mpr List.mem_cons_self))
    have htree := hone.touches.tree
    exact hone.cons hap (ih' (htree.wellFormed hwf) (htree.apart hap.tail))
  | @node _ _ _ _ shape _ _ w₁ w' hsts _ ih =>
    obtain ⟨id, kind, children⟩ := shape
    have hsh := hap.isShape _ (List.mem_singleton_self _)
    obtain ⟨node, hnd⟩ := hap.isThere _ (List.mem_singleton_self _)
    have hk := hsh.kind_eq hnd
    have htch := hsts.touches
    have hrs := ih (htch.tree.wellFormed hwf) ((htch.tree.apart (hsh.apart hwf)).sublist hsts.sublist)
    have hbel : Touches (w₁.tree.Within children) w₁ w' :=
      hrs.touches.mono fun _ ⟨other, hoth, hx⟩ => ⟨other, hsts.sublist.subset hoth, hx⟩
    cases hsts with
    | within hinn hplc => exact .of_within hwf hsh hinn hplc hrs
    | namespaceBlock hop => exact .of_opened hwf hsh (opened_openNamespace _ hop) hrs
    | function hop => exact .of_opened hwf hsh (opened_declareFunction hop) hrs
    | branch hop => exact .of_opened hwf hsh (opened_openBranch hnd hk hop) hrs
    | constant => exact .of_touches hwf hsh hnd (.inr (.inl hk)) htch hbel
    | type => exact .of_touches hwf hsh hnd (.inr (.inr (.inl hk))) htch hbel
    | parameter =>
      have hsk : Role.part.Skips node := by simp [Role.Skips, hk]
      exact .of_touches hwf hsh hnd hsk htch hbel
    | passed hps => exact .of_touches hwf hsh hnd ((hk ▸ hps).skips (hsh.children_eq hnd)) htch hbel
  | use hdcl hplc =>
    have hsh := hap.isShape _ (List.mem_singleton_self _)
    obtain ⟨node, hnd⟩ := hap.isThere _ (List.mem_singleton_self _)
    have htch := touches_declareAlias hdcl
    exact .of_touches hwf hsh hnd (.inl (hsh.kind_eq hnd)) htch
      (touches_placeEach (htch.tree.wellFormed hwf) hplc)
  | assignment hplc _ ht hdcl ih =>
    have hsh := hap.isShape _ (List.mem_singleton_self _)
    have htree := (place_eq_ok hplc).2.1.tree
    exact .of_assignment hwf hsh hplc (ih (htree.wellFormed hwf) (htree.apart (hsh.apart hwf)).tail) ht hdcl

/-! ### Runs -/

/-- Wherever a node is visited, the pass goes over it and what is below it. -/
def Visited (shape : Shape) : Prop :=
  ∀ {role : Role} {scope : ScopeId} {w w' : Workspace} {u : Unit}, declareIn scope role [shape] w = .ok u w' →
    Declaring scope role [shape] w w'

theorem declaring_all (role : Role) (hvd : ∀ shape ∈ shapes, Visited shape)
    (h : declareIn scope role shapes w = .ok u w') : Declaring scope role shapes w w' := by
  induction shapes generalizing w with
  | nil =>
    rw [declareIn_nil h]
    exact .nil
  | cons shape rest ih =>
    obtain ⟨w₁, hfst, hrs⟩ := declareIn_cons h
    obtain ⟨hone, hoths⟩ := List.forall_mem_cons.mp hvd
    exact .cons (hone hfst) (ih hoths hrs)

theorem declaring_node (hinn : role.inner? kind = none) (hvd : ∀ child ∈ children, Visited child)
    (h : declareIn scope role [.node id kind children] w = .ok u w') : Declaring scope role [.node id kind children] w w' := by
  cases role with
  | expression => nomatch hinn
  | branch =>
    obtain rfl : kind = .block := by cases kind <;> first | rfl | nomatch hinn
    simp only [declareIn, declareBranches, bind_eq_ok, pure_eq_ok] at h
    obtain ⟨_, _, hop, _, _, hch, _, rfl⟩ := h
    exact .node (.branch hop) (declaring_all .statement hvd hch)
  | part =>
    cases kind <;> cases hinn
    all_goals simp only [declareIn, declareParts, bind_eq_ok, pure_eq_ok] at h
    case part.parameter =>
      obtain ⟨_, _, hdcl, _, _, hch, _, rfl⟩ := h
      exact .node (.parameter hdcl) (declaring_all .expression hvd hch)
    all_goals
      obtain ⟨_, _, hplc, _, rfl⟩ := h
      exact .node (.passed (by simp [Role.Passes]) hplc) .nil
  | statement =>
    obtain ⟨_, _, h, hnil⟩ := bind_eq_ok.mp h
    obtain rfl := (pure_eq_ok.mp hnil).2
    cases kind <;> cases hinn
    all_goals
      simp only [declareStatement, bind_eq_ok, pure_eq_ok] at h
      obtain ⟨_, _, hfst, h⟩ := h
    case statement.namespaceDecl => exact .node (.namespaceBlock hfst) (declaring_all .statement hvd h)
    case statement.functionDecl => exact .node (.function hfst) (declaring_all .part hvd h)
    case statement.useDecl => exact .use hfst h
    case statement.constantDecl => exact .node (.constant hfst) (declaring_all .expression hvd h)
    case statement.classDecl =>
      obtain ⟨_, rfl⟩ := h
      exact .node (.type hfst) .nil
    case statement.assign =>
      rcases children with _ | ⟨target, _ | ⟨value, _ | ⟨_, _⟩⟩⟩
      case cons.cons.nil =>
        simp only [bind_eq_ok, pure_eq_ok] at h
        obtain ⟨_, w₂, hvl, _, _, ht, _, _, hdcl, _, rfl⟩ := h
        have hrun : declareIn scope .expression [value] _ = .ok () w₂ := bind_eq_ok.mpr ⟨_, w₂, hvl, rfl⟩
        exact .assignment hfst (hvd value (List.mem_cons_of_mem _ (List.mem_singleton_self _)) hrun) ht hdcl
      all_goals
        obtain rfl := (pure_eq_ok.mp h).2
        exact .node (.passed ⟨rfl, by simp⟩ hfst) .nil

theorem visited (shape : Shape) : Visited shape := by
  induction shape using Shape.induction with
  | node id kind children ih =>
    intro role scope w w' u h
    cases hinn : role.inner? kind with
    | some inner =>
      obtain ⟨w₁, hplc, hch⟩ := declareIn_within hinn h
      exact .node (.within hinn hplc) (declaring_all inner ih hch)
    | none => exact declaring_node hinn ih h

theorem declaring_declareIn (role : Role) (h : declareIn scope role shapes w = .ok u w') : Declaring scope role shapes w w' :=
  declaring_all role (fun shape _ => visited shape) h

theorem apart_statements (hwf : w.tree.WellFormed) : w.tree.Apart w.statements := by
  have hsh := isShape_shape hwf root
  rw [statements]
  cases hroot : w.tree.shape root with
  | node id kind children =>
    rw [hroot] at hsh
    exact hsh.apart hwf

/-- After the first pass the statements of a program stand in the default namespace. -/
theorem stands_declareAll (hwf : w.tree.WellFormed) (h : declareAll w = .ok u w') :
    Declared w.table.defaultNamespace .statement w.statements w w' := by
  simp only [declareAll, bind_eq_ok, get_eq_ok] at h
  obtain ⟨_, _, ⟨rfl, rfl⟩, h⟩ := h
  exact (declaring_declareIn .statement h).declared hwf (apart_statements hwf)

end Workspace

end SoftTyping
