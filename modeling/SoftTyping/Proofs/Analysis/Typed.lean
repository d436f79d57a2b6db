import SoftTyping.Proofs.Analysis.Referred
import SoftTyping.Proofs.Flow

/-!
# What typing leaves behind

The pass that makes the constraints gives nodes their type variables and leaves all else of the tree as it is (`Types`).
The flow that it makes is generated, and the type variable of a node belongs to the body to which its scope belongs
(`Typed`).
-/

namespace SoftTyping

open Step SymbolTable Flow Tree

/-- A symbol without the versions of its variable. -/
def Symbol.unversioned (symbol : Symbol) : Symbol := symbol.mapVariable fun data => { data with versions := [] }

theorem Symbol.isSome_var?_unversioned (symbol : Symbol) : symbol.unversioned.var?.isSome = symbol.var?.isSome := by
  obtain ⟨name, position, scope, data⟩ := symbol
  cases data <;> rfl

namespace SymbolTable

variable {table table' : SymbolTable} {id : SymbolId} {symbol : Symbol} {scope : ScopeId} {body : BodyId} {u : Unit}

/-- Two tables differ in the versions of variables only. -/
structure DiffersInVersions (table table' : SymbolTable) : Prop where
  generation : table'.generation = table.generation
  scopes : table'.scopes = table.scopes
  namespaces : table'.namespaces = table.namespaces
  symbols : ∀ id, (table'.symbol? id).map Symbol.unversioned = (table.symbol? id).map Symbol.unversioned

theorem DiffersInVersions.refl (table : SymbolTable) : table.DiffersInVersions table := ⟨rfl, rfl, rfl, fun _ => rfl⟩

theorem DiffersInVersions.trans {table'' : SymbolTable} (h : table.DiffersInVersions table')
    (h' : table'.DiffersInVersions table'') : table.DiffersInVersions table'' :=
  ⟨h'.generation.trans h.generation, h'.scopes.trans h.scopes, h'.namespaces.trans h.namespaces,
    fun id => (h'.symbols id).trans (h.symbols id)⟩

theorem DiffersInVersions.symm (h : table.DiffersInVersions table') : table'.DiffersInVersions table :=
  ⟨h.generation.symm, h.scopes.symm, h.namespaces.symm, fun id => (h.symbols id).symm⟩

theorem differsInVersions_updateSymbol (change : List TypeVarId → List TypeVarId)
    (h : updateSymbol id (fun symbol => symbol.mapVariable fun data => { data with versions := change data.versions }) table
      = .ok u table') : table.DiffersInVersions table' := by
  obtain ⟨_, rfl⟩ := updateSymbol_eq_ok h
  refine ⟨rfl, rfl, rfl, fun other => ?_⟩
  unfold symbol?
  split
  · simp only [Array.getElem?_modify]
    split
    · rw [Option.map_map]
      refine congrArg (fun f => Option.map f _) (funext fun symbol => ?_)
      obtain ⟨name, position, scope, data⟩ := symbol
      cases data <;> rfl
    · rfl
  · rfl

theorem DiffersInVersions.symbol? (h : table.DiffersInVersions table') (hsym : table.symbol? id = some symbol) :
    ∃ symbol', table'.symbol? id = some symbol' ∧ symbol'.unversioned = symbol.unversioned := by
  have hid := h.symbols id
  rw [hsym, Option.map_some] at hid
  exact Option.map_eq_some_iff.mp hid

theorem DiffersInVersions.isVariable (h : table.DiffersInVersions table') (hvar : table.IsVariable id) :
    table'.IsVariable id := by
  obtain ⟨symbol, hsym, hvar⟩ := hvar
  obtain ⟨symbol', hsym', hsm⟩ := h.symbol? hsym
  refine ⟨symbol', hsym', ?_⟩
  rw [← Symbol.isSome_var?_unversioned, hsm, Symbol.isSome_var?_unversioned]
  exact hvar

/-! ## The body of a scope -/

/-- A scope belongs to a body. -/
def IsBodyOf (table : SymbolTable) (scope : ScopeId) (body : BodyId) : Prop :=
  ∃ method, table.enclosingMethod scope = .ok method ∧ body = method.elim .global .function

theorem IsBodyOf.unique {body' : BodyId} (h : table.IsBodyOf scope body) (h' : table.IsBodyOf scope body') :
    body = body' := by
  obtain ⟨method, hmth, rfl⟩ := h
  obtain ⟨method', hmth', rfl⟩ := h'
  cases hmth.symm.trans hmth'
  rfl

theorem chainWithin_congr (h : table'.scope? = table.scope?) (length : Nat) (scope : ScopeId) :
    table'.chainWithin length scope = table.chainWithin length scope := by
  induction length generalizing scope with
  | zero => rfl
  | succ length ih =>
    unfold chainWithin
    rw [h]
    cases table.scope? scope with
    | none => rfl
    | some entry => simp only [ih]

theorem DiffersInVersions.scope? (h : table.DiffersInVersions table') : table'.scope? = table.scope? := by
  funext scope
  rw [SymbolTable.scope?, SymbolTable.scope?, h.generation, h.scopes]

theorem DiffersInVersions.isBodyOf (h : table.DiffersInVersions table') (hbdy : table.IsBodyOf scope body) :
    table'.IsBodyOf scope body := by
  obtain ⟨method, hmth, hbdy⟩ := hbdy
  refine ⟨method, ?_, hbdy⟩
  simp only [← hmth, enclosingMethod, home, SymbolTable.scope, chain, chainWithin_congr h.scope?, h.scope?]

end SymbolTable

namespace Workspace

variable {w w' w₁ : Workspace} {id : NodeId} {scope : ScopeId} {symbol type : SymbolId} {body : BodyId}
  {typeVar source : TypeVarId} {name : String} {position : Position} {u : Unit} {previous : Option TypeVarId}
  {change : TypeVar → TypeVar} {sources : List TypeVarId}

/-! ## Steps -/

theorem bodyOf_eq_ok : bodyOf scope w = .ok body w' ↔ w.table.IsBodyOf scope body ∧ w' = w := by
  simp only [bodyOf, bind_eq_ok, askTable_eq_ok, IsBodyOf]
  constructor
  · rintro ⟨method, _, ⟨hmth, rfl⟩, h⟩
    cases method with
    | none =>
      obtain ⟨rfl, rfl⟩ := pure_eq_ok.mp h
      exact ⟨⟨none, hmth, rfl⟩, rfl⟩
    | some method =>
      obtain ⟨rfl, rfl⟩ := pure_eq_ok.mp h
      exact ⟨⟨some method, hmth, rfl⟩, rfl⟩
  · rintro ⟨⟨method, hmth, rfl⟩, rfl⟩
    refine ⟨method, w', ⟨hmth, rfl⟩, ?_⟩
    cases method <;> rfl

theorem bodyOfNode_eq_ok : bodyOfNode id w = .ok body w' ↔
    (∃ node scope, w.tree.get? id = some node ∧ node.scope = some scope ∧ w.table.IsBodyOf scope body) ∧ w' = w := by
  simp only [bodyOfNode, bind_eq_ok, askTree_eq_ok, scopeOf_eq_ok, bodyOf_eq_ok]
  constructor
  · rintro ⟨scope, _, ⟨⟨node, hnd, hsc⟩, rfl⟩, hbdy, rfl⟩
    exact ⟨⟨node, scope, hnd, hsc, hbdy⟩, rfl⟩
  · rintro ⟨⟨node, scope, hnd, hsc, hbdy⟩, rfl⟩
    exact ⟨scope, w', ⟨⟨node, hnd, hsc⟩, rfl⟩, hbdy, rfl⟩

theorem addVariable_eq_ok {constraint : Constraint} :
    addVariable name position body constraint change w = .ok typeVar w' ↔ typeVar = ⟨w.flow.typeVars.size⟩ ∧
      w' = { w with flow := w.flow.addChanged name position body constraint change } :=
  modifyGet_eq_ok

theorem addFixed_eq_ok : addFixed name position body type w = .ok typeVar w' ↔ typeVar = ⟨w.flow.typeVars.size⟩ ∧
      w' = { w with flow := w.flow.addChanged name position body (.join []) fun var => { var with fixed := some type } } :=
  modifyGet_eq_ok

theorem pushVersion_eq_ok (h : pushVersion symbol typeVar w = .ok u w') :
    ∃ table, w' = { w with table, flow := w.flow.setHead symbol typeVar } ∧ w.table.DiffersInVersions table ∧
      (w.table.Sound → table.Sound) := by
  simp only [pushVersion, bind_eq_ok, onTable_eq_ok, modifyFlow_eq_ok] at h
  obtain ⟨_, _, ⟨table, htb, rfl⟩, rfl⟩ := h
  refine ⟨table, rfl, ?_, fun hsd => ?_⟩
  · exact differsInVersions_updateSymbol (· ++ [typeVar]) htb
  · rw [(updateSymbol_eq_ok htb).2]
    exact hsd.modify_mapVariable _ _

/-- A new version of a variable copies the current one, unless its type is given. -/
theorem newVersion_eq_ok (h : newVersion symbol position body w = .ok typeVar w') :
    ∃ entry table, w.table.symbol? symbol = some entry ∧ typeVar = ⟨w.flow.typeVars.size⟩ ∧
      w' = { w with table, flow := (w.flow.addChanged entry.name position body
        ((w.flow.head? body symbol).elim (.join []) .copy) fun var =>
          { var with
            fixed := startType? w.table entry (w.flow.head? body symbol)
            versionOf := some { symbol, previous := w.flow.head? body symbol } }).setHead symbol typeVar } ∧
      w.table.DiffersInVersions table ∧ (w.table.Sound → table.Sound) := by
  simp only [newVersion, bind_eq_ok, askTable_eq_ok, get_eq_ok, addVariable_eq_ok, pure_eq_ok] at h
  obtain ⟨entry, _, ⟨he, rfl⟩, _, w, ⟨rfl, rfl⟩, _, _, ⟨rfl, rfl⟩, _, _, hpu, rfl, rfl⟩ := h
  obtain ⟨table, rfl, hdif, hsd⟩ := pushVersion_eq_ok hpu
  refine ⟨entry, table, symbol_eq_ok.mp he, rfl, ?_, hdif, hsd⟩
  cases w.flow.head? body symbol <;> rfl

/-- A version of a variable joins others. -/
theorem joinVersions_eq_ok (h : joinVersions symbol position body sources previous w = .ok typeVar w') :
    ∃ name table, typeVar = ⟨w.flow.typeVars.size⟩ ∧
      w' = { w with table, flow := (w.flow.addChanged name position body (.join sources) fun var =>
          { var with versionOf := some { symbol, previous } }).setHead symbol typeVar } ∧
      w.table.DiffersInVersions table ∧ (w.table.Sound → table.Sound) := by
  simp only [joinVersions, bind_eq_ok, askTable_eq_ok, addVariable_eq_ok, pure_eq_ok] at h
  obtain ⟨entry, _, ⟨_, rfl⟩, _, _, ⟨rfl, rfl⟩, _, _, hpu, rfl, rfl⟩ := h
  obtain ⟨table, rfl, hdif, hsd⟩ := pushVersion_eq_ok hpu
  exact ⟨entry.name, table, rfl, rfl, hdif, hsd⟩

/-! ## What is typed -/

/-- The flow is generated, and a node that has been typed has a type variable of the body in which it stands. -/
structure Typed (w : Workspace) : Prop where
  sound : w.table.Sound
  generated : w.flow.Generated w.table
  nodes : ∀ {id node typeVar}, w.tree.get? id = some node → node.typeVar = some typeVar →
    ∃ scope body, node.scope = some scope ∧ w.table.IsBodyOf scope body ∧ w.flow.KnowsValue body typeVar

/-- A step that types some nodes and makes constraints for them. -/
structure Types (w w' : Workspace) : Prop where
  tree : w.tree.Annotates w'.tree
  kept : ∀ {id node node'}, w.tree.get? id = some node → w'.tree.get? id = some node' →
    node' = { node with typeVar := node'.typeVar }
  table : w.table.DiffersInVersions w'.table
  flow : w.flow.Extends w'.flow
  typed : w'.Typed

theorem Types.refl (hty : w.Typed) : Types w w where
  tree := .refl _
  kept := fun hnd hnd' => by
    cases hnd.symm.trans hnd'
    rfl
  table := .refl _
  flow := .refl _
  typed := hty

theorem Types.trans {w'' : Workspace} (h : Types w w') (h' : Types w' w'') : Types w w'' where
  tree := h.tree.trans h'.tree
  kept := fun {id node node''} hnd hnd'' => by
    obtain ⟨node', hnd', _⟩ := h.tree.get? hnd
    rw [h'.kept hnd' hnd'', h.kept hnd hnd']
  table := h.table.trans h'.table
  flow := h.flow.trans h'.flow
  typed := h'.typed

theorem Types.node (h : Types w w') {node : Node} (hnd : w.tree.get? id = some node) :
    ∃ typeVar, w'.tree.get? id = some { node with typeVar } := by
  obtain ⟨node', hnd', _⟩ := h.tree.get? hnd
  exact ⟨node'.typeVar, hnd'.trans (congrArg some (h.kept hnd hnd'))⟩

theorem Typed.types_flow (hty : w.Typed) {table : SymbolTable} {flow : Flow} (htb : w.table.DiffersInVersions table)
    (hsd : table.Sound) (hflow : w.flow.Extends flow) (hgd : flow.Generated table) :
    Types w { w with table, flow } where
  tree := .refl _
  kept := fun hnd hnd' => by
    cases hnd.symm.trans hnd'
    rfl
  table := htb
  flow := hflow
  typed := by
    refine ⟨hsd, hgd, fun hnd htpVar => ?_⟩
    obtain ⟨scope, body, hsc, hbdy, hvl⟩ := hty.nodes hnd htpVar
    exact ⟨scope, body, hsc, htb.isBodyOf hbdy, hvl.mono hflow⟩

theorem types_typeNode {node : Node} (hty : w.Typed) (hnd : w.tree.get? id = some node)
    (hsc : node.scope = some scope) (hbdy : w.table.IsBodyOf scope body) (hvl : w.flow.KnowsValue body typeVar)
    (h : typeNode id typeVar w = .ok u w') : Types w w' := by
  obtain ⟨_, rfl⟩ := updateNode_eq_ok.mp h
  have hget : ∀ other, (w.tree.update id fun node => { node with typeVar := some typeVar }).get? other =
      if id = other then (w.tree.get? other).map fun node => { node with typeVar := some typeVar }
      else w.tree.get? other := by
    intro other
    rw [get?_update]
    obtain ⟨index⟩ := id
    obtain ⟨index'⟩ := other
    simp only [NodeId.mk.injEq]
  refine ⟨annotates_update _ _ fun _ => rfl, fun {other old node'} hold hnd' => ?_, .refl _, .refl _,
    ⟨hty.sound, hty.generated, fun {other node' typeVar'} hnd' htpVar => ?_⟩⟩
  · rw [hget, hold] at hnd'
    split at hnd' <;> cases hnd' <;> rfl
  · rw [hget] at hnd'
    split at hnd'
    · next hoth =>
      subst hoth
      rw [hnd] at hnd'
      cases hnd'
      cases htpVar
      exact ⟨scope, body, hsc, hbdy, hvl⟩
    · exact hty.nodes hnd' htpVar

/-! ## Nodes and their bodies -/

theorem Typed.knowsValue (hty : w.Typed) (hsc : w.tree.scopeOf id = .ok scope) (hbdy : w.table.IsBodyOf scope body)
    (htpVar : w.tree.typeVarOf id = .ok typeVar) : w.flow.KnowsValue body typeVar := by
  obtain ⟨node, hnd, hsc⟩ := scopeOf_eq_ok.mp hsc
  obtain ⟨node', hnd', htpVar⟩ := typeVarOf_eq_ok.mp htpVar
  cases hnd.symm.trans hnd'
  obtain ⟨scope', body', hsc', hbdy', hvl⟩ := hty.nodes hnd htpVar
  cases hsc.symm.trans hsc'
  rwa [hbdy.unique hbdy']

theorem Types.scopeOf (h : Types w w') (hsc : w.tree.scopeOf id = .ok scope) : w'.tree.scopeOf id = .ok scope := by
  obtain ⟨node, hnd, hsc⟩ := scopeOf_eq_ok.mp hsc
  obtain ⟨typeVar, hnd'⟩ := h.node hnd
  exact scopeOf_eq_ok.mpr ⟨_, hnd', hsc⟩

theorem Types.typeNode (h : Types w w₁) (hsc : w.tree.scopeOf id = .ok scope)
    (hbdy : w.table.IsBodyOf scope body) (hvl : w₁.flow.KnowsValue body typeVar)
    (hnd : typeNode id typeVar w₁ = .ok u w') : Types w w' := by
  obtain ⟨node, hget, hsc⟩ := scopeOf_eq_ok.mp (h.scopeOf hsc)
  exact h.trans (types_typeNode h.typed hget hsc (h.table.isBodyOf hbdy) hvl hnd)

/-! ## New type variables -/

section New

variable {constraint : Constraint} {change : TypeVar → TypeVar} {new : TypeVar}

/-- A type variable is added whose constraint stays within its body. -/
theorem Typed.types_addVariable (hty : w.Typed) (h : addVariable name position body constraint change w = .ok typeVar w')
    (hnew : change { id := ⟨w.flow.typeVars.size⟩, name, position, body, constraint } = new) (hbdy : new.body = body)
    (hcld : w.flow.Closed ⟨w.flow.typeVars.size⟩ new) :
    Types w w' ∧ w'.flow.typeVar? typeVar = some new := by
  obtain ⟨rfl, rfl⟩ := addVariable_eq_ok.mp h
  refine ⟨hty.types_flow (.refl _) hty.sound (extends_addChanged ..)
    (hty.generated.addChanged hnew hbdy hcld), ?_⟩
  rw [typeVar?_addChanged, if_pos rfl, hnew]

/-- A type variable is added that becomes the version of a variable. -/
theorem Typed.generated_version (hty : w.Typed)
    (hnew : change { id := ⟨w.flow.typeVars.size⟩, name, position, body, constraint } = new) (hbdy : new.body = body)
    (hix : new.parameterIndex = none) (hcld : w.flow.Closed ⟨w.flow.typeVars.size⟩ new) :
    ((w.flow.addChanged name position body constraint change).setHead symbol ⟨w.flow.typeVars.size⟩).Generated w.table := by
  refine (hty.generated.addChanged hnew hbdy hcld).setHead ⟨new, ?_, hbdy, fun h => ?_⟩
  · rw [typeVar?_addChanged, if_pos rfl, hnew]
  · rw [hix] at h
    nomatch h

theorem typeVar?_version (flow : Flow) :
    ((flow.addChanged name position body constraint change).setHead symbol ⟨flow.typeVars.size⟩).typeVar?
      ⟨flow.typeVars.size⟩ =
      some (change { id := ⟨flow.typeVars.size⟩, name, position, body, constraint }) := by
  rw [typeVar?, typeVars_setHead]
  exact (typeVar?_addChanged ..).trans (if_pos rfl)

end New

theorem Typed.types_addFixed (hty : w.Typed) (h : addFixed name position body type w = .ok typeVar w') :
    Types w w' ∧ w'.flow.KnowsValue body typeVar := by
  obtain ⟨htps, hget⟩ := hty.types_addVariable h rfl rfl (closed_of_join_nil rfl)
  exact ⟨htps, _, hget, rfl, rfl⟩

/-- A call takes the values of its body that have been computed. -/
theorem Typed.types_addCall (hty : w.Typed) {callee : SymbolId} {arguments : List TypeVarId}
    (harguments : ∀ argument ∈ arguments, w.flow.KnowsValue body argument)
    (h : addCall name position body callee arguments w = .ok typeVar w') :
    Types w w' ∧ w'.flow.KnowsValue body typeVar := by
  simp only [addCall, bind_eq_ok, get_eq_ok] at h
  obtain ⟨_, w, ⟨rfl, rfl⟩, h⟩ := h
  have hcld : ∀ argument ∈ arguments, argument.index < w.flow.typeVars.size ∧ w.flow.KnowsValue body argument := by
    intro argument harg
    obtain ⟨var, hvar, hvl⟩ := harguments argument harg
    exact ⟨index_lt_size hvar, var, hvar, hvl⟩
  obtain ⟨htps, hget⟩ := hty.types_addVariable h rfl rfl ⟨fun _ => nofun, hcld⟩
  exact ⟨htps, _, hget, rfl, rfl⟩

/-- A read copies the version of the variable that is current; only a variable that has none starts with a type. -/
theorem closed_newVersion (hty : w.Typed) {entry : Symbol} (he : w.table.symbol? symbol = some entry) {var : TypeVar}
    (hbdy : var.body = body) (hcon : var.constraint = (w.flow.head? body symbol).elim (.join []) .copy)
    (hfx : var.fixed = startType? w.table entry (w.flow.head? body symbol)) : w.flow.Closed typeVar var := by
  cases hhd : w.flow.head? body symbol with
  | none => exact closed_of_join_nil (by rw [hcon, hhd]; rfl)
  | some previous =>
    rw [hhd] at hcon hfx
    refine ⟨fun source hsrc => ?_, by rw [hcon]; exact nofun⟩
    rw [hcon] at hsrc
    cases List.mem_singleton.mp hsrc
    obtain ⟨old, hold, hold', hpar⟩ := hty.generated.heads hhd
    refine ⟨old, hold, hold'.trans hbdy.symm, fun hix => ?_⟩
    obtain ⟨found, hf, hvar⟩ := hpar hix
    cases he.symm.trans hf
    rw [hfx, startType?]
    cases hdt : entry.data <;> simp [Symbol.var?, hdt] at hvar ⊢

theorem Typed.types_newVersion (hty : w.Typed) (h : newVersion symbol position body w = .ok typeVar w') :
    Types w w' ∧ w'.flow.KnowsValue body typeVar := by
  obtain ⟨entry, table, he, rfl, rfl, hdif, hsd⟩ := newVersion_eq_ok h
  refine ⟨hty.types_flow hdif (hsd hty.sound) ?_ ?_, _, typeVar?_version .., rfl, rfl⟩
  · exact (extends_addChanged ..).trans (extends_setHead ..)
  · exact (hty.generated_version rfl rfl rfl (closed_newVersion hty he rfl rfl rfl)).of_table hdif.isVariable

theorem Typed.types_joinVersions (hty : w.Typed) (hsrcs : ∀ source ∈ sources, w.flow.Knows body source)
    (h : joinVersions symbol position body sources previous w = .ok typeVar w') :
    Types w w' ∧ w'.flow.KnowsValue body typeVar ∧ w'.flow.KnowsJoin body typeVar := by
  obtain ⟨name, table, rfl, rfl, hdif, hsd⟩ := joinVersions_eq_ok h
  refine ⟨hty.types_flow hdif (hsd hty.sound) ?_ ?_, ⟨_, typeVar?_version .., rfl, rfl⟩,
    ⟨_, typeVar?_version .., rfl, rfl, sources, rfl⟩⟩
  · exact (extends_addChanged ..).trans (extends_setHead ..)
  · refine Generated.of_table ?_ hdif.isVariable
    refine hty.generated_version rfl rfl rfl ⟨fun source hsrc => ?_, fun _ harg => nomatch harg⟩
    obtain ⟨var, hvar, hbdy⟩ := hsrcs source hsrc
    exact ⟨var, hvar, hbdy, fun _ => rfl⟩

/-! ## Changed type variables -/

/-- A type variable that was made on the way may take another constraint. -/
theorem Types.updateVariable {var : TypeVar} (h : Types w w₁)
    (hfr : w.flow.typeVars.size ≤ typeVar.index) (hvar : w₁.flow.typeVar? typeVar = some var)
    (hbdy : (change var).body = var.body) (hix : (change var).parameterIndex = var.parameterIndex)
    (hfx : (change var).fixed = none) (hjn : ∃ sources, (change var).constraint = .join sources)
    (hcld : w₁.flow.Closed typeVar (change var)) :
    Types w { w₁ with flow := w₁.flow.updateVariable typeVar change } where
  tree := h.tree
  kept := h.kept
  table := h.table
  flow := h.flow.updateVariable hfr
  typed := by
    refine ⟨h.typed.sound, h.typed.generated.updateVariable hvar hbdy hix hfx hjn hcld, fun hnd htpVar => ?_⟩
    obtain ⟨scope, body, hsc, hbdy', hvl⟩ := h.typed.nodes hnd htpVar
    exact ⟨scope, body, hsc, hbdy', hvl.updateVariable hvar hbdy hix⟩

theorem le_index_of_newVersion (h : newVersion symbol position body w = .ok typeVar w') :
    w.flow.typeVars.size ≤ typeVar.index := by
  obtain ⟨_, _, _, rfl, _⟩ := newVersion_eq_ok h
  exact Nat.le_refl _

/-- A version that has just been made may take the type of a value instead. -/
theorem Typed.types_assigned (hty : w.Typed)
    (hsrc : w.flow.KnowsValue body source) (h : newVersion symbol position body w = .ok typeVar w₁)
    (h' : modifyFlow (·.updateVariable typeVar fun var => { var with fixed := none, constraint := .join [source] }) w₁
      = .ok u w') : Types w w' ∧ w'.flow.KnowsValue body typeVar := by
  obtain ⟨htps, hvl⟩ : Types w w₁ ∧ _ := hty.types_newVersion h
  obtain ⟨var, hvar, hbdy, hix⟩ := hvl
  obtain ⟨other, hoth, hbdy', hix'⟩ := hsrc.mono htps.flow
  rw [modifyFlow_eq_ok.mp h']
  refine ⟨htps.updateVariable (le_index_of_newVersion h) hvar rfl rfl rfl ⟨_, rfl⟩
    ⟨fun _ hs => ?_, fun _ harg => nomatch harg⟩, ?_⟩
  · cases List.mem_singleton.mp hs
    exact ⟨other, hoth, hbdy'.trans hbdy.symm, fun _ => rfl⟩
  · exact KnowsValue.updateVariable hvar rfl rfl ⟨var, hvar, hbdy, hix⟩

theorem Typed.types_addSource (hty : w.Typed) (hjn : w.flow.KnowsJoin body typeVar)
    (hsrc : w.flow.Knows body source) (h : addSource typeVar source w = .ok u w') : Types w w' := by
  obtain ⟨var, hvar, hbdy, hfx, sources, hsrcs⟩ := hjn
  obtain ⟨other, hoth, hbdy'⟩ := hsrc
  simp only [addSource, bind_eq_ok, query_eq_ok, find_eq_ok] at h
  obtain ⟨found, _, ⟨hf, rfl⟩, h⟩ := h
  cases hvar.symm.trans hf
  rw [hsrcs] at h
  simp only [addSource?, modifyFlow_eq_ok] at h
  rw [h]
  refine hty.types_flow (.refl _) hty.sound (extends_updateVariable hvar ⟨rfl, rfl, rfl, rfl, .inr ?_⟩)
    (hty.generated.updateVariable hvar rfl rfl hfx ⟨_, rfl⟩ ⟨fun s hs => ?_, fun _ harg => nomatch harg⟩)
  · refine ⟨sources, _, hsrcs, rfl, ?_⟩
    split
    · exact List.Subset.refl _
    · exact List.subset_append_left _ _
  · have hmem : s ∈ sources ∨ s = source := by
      simp only [Constraint.sources] at hs
      split at hs
      · exact .inl hs
      · simpa using hs
    rcases hmem with hs | rfl
    · exact (hty.generated.closed hvar).sources s (by rw [hsrcs]; exact hs)
    · exact ⟨other, hoth, hbdy'.trans hbdy.symm, fun _ => hfx⟩

end Workspace

end SoftTyping
