import SoftTyping.Proofs.Analysis.Typed
import SoftTyping.Proofs.SymbolTable.Owned
import SoftTyping.Proofs.SymbolTable.Rooted

/-!
# The moves of the pass that makes the constraints

The pass makes a few kinds of moves (`Moves`): it adds type variables to a body that has been met (`Adds`), makes versions of
variables current, lets the heads of loops and what a function returns take more sources, and opens functions. A body is met
when its function is opened, and the versions that are current are always versions of their variables.
-/

namespace SoftTyping

open Step SymbolTable Flow

namespace Flow

variable {flow flow' : Flow} {body : BodyId} {symbol : SymbolId} {id : TypeVarId} {versions : Versions}

/-- A body has been met. -/
def HasBody (flow : Flow) (body : BodyId) : Prop := (flow.body? body).isSome = true

/-- A type variable is a version of a variable in a body. -/
def IsVersion (flow : Flow) (body : BodyId) (symbol : SymbolId) (id : TypeVarId) : Prop :=
  ∃ var previous, flow.typeVar? id = some var ∧ var.body = body ∧ var.versionOf = some ⟨symbol, previous⟩

theorem IsVersion.mono (h : flow.Extends flow') (hid : flow.IsVersion body symbol id) : flow'.IsVersion body symbol id := by
  obtain ⟨var, previous, hvar, hbdy, hver⟩ := hid
  obtain ⟨var', hvar', hgr⟩ := h hvar
  exact ⟨var', previous, hvar', hgr.body.trans hbdy, hgr.versionOf.trans hver⟩

theorem IsVersion.knows (h : flow.IsVersion body symbol id) : flow.Knows body id := by
  obtain ⟨var, _, hvar, hbdy, _⟩ := h
  exact ⟨var, hvar, hbdy⟩

theorem Knows.lt_size (h : flow.Knows body id) : id.index < flow.typeVars.size := by
  obtain ⟨_, hvar, _⟩ := h
  exact index_lt_size hvar

theorem returns_eq_none (h : ¬ flow.HasBody body) : (flow.body body).returns = none := by
  rw [HasBody, Option.not_isSome_iff_eq_none] at h
  rw [Flow.body, h]
  rfl

theorem hasBody_updateBody (flow : Flow) (body other : BodyId) (change : Body → Body) :
    (flow.updateBody body change).HasBody other ↔ body = other ∨ flow.HasBody other := by
  rw [HasBody, HasBody, body?, updateBody, OrderedMap.get?_insert, body?]
  split
  · next h => simp [h]
  · next h => simp [h]

theorem hasBody_of_bodies (h : flow'.bodies = flow.bodies) : flow'.HasBody body ↔ flow.HasBody body := by
  simp only [HasBody, body?, h]

theorem hasBody_addChanged (flow : Flow) (name : String) (position : Position) (body other : BodyId) (constraint : Constraint)
    (change : TypeVar → TypeVar) :
    (flow.addChanged name position body constraint change).HasBody other ↔ body = other ∨ flow.HasBody other := by
  have hadd : (flow.addChanged name position body constraint change).HasBody other ↔
      (flow.add name position body constraint).2.HasBody other := hasBody_of_bodies rfl
  rw [hadd, add, hasBody_updateBody]
  rfl

theorem bodies_setHead (flow : Flow) (symbol : SymbolId) (head : TypeVarId) :
    (flow.setHead symbol head).bodies = flow.bodies := by
  unfold setHead
  split <;> rfl

theorem body_setHead (flow : Flow) (symbol : SymbolId) (head : TypeVarId) (body : BodyId) :
    (flow.setHead symbol head).body body = flow.body body := by
  unfold setHead
  split <;> rfl

theorem parameters_addChanged {name : String} {position : Position} {constraint : Constraint} (flow : Flow)
    (change : TypeVar → TypeVar) (other : BodyId) :
    ((flow.addChanged name position body constraint change).body other).parameters = (flow.body other).parameters := by
  rw [body_addChanged]
  split
  · next h => rw [h]
  · rfl

/-- The type variables of parameters are listed as parameters of their bodies. -/
def ListsParameters (flow : Flow) : Prop :=
  ∀ ⦃id var⦄, flow.typeVar? id = some var → var.parameterIndex.isSome = true → id ∈ (flow.body var.body).parameters

/-- A flow lists its parameters if each of them is one of another flow that does, or is listed anyhow. -/
theorem ListsParameters.of_old (h : flow.ListsParameters)
    (hvars : ∀ id var', flow'.typeVar? id = some var' → var'.parameterIndex.isSome = true →
      id ∈ (flow'.body var'.body).parameters ∨
        ∃ var, flow.typeVar? id = some var ∧ var.parameterIndex.isSome = true ∧ var'.body = var.body)
    (hbdys : ∀ body, (flow.body body).parameters ⊆ (flow'.body body).parameters) : flow'.ListsParameters := by
  intro id var' hvar' hix'
  rcases hvars id var' hvar' hix' with hlsd | ⟨var, hvar, hix, hbdy⟩
  · exact hlsd
  · rw [hbdy]
    exact hbdys _ (h hvar hix)

theorem ListsParameters.of_eq (h : flow.ListsParameters) (hvars : flow'.typeVars = flow.typeVars)
    (hbdys : ∀ body, (flow'.body body).parameters = (flow.body body).parameters) : flow'.ListsParameters := by
  refine h.of_old (fun id var hvar hix => .inr ⟨var, ?_, hix, rfl⟩) fun body => (hbdys body).symm ▸ List.Subset.refl _
  rwa [typeVar?, hvars] at hvar

/-- The versions of a body's variables are what they are said to be. -/
def NamesVersions (flow : Flow) (body : BodyId) (versions : Versions) : Prop :=
  ∀ ⦃symbol id⦄, versions.get? symbol = some id → flow.IsVersion body symbol id

theorem NamesVersions.mono (h : flow.NamesVersions body versions) (hext : flow.Extends flow') :
    flow'.NamesVersions body versions := fun _ _ hid => (h hid).mono hext

/-- The current version of a variable in a body is a version of it there. -/
def NamesHeads (flow : Flow) : Prop := ∀ body, flow.NamesVersions body (flow.headsIn body)

theorem NamesHeads.of_heads (h : flow.NamesHeads) (hext : flow.Extends flow') (hhds : flow'.heads = flow.heads) :
    flow'.NamesHeads := by
  intro body symbol id hid
  rw [headsIn, hhds] at hid
  exact (h body hid).mono hext

theorem NamesHeads.restoreHeads (h : flow.NamesHeads) (hvers : flow.NamesVersions body versions) :
    (flow.restoreHeads body versions).NamesHeads := by
  intro other symbol id hid
  rw [headsIn_restoreHeads] at hid
  split at hid
  · next hoth => exact (hoth ▸ hvers hid).mono (extends_of_typeVars rfl)
  · exact (h other hid).mono (extends_of_typeVars rfl)

end Flow

namespace SymbolTable

variable {table table' : SymbolTable} {scope : ScopeId} {function : SymbolId} {lo mid hi : Nat} {entry : Scope}

/-- A function has its scope among those with certain numbers. -/
def OpensWithin (table : SymbolTable) (lo hi : Nat) (function : SymbolId) : Prop :=
  ∃ scope entry, table.scope? scope = some entry ∧ entry.kind = .method function ∧ lo ≤ scope.index ∧ scope.index < hi

/-- No two scopes belong to one function. -/
def OneScopeEach (table : SymbolTable) : Prop :=
  ∀ ⦃scope scope' entry entry' function⦄, table.scope? scope = some entry → entry.kind = .method function →
    table.scope? scope' = some entry' → entry'.kind = .method function → scope = scope'

theorem Owned.oneScopeEach (h : table.Owned) : table.OneScopeEach :=
  fun _ _ _ _ _ he hk he' hk' => h.scope_unique he hk he' hk'

theorem OpensWithin.mono {lo' hi' : Nat} (h : table.OpensWithin lo hi function) (hlo : lo' ≤ lo) (hhi : hi ≤ hi') :
    table.OpensWithin lo' hi' function := by
  obtain ⟨scope, entry, he, hk, hle, hlt⟩ := h
  exact ⟨scope, entry, he, hk, by omega, by omega⟩

theorem OneScopeEach.not_opensWithin {lo' hi' : Nat} (h : table.OneScopeEach) (hfn : table.OpensWithin lo hi function)
    (hap : hi ≤ lo' ∨ hi' ≤ lo) : ¬ table.OpensWithin lo' hi' function := by
  rintro ⟨scope', entry', he', hk', hle', hlt'⟩
  obtain ⟨scope, entry, he, hk, hle, hlt⟩ := hfn
  obtain rfl := h he hk he' hk'
  omega

theorem DiffersInVersions.opensWithin (h : table.DiffersInVersions table') :
    table'.OpensWithin lo hi function ↔ table.OpensWithin lo hi function := by
  simp only [OpensWithin, h.scope?]

theorem DiffersInVersions.oneScopeEach (h : table.DiffersInVersions table') (hone : table.OneScopeEach) :
    table'.OneScopeEach := by
  simpa only [OneScopeEach, h.scope?] using hone

theorem Rooted.isBodyOf_method (h : table.Rooted) (he : table.scope? scope = some entry)
    (hk : entry.kind = .method function) : table.IsBodyOf scope (.function function) := by
  have hhm := h.home_self he (by simp [Scope.isConditional, hk])
  exact ⟨some function, by simp [enclosingMethod, hhm, hk, bind, Except.bind], rfl⟩

theorem Rooted.isBodyOf_namespace (h : table.Rooted) (he : table.scope? scope = some entry)
    (hk : entry.isNamespace = true) : table.IsBodyOf scope .global := by
  have hhm := h.home_self he (by revert hk; unfold Scope.isNamespace Scope.isConditional; cases entry.kind <;> simp)
  refine ⟨none, ?_, rfl⟩
  simp only [enclosingMethod, hhm, bind, Except.bind]
  revert hk
  unfold Scope.isNamespace
  cases entry.kind <;> simp

theorem Rooted.isBodyOf_branch (h : table.Rooted) {outer : ScopeId} {body : BodyId}
    (he : table.scope? scope = some entry) (hk : entry.kind = .conditional) (hou : entry.enclosing = some outer) :
    table.IsBodyOf scope body ↔ table.IsBodyOf outer body := by
  obtain ⟨around, har⟩ := h.scope?_enclosing he hou
  obtain ⟨_, _, hf, _⟩ := h.home_eq_ok har
  have hhm := h.home_branch he (by simp [Scope.isConditional, hk]) hou hf
  simp only [IsBodyOf, enclosingMethod, hhm, hf]

end SymbolTable

namespace Workspace

variable {w w' w₁ : Workspace} {id : NodeId} {scope : ScopeId} {symbol function callee type : SymbolId} {body : BodyId}
  {typeVar source : TypeVarId} {name : String} {position : Position} {u : Unit} {role : Role} {lo mid hi : Nat}
  {kind : NodeKind} {shape : Shape} {shapes children rest : List Shape} {loops : TypeVarId → Prop} {opens : SymbolId → Prop}
  {previous : Option TypeVarId} {var : TypeVar} {arguments sources : List TypeVarId}

/-! ## New type variables -/

/-- A type variable has been added to a flow, behind all that it takes its type from. -/
structure AddsTo (var : TypeVar) (flow flow' : Flow) : Prop where
  typeVar? : ∀ id, flow'.typeVar? id = if id = ⟨flow.typeVars.size⟩ then some var else flow.typeVar? id
  size : flow'.typeVars.size = flow.typeVars.size + 1
  hasBody : ∀ body, flow'.HasBody body ↔ var.body = body ∨ flow.HasBody body
  calls : ∀ body, (flow'.body body).calls = (flow.body body).calls ++
    if var.body = body ∧ var.constraint.isCall = true then [⟨flow.typeVars.size⟩] else []
  returns : ∀ body, (flow'.body body).returns = (flow.body body).returns
  sources : ∀ source ∈ var.constraint.sources, source.index < flow.typeVars.size
  site : ∀ callee arguments site, var.constraint = .call callee arguments site → site = flow.nextSite var.body

/-- A type variable has been added. If it is a version of a variable, it is the current and the latest one. -/
structure Adds (var : TypeVar) (w w' : Workspace) : Prop where
  flow : AddsTo var w.flow w'.flow
  head? : ∀ body symbol, w'.flow.head? body symbol =
    if var.body = body ∧ var.versionOf.map (·.symbol) = some symbol then some ⟨w.flow.typeVars.size⟩
    else w.flow.head? body symbol
  symbol? : ∀ id, w'.table.symbol? id = if var.versionOf.map (·.symbol) = some id then
      (w.table.symbol? id).map (·.mapVariable fun data => { data with versions := data.versions ++ [⟨w.flow.typeVars.size⟩] })
    else w.table.symbol? id

section Add

variable {constraint : Constraint} {change : TypeVar → TypeVar} {new : TypeVar} {flow flow' : Flow}

theorem addsTo_addChanged (hnew : change { id := ⟨flow.typeVars.size⟩, name, position, body, constraint } = new)
    (hbdy : new.body = body) (hcl : new.constraint.isCall = constraint.isCall)
    (hsrcs : ∀ source ∈ new.constraint.sources, source.index < flow.typeVars.size)
    (hsi : ∀ callee arguments site, new.constraint = .call callee arguments site → site = flow.nextSite body) :
    AddsTo new flow (flow.addChanged name position body constraint change) where
  typeVar? id := by rw [typeVar?_addChanged, hnew]
  size := by simp [addChanged, updateVariable, add, updateBody]
  hasBody other := by rw [hasBody_addChanged, hbdy]
  calls other := by
    rw [body_addChanged, hbdy, hcl]
    by_cases hoth : body = other <;> cases constraint.isCall <;> simp [hoth]
  returns other := by
    rw [body_addChanged]
    split
    · next hoth => rw [hoth]
    · rfl
  sources := hsrcs
  site := by simpa [hbdy] using hsi

theorem AddsTo.updateBody (h : AddsTo var flow flow') {change : Body → Body}
    (hcs : ∀ entry : Body, (change entry).calls = entry.calls)
    (hrets : ∀ entry : Body, (change entry).returns = entry.returns) : AddsTo var flow (flow'.updateBody var.body change) where
  typeVar? := h.typeVar?
  size := h.size
  hasBody other := by rw [hasBody_updateBody, h.hasBody]; simp
  calls other := by
    rw [← h.calls, body_updateBody]
    split
    · next hoth => rw [hcs, hoth]
    · rfl
  returns other := by
    rw [← h.returns, body_updateBody]
    split
    · next hoth => rw [hrets, hoth]
    · rfl
  sources := h.sources
  site := h.site

theorem AddsTo.of_same {flow'' : Flow} (h : AddsTo var flow flow')
    (htpVars : flow''.typeVars = flow'.typeVars) (hbdys : flow''.bodies = flow'.bodies) : AddsTo var flow flow'' where
  typeVar? id := by rw [← h.typeVar?, Flow.typeVar?, Flow.typeVar?, htpVars]
  size := by rw [htpVars, h.size]
  hasBody other := (hasBody_of_bodies hbdys).trans (h.hasBody other)
  calls other := by rw [← h.calls, body, body, body?, body?, hbdys]
  returns other := by rw [← h.returns, body, body, body?, body?, hbdys]
  sources := h.sources
  site := h.site

theorem AddsTo.adds_value (h : AddsTo var w.flow flow') (hhds : flow'.heads = w.flow.heads)
    (hver : var.versionOf = none) : Adds var w { w with flow := flow' } where
  flow := h
  head? body symbol := by simp [hver, head?, headsIn, hhds]
  symbol? id := by simp [hver]

theorem AddsTo.adds_version (h : AddsTo var w.flow flow')
    (hhds : flow'.heads = w.flow.heads) (hver : var.versionOf = some ⟨symbol, previous⟩)
    (hpu : pushVersion symbol ⟨w.flow.typeVars.size⟩ { w with flow := flow' } = .ok u w') : Adds var w w' := by
  simp only [pushVersion, bind_eq_ok, onTable_eq_ok, modifyFlow_eq_ok] at hpu
  obtain ⟨_, _, ⟨table, hup, rfl⟩, rfl⟩ := hpu
  have hvar : flow'.typeVar? ⟨w.flow.typeVars.size⟩ = some var := by rw [h.typeVar?, if_pos rfl]
  refine ⟨h.of_same (typeVars_setHead ..) (bodies_setHead ..), fun other symbol' => ?_, fun other => ?_⟩
  · simp only [head?_setHead hvar, hver, Option.map_some, Option.some.injEq]
    split
    · rfl
    · rw [head?, headsIn, hhds]
      rfl
  · rw [symbol?_updateSymbol hup]
    simp only [hver, Option.map_some, Option.some.injEq, eq_comm]

end Add

theorem adds_addFixed (h : addFixed name position body type w = .ok typeVar w') :
    ∃ var, var.body = body ∧ var.parameterIndex = none ∧ Adds var w w' := by
  obtain ⟨rfl, rfl⟩ := addFixed_eq_ok.mp h
  exact ⟨_, rfl, rfl, (addsTo_addChanged rfl rfl rfl (by simp [Constraint.sources]) (by simp)).adds_value rfl rfl⟩

theorem adds_addCall (h : addCall name position body callee arguments w = .ok typeVar w') :
    ∃ var, var.body = body ∧ var.parameterIndex = none ∧ Adds var w w' := by
  simp only [addCall, bind_eq_ok, get_eq_ok, addVariable_eq_ok] at h
  obtain ⟨_, _, ⟨rfl, rfl⟩, rfl, rfl⟩ := h
  exact ⟨_, rfl, rfl, (addsTo_addChanged rfl rfl rfl (by simp [Constraint.sources]) (by simp)).adds_value rfl rfl⟩

theorem adds_newVersion (hhds : w.flow.NamesHeads) (h : newVersion symbol position body w = .ok typeVar w') :
    typeVar = ⟨w.flow.typeVars.size⟩ ∧ ∃ var previous, var.body = body ∧ var.versionOf = some ⟨symbol, previous⟩ ∧
      var.parameterIndex = none ∧ var.constraint.isCall = false ∧ Adds var w w' := by
  simp only [newVersion, bind_eq_ok, askTable_eq_ok, get_eq_ok, addVariable_eq_ok, pure_eq_ok] at h
  obtain ⟨entry, _, ⟨he, rfl⟩, _, w, ⟨rfl, rfl⟩, _, _, ⟨rfl, rfl⟩, _, _, hpu, rfl, rfl⟩ := h
  refine ⟨rfl, _, w.flow.head? body symbol, rfl, rfl, rfl, ?_, (addsTo_addChanged rfl rfl rfl ?_ ?_).adds_version rfl rfl hpu⟩
  · cases w.flow.head? body symbol <;> rfl
  · cases hhd : w.flow.head? body symbol with
    | none => simp [Constraint.sources]
    | some head => simpa [Constraint.sources] using (hhds body hhd).knows.lt_size
  · cases w.flow.head? body symbol <;> simp

/-- A version that has just been made takes the type of a value instead. -/
theorem Adds.write (h : Adds var w w₁) (hcl : var.constraint.isCall = false) (hsrc : source.index < w.flow.typeVars.size) :
    Adds { var with fixed := none, constraint := .join [source] } w
      { w₁ with flow := w₁.flow.updateVariable ⟨w.flow.typeVars.size⟩ fun var =>
        { var with fixed := none, constraint := .join [source] } } where
  flow := {
    typeVar? := fun id => by
      rw [typeVar?_updateVariable, h.flow.typeVar?]
      by_cases hid : id = ⟨w.flow.typeVars.size⟩
      · simp [hid]
      · simp [hid, Ne.symm hid]
    size := by rw [← h.flow.size]; simp [updateVariable]
    hasBody := h.flow.hasBody
    calls := fun other => by
      have hcs := h.flow.calls other
      rw [hcl] at hcs
      exact hcs
    returns := h.flow.returns
    sources := by simpa [Constraint.sources] using hsrc
    site := by simp }
  head? := h.head?
  symbol? := h.symbol?

theorem adds_joinVersions (hsrcs : ∀ source ∈ sources, source.index < w.flow.typeVars.size)
    (h : joinVersions symbol position body sources previous w = .ok typeVar w') :
    typeVar = ⟨w.flow.typeVars.size⟩ ∧ ∃ var, var.body = body ∧ var.versionOf = some ⟨symbol, previous⟩ ∧
      var.parameterIndex = none ∧ Adds var w w' := by
  simp only [joinVersions, bind_eq_ok, askTable_eq_ok, addVariable_eq_ok, pure_eq_ok] at h
  obtain ⟨entry, _, ⟨_, rfl⟩, _, _, ⟨rfl, rfl⟩, _, _, hpu, rfl, rfl⟩ := h
  refine ⟨rfl, _, rfl, rfl, rfl, (addsTo_addChanged rfl rfl rfl ?_ (by simp)).adds_version rfl rfl hpu⟩
  exact hsrcs

section Adds

variable {var : TypeVar} (h : Adds var w w')

include h

theorem Adds.extends : w.flow.Extends w'.flow := by
  intro id old hold
  have hlt := index_lt_size hold
  refine ⟨old, ?_, .refl old⟩
  rw [h.flow.typeVar?, if_neg, hold]
  rintro rfl
  exact Nat.lt_irrefl _ hlt

theorem Adds.namesHeads (hhds : w.flow.NamesHeads) : w'.flow.NamesHeads := by
  intro body symbol id hid
  have hhd : w'.flow.head? body symbol = some id := hid
  rw [h.head?] at hhd
  split at hhd
  · next hnew =>
    obtain ⟨version, hver, rfl⟩ := Option.map_eq_some_iff.mp hnew.2
    obtain rfl := Option.some.inj hhd
    exact ⟨var, version.previous, by rw [h.flow.typeVar?, if_pos rfl], hnew.1, hver⟩
  · exact (hhds body hhd).mono h.extends

end Adds

/-! ## Opening a function -/

/-- The type variable of a parameter. -/
def parameterVar (id : TypeVarId) (body : BodyId) (index : Nat) (symbol : SymbolId) (entry : Symbol) : TypeVar where
  id
  name := entry.name
  position := entry.position
  body
  constraint := .join []
  fixed := entry.var?.bind (·.declared)
  versionOf := some { symbol, previous := none }
  parameterIndex := some index

/-- One parameter after the other is added and listed. -/
theorem openParameters_cons {index : Nat} {symbols : List SymbolId}
    (h : openParameters body index (symbol :: symbols) w = .ok u w') :
    ∃ entry w₁, w.table.symbol? symbol = some entry ∧
      Adds (parameterVar ⟨w.flow.typeVars.size⟩ body index symbol entry) w w₁ ∧
      (∀ other, (w₁.flow.body other).parameters =
        (w.flow.body other).parameters ++ if body = other then [⟨w.flow.typeVars.size⟩] else []) ∧
      openParameters body (index + 1) symbols w₁ = .ok u w' := by
  simp only [openParameters, bind_eq_ok, askTable_eq_ok, modifyFlow_eq_ok, addVariable_eq_ok,
    symbol_eq_ok] at h
  obtain ⟨entry, w, ⟨he, rfl⟩, _, _, ⟨rfl, rfl⟩, _, _, rfl, _, w₁, hpu, hrs⟩ := h
  refine ⟨entry, w₁, he, ?_, fun other => ?_, hrs⟩
  · refine AddsTo.adds_version (AddsTo.updateBody ?_ ?_ ?_) ?_ rfl hpu
    · exact addsTo_addChanged rfl rfl rfl (by simp [parameterVar, Constraint.sources]) (by simp [parameterVar])
    · exact fun _ => rfl
    · exact fun _ => rfl
    · rfl
  · obtain ⟨table, rfl, _⟩ := pushVersion_eq_ok hpu
    rw [body_setHead, body_updateBody]
    split
    · next hoth => rw [parameters_addChanged, hoth]
    · rw [parameters_addChanged, List.append_nil]

/-- The type variable that takes what a function returns. -/
def returnVar (id : TypeVarId) (position : Position) (body : BodyId) : TypeVar where
  id
  name := returnName
  position
  body
  constraint := .join []

/-- A function is opened: its body is met, and the parameters and what it returns get their type variables. -/
theorem openFunction_eq_ok (h : openFunction id w = .ok body w') :
    ∃ function node entry w₁ w₂, w.tree.symbolOf id = .ok function ∧ w.tree.get? id = some node ∧
      w.table.symbol? function = some entry ∧ body = .function function ∧
      openParameters body 0 ((entry.method?.map (·.parameters)).getD [])
        { w with flow := w.flow.updateBody body fun entry => entry } = .ok () w₁ ∧
      Adds (returnVar ⟨w₁.flow.typeVars.size⟩ node.position body) w₁ w₂ ∧
      (∀ other, (w₂.flow.body other).parameters = (w₁.flow.body other).parameters) ∧
      w' = { w₂ with
        flow := w₂.flow.updateBody body fun entry => { entry with returns := some ⟨w₁.flow.typeVars.size⟩ } } := by
  simp only [openFunction, bind_eq_ok, pure_eq_ok, askTree_eq_ok, askTable_eq_ok, modifyFlow_eq_ok,
    addVariable_eq_ok, Tree.node_eq_ok, symbol_eq_ok] at h
  obtain ⟨function, _, ⟨hsym, rfl⟩, node, _, ⟨hnd, rfl⟩, entry, _, ⟨he, rfl⟩, _, _, rfl, _, w₁, hpars,
    _, _, ⟨rfl, rfl⟩, _, _, rfl, rfl, rfl⟩ := h
  have hads : AddsTo (returnVar ⟨w₁.flow.typeVars.size⟩ node.position (.function function)) w₁.flow
      (w₁.flow.addChanged returnName node.position (.function function) (.join []) fun var => var) :=
    addsTo_addChanged rfl rfl rfl (by simp [returnVar, Constraint.sources]) (by simp [returnVar])
  exact ⟨function, node, entry, w₁, _, hsym, hnd, he, rfl, hpars, hads.adds_value rfl rfl,
    parameters_addChanged _ _, rfl⟩

/-- What opening a function on a body that has not been met keeps: it meets the body, adds type variables to it and says
which of them takes what the function returns. -/
theorem openFunction_keeps (Inv : Workspace → Prop) (hfr : ¬ w.flow.HasBody (.function function))
    (hsym : w.tree.symbolOf id = .ok function)
    (hmeet : ∀ {w : Workspace}, Inv w → Inv { w with flow := w.flow.updateBody (.function function) fun entry => entry })
    (hads : ∀ {w w' : Workspace} {var : TypeVar}, var.body = .function function → Adds var w w' → Inv w → Inv w')
    (hrets : ∀ {w : Workspace} {id : TypeVarId}, (w.flow.body (.function function)).returns = none → Inv w →
      Inv { w with flow := w.flow.updateBody (.function function) fun entry => { entry with returns := some id } })
    (h : openFunction id w = .ok body w') (hw : Inv w) : Inv w' := by
  obtain ⟨other, node, entry, w₁, w₂, hoth, _, _, rfl, hpars, hret, _, rfl⟩ := openFunction_eq_ok h
  obtain rfl : other = function := Except.ok.inj (hoth.symm.trans hsym)
  have hopn : ∀ {symbols : List SymbolId} {index : Nat} {v v' : Workspace},
      openParameters (.function other) index symbols v = .ok () v' →
      (v.flow.body (.function other)).returns = none → Inv v → (v'.flow.body (.function other)).returns = none ∧ Inv v' := by
    intro symbols
    induction symbols with
    | nil =>
      intro index v v' hrun hno hv
      rw [(pure_eq_ok.mp hrun).2]
      exact ⟨hno, hv⟩
    | cons symbol rest ih =>
      intro index v v' hrun hno hv
      obtain ⟨_, v₁, _, hone, _, hrs⟩ := openParameters_cons hrun
      exact ih hrs ((hone.flow.returns _).trans hno) (hads rfl hone hv)
  have hmet : ((w.flow.updateBody (.function other) fun entry => entry).body (.function other)).returns = none := by
    rw [body_updateBody, if_pos rfl, returns_eq_none hfr]
  obtain ⟨hno, hw₁⟩ := hopn hpars hmet (hmeet hw)
  exact hrets ((hret.flow.returns _).trans hno) (hads rfl hret hw₁)

theorem hasBody_openFunction {other : BodyId} (hfr : ¬ w.flow.HasBody (.function function))
    (hsym : w.tree.symbolOf id = .ok function) (h : openFunction id w = .ok other w') (body : BodyId) :
    w'.flow.HasBody body ↔ .function function = body ∨ w.flow.HasBody body := by
  have hkt : (w'.flow.HasBody body → .function function = body ∨ w.flow.HasBody body) ∧
      (w.flow.HasBody body → w'.flow.HasBody body) := by
    refine openFunction_keeps (fun v => (v.flow.HasBody body → .function function = body ∨ w.flow.HasBody body) ∧
      (w.flow.HasBody body → v.flow.HasBody body)) hfr hsym ?_ ?_ ?_ h ⟨.inr, fun hbdy => hbdy⟩
    · intro v hv
      simp only [hasBody_updateBody]
      exact ⟨Or.rec .inl hv.1, fun hbdy => .inr (hv.2 hbdy)⟩
    · intro v v' var hvar hads hv
      rw [hads.flow.hasBody, hvar]
      exact ⟨Or.rec .inl hv.1, fun hbdy => .inr (hv.2 hbdy)⟩
    · intro v id _ hv
      simp only [hasBody_updateBody]
      exact ⟨Or.rec .inl hv.1, fun hbdy => .inr (hv.2 hbdy)⟩
  refine ⟨hkt.1, Or.rec ?_ hkt.2⟩
  rintro rfl
  obtain ⟨opened, _, _, _, _, hopn, _, _, rfl, _, _, _, rfl⟩ := openFunction_eq_ok h
  obtain rfl : opened = function := Except.ok.inj (hopn.symm.trans hsym)
  exact (hasBody_updateBody ..).mpr (.inl rfl)

/-! ## Moves -/

/-- What the pass does in one go. The heads of loops are among `loops`, and the functions that are opened among `opens`. -/
inductive Moves (loops : TypeVarId → Prop) (opens : SymbolId → Prop) (w : Workspace) : Workspace → Prop where
  | annotate (tree : Tree) : Moves loops opens w { w with tree }
  | adds {var : TypeVar} {w' : Workspace} : w.flow.HasBody var.body → var.parameterIndex = none → Adds var w w' →
      (∀ body, (w'.flow.body body).parameters = (w.flow.body body).parameters) → Moves loops opens w w'
  | source {body : BodyId} {id source : TypeVarId} {u : Unit} {w' : Workspace} : w.flow.KnowsJoin body id →
      loops id ∨ (w.flow.body body).returns = some id → addSource id source w = .ok u w' → Moves loops opens w w'
  | heads {body : BodyId} {versions : Versions} : w.flow.NamesVersions body versions →
      Moves loops opens w { w with flow := w.flow.restoreHeads body versions }
  | function {id : NodeId} {function : SymbolId} {body : BodyId} {w' : Workspace} : opens function →
      ¬ w.flow.HasBody (.function function) → w.tree.symbolOf id = .ok function → openFunction id w = .ok body w' →
      Moves loops opens w w'

/-- What the pass does, one move after another. -/
abbrev Runs (loops : TypeVarId → Prop) (opens : SymbolId → Prop) : Workspace → Workspace → Prop :=
  Relation.ReflTransGen (Moves loops opens)

theorem Runs.mono {loops' : TypeVarId → Prop} {opens' : SymbolId → Prop} (h : Runs loops opens w w')
    (hloops : ∀ id, loops id → loops' id) (hops : ∀ function, opens function → opens' function) :
    Runs loops' opens' w w' := by
  refine Relation.ReflTransGen.mono (fun v v' hmove => ?_) _ _ h
  cases hmove with
  | annotate tree => exact .annotate tree
  | adds hbdy hix hads hpars => exact .adds hbdy hix hads hpars
  | source hjn hid h => exact .source hjn (hid.imp_left (hloops _)) h
  | heads hvers => exact .heads hvers
  | function hfn hbdy hsym h => exact .function (hops _ hfn) hbdy hsym h

/-- A join takes one more source. -/
theorem addSource_eq_ok (hjn : w.flow.KnowsJoin body typeVar) (h : addSource typeVar source w = .ok u w') :
    ∃ var sources, w.flow.typeVar? typeVar = some var ∧ var.body = body ∧ var.constraint = .join sources ∧
      w' = { w with flow := w.flow.updateVariable typeVar fun var =>
        { var with constraint := .join (if source ∈ sources then sources else sources ++ [source]) } } := by
  obtain ⟨var, hvar, hbdy, _, sources, hsrcs⟩ := hjn
  simp only [addSource, bind_eq_ok, query_eq_ok, find_eq_ok] at h
  obtain ⟨other, _, ⟨hoth, rfl⟩, h⟩ := h
  obtain rfl := Option.some.inj (hvar.symm.trans hoth)
  rw [hsrcs] at h
  exact ⟨var, sources, hvar, hbdy, hsrcs, modifyFlow_eq_ok.mp h⟩

theorem Moves.extends (h : Moves loops opens w w') : w.flow.Extends w'.flow := by
  cases h with
  | annotate => exact .refl _
  | adds _ _ hads _ => exact hads.extends
  | source hjn _ h =>
    obtain ⟨var, sources, hvar, _, hsrcs, rfl⟩ := addSource_eq_ok hjn h
    refine extends_updateVariable hvar ⟨rfl, rfl, rfl, rfl, .inr ⟨_, _, hsrcs, rfl, ?_⟩⟩
    split
    · exact List.Subset.refl _
    · exact List.subset_append_left _ _
  | heads => exact extends_of_typeVars rfl
  | @function _ _ _ w' _ hfr hsym h =>
    refine openFunction_keeps (fun v => w.flow.Extends v.flow) hfr hsym ?_ ?_ ?_ h (.refl _)
    · exact fun hv => hv.trans (extends_of_typeVars rfl)
    · exact fun _ hads hv => hv.trans hads.extends
    · exact fun _ hv => hv.trans (extends_of_typeVars rfl)

theorem Moves.namesHeads (h : Moves loops opens w w') (hhds : w.flow.NamesHeads) : w'.flow.NamesHeads := by
  cases h with
  | annotate => exact hhds
  | adds _ _ hads _ => exact hads.namesHeads hhds
  | source hjn hid h =>
    have hext := (Moves.source hjn hid h : Moves loops opens w w').extends
    obtain ⟨_, _, _, _, _, rfl⟩ := addSource_eq_ok hjn h
    exact hhds.of_heads hext rfl
  | heads hvers => exact hhds.restoreHeads hvers
  | function _ hfr hsym h =>
    refine openFunction_keeps (fun v => v.flow.NamesHeads) hfr hsym ?_ ?_ ?_ h hhds
    · exact fun hv => hv.of_heads (extends_of_typeVars rfl) rfl
    · exact fun _ hads hv => hads.namesHeads hv
    · exact fun _ hv => hv.of_heads (extends_of_typeVars rfl) rfl

theorem Moves.listsParameters (h : Moves loops opens w w') (hlists : w.flow.ListsParameters) : w'.flow.ListsParameters := by
  have hadded : ∀ {v v' : Workspace} {var : TypeVar}, Adds var v v' →
      (var.parameterIndex.isSome = true → ⟨v.flow.typeVars.size⟩ ∈ (v'.flow.body var.body).parameters) →
      (∀ body, (v.flow.body body).parameters ⊆ (v'.flow.body body).parameters) →
      v.flow.ListsParameters → v'.flow.ListsParameters := by
    intro v v' var hads hlsd hbdys hv
    refine hv.of_old (fun id var' hvar' hix => ?_) hbdys
    rw [hads.flow.typeVar?] at hvar'
    split at hvar'
    · next hid =>
      cases hvar'
      exact .inl (hid ▸ hlsd hix)
    · exact .inr ⟨var', hvar', hix, rfl⟩
  have hopn : ∀ {symbols : List SymbolId} {index : Nat} {body : BodyId} {v v' : Workspace} {u : Unit},
      openParameters body index symbols v = .ok u v' → v.flow.ListsParameters → v'.flow.ListsParameters := by
    intro symbols
    induction symbols with
    | nil =>
      intro index body v v' u hrun hv
      rwa [(pure_eq_ok.mp hrun).2]
    | cons symbol rest ih =>
      intro index body v v' u hrun hv
      obtain ⟨_, v₁, _, hads, hpars, hrs⟩ := openParameters_cons hrun
      refine ih hrs (hadded hads (fun _ => ?_) (fun other => ?_) hv)
      · rw [hpars]
        exact List.mem_append_right _ (by simp [parameterVar])
      · rw [hpars]
        exact List.subset_append_left _ _
  cases h with
  | annotate => exact hlists
  | adds _ hix hads hpars =>
    exact hadded hads (by simp [hix]) (fun body => (hpars body).symm ▸ List.Subset.refl _) hlists
  | source hjn _ h =>
    obtain ⟨_, _, hvar, _, _, rfl⟩ := addSource_eq_ok hjn h
    refine hlists.of_old (fun id var' hvar' hix => .inr ?_) fun _ => List.Subset.refl _
    rw [typeVar?_updateVariable] at hvar'
    split at hvar'
    · obtain ⟨old, hold, rfl⟩ := Option.map_eq_some_iff.mp hvar'
      exact ⟨old, hold, hix, rfl⟩
    · exact ⟨var', hvar', hix, rfl⟩
  | heads => exact hlists.of_eq rfl fun _ => rfl
  | function _ _ _ h =>
    obtain ⟨_, _, _, w₁, w₂, _, _, _, rfl, hpars, hret, hsm, rfl⟩ := openFunction_eq_ok h
    have hkt : ∀ {flow : Flow} {body : BodyId} {change : Body → Body}, flow.ListsParameters →
        (∀ entry : Body, (change entry).parameters = entry.parameters) → (flow.updateBody body change).ListsParameters := by
      refine fun {flow body change} hflow hchg => hflow.of_eq rfl fun other => ?_
      rw [body_updateBody]
      split
      · next hoth => rw [hchg, hoth]
      · rfl
    refine hkt (hadded hret (by simp [returnVar]) (fun body => (hsm body).symm ▸ List.Subset.refl _) ?_) fun _ => rfl
    exact hopn hpars (hkt hlists fun _ => rfl)

theorem Moves.hasBody_iff (h : Moves loops opens w w') : (∀ body, w'.flow.HasBody body ↔ w.flow.HasBody body) ∨
    ∃ function, opens function ∧ ∀ body, w'.flow.HasBody body ↔ .function function = body ∨ w.flow.HasBody body := by
  cases h with
  | annotate | heads => exact .inl fun _ => Iff.rfl
  | adds hbdy _ hads _ =>
    refine .inl fun body => (hads.flow.hasBody body).trans (or_iff_right_of_imp ?_)
    rintro rfl
    exact hbdy
  | source hjn _ h =>
    obtain ⟨_, _, _, _, _, rfl⟩ := addSource_eq_ok hjn h
    exact .inl fun _ => Iff.rfl
  | @function _ function _ _ hops hfr hsym h => exact .inr ⟨function, hops, hasBody_openFunction hfr hsym h⟩

theorem Runs.namesHeads (h : Runs loops opens w w') (hhds : w.flow.NamesHeads) : w'.flow.NamesHeads := by
  induction h with
  | refl => exact hhds
  | tail _ hmove ih => exact hmove.namesHeads ih

theorem Runs.listsParameters (h : Runs loops opens w w') (hlists : w.flow.ListsParameters) : w'.flow.ListsParameters := by
  induction h with
  | refl => exact hlists
  | tail _ hmove ih => exact hmove.listsParameters ih

theorem Runs.hasBody (h : Runs loops opens w w') (hbdy : w.flow.HasBody body) : w'.flow.HasBody body := by
  induction h with
  | refl => exact hbdy
  | tail _ hmove ih =>
    rcases hmove.hasBody_iff with hsm | ⟨_, _, hmore⟩
    · exact (hsm body).mpr ih
    · exact (hmore body).mpr (.inr ih)

theorem Runs.not_hasBody (h : Runs loops opens w w') (hops : ¬ opens function)
    (hbdy : ¬ w.flow.HasBody (.function function)) : ¬ w'.flow.HasBody (.function function) := by
  induction h with
  | refl => exact hbdy
  | tail _ hmove ih =>
    rcases hmove.hasBody_iff with hsm | ⟨other, hoth, hmore⟩
    · exact mt (hsm _).mp ih
    · rw [hmore, not_or]
      refine ⟨?_, ih⟩
      rintro ⟨⟩
      exact hops hoth

/-! ### Single operations -/

theorem moves_addFixed (hbdy : w.flow.HasBody body) (h : addFixed name position body type w = .ok typeVar w') :
    Moves loops opens w w' := by
  obtain ⟨_, rfl, hix, hads⟩ := adds_addFixed h
  obtain ⟨_, rfl⟩ := addFixed_eq_ok.mp h
  exact .adds hbdy hix hads fun _ => parameters_addChanged ..

theorem moves_addCall (hbdy : w.flow.HasBody body)
    (h : addCall name position body callee arguments w = .ok typeVar w') : Moves loops opens w w' := by
  obtain ⟨_, rfl, hix, hads⟩ := adds_addCall h
  simp only [addCall, bind_eq_ok, get_eq_ok, addVariable_eq_ok] at h
  obtain ⟨_, _, ⟨rfl, rfl⟩, rfl, rfl⟩ := h
  exact .adds hbdy hix hads fun _ => parameters_addChanged ..

theorem parameters_newVersion (h : newVersion symbol position body w = .ok typeVar w') (other : BodyId) :
    (w'.flow.body other).parameters = (w.flow.body other).parameters := by
  obtain ⟨_, _, _, rfl, rfl, _⟩ := newVersion_eq_ok h
  rw [body_setHead, parameters_addChanged]

theorem moves_newVersion (hhds : w.flow.NamesHeads) (hbdy : w.flow.HasBody body)
    (h : newVersion symbol position body w = .ok typeVar w') : Moves loops opens w w' := by
  obtain ⟨_, _, _, rfl, _, hix, _, hads⟩ := adds_newVersion hhds h
  exact .adds hbdy hix hads (parameters_newVersion h)

theorem moves_write (hhds : w.flow.NamesHeads) (hbdy : w.flow.HasBody body)
    (hsrc : source.index < w.flow.typeVars.size) (h : newVersion symbol position body w = .ok typeVar w₁)
    (h' : modifyFlow (·.updateVariable typeVar fun var => { var with fixed := none, constraint := .join [source] }) w₁
      = .ok u w') : Moves loops opens w w' := by
  obtain ⟨rfl, _, _, rfl, _, hix, hcl, hads⟩ := adds_newVersion hhds h
  rw [modifyFlow_eq_ok.mp h']
  refine .adds ?_ ?_ (hads.write hcl hsrc) fun other => ?_
  · exact hbdy
  · exact hix
  · exact parameters_newVersion h other

theorem moves_joinVersions (hbdy : w.flow.HasBody body) (hsrcs : ∀ source ∈ sources, w.flow.IsVersion body symbol source)
    (h : joinVersions symbol position body sources previous w = .ok typeVar w') :
    Moves loops opens w w' ∧ w'.flow.IsVersion body symbol typeVar := by
  obtain ⟨rfl, var, rfl, hver, hix, hads⟩ :=
    adds_joinVersions (fun source hsrc => (hsrcs source hsrc).knows.lt_size) h
  refine ⟨.adds hbdy hix hads fun other => ?_, var, previous, by rw [hads.flow.typeVar?, if_pos rfl], rfl, hver⟩
  obtain ⟨_, _, _, rfl, _⟩ := joinVersions_eq_ok h
  rw [body_setHead, parameters_addChanged]

theorem moves_setHead (hhds : w.flow.NamesHeads) (hver : w.flow.IsVersion body symbol typeVar) :
    Moves loops opens w { w with flow := w.flow.setHead symbol typeVar } := by
  obtain ⟨var, previous, hvar, rfl, hver⟩ := hver
  rw [setHead, hvar]
  refine .heads fun other found hf => ?_
  rw [OrderedMap.get?_insert] at hf
  split at hf
  · next hoth =>
    cases hf
    exact ⟨var, previous, hvar, rfl, hoth ▸ hver⟩
  · exact hhds _ hf

theorem moves_typeNode (h : typeNode id typeVar w = .ok u w') : Moves loops opens w w' := by
  obtain ⟨_, rfl⟩ := updateNode_eq_ok.mp h
  exact .annotate _

end Workspace

end SoftTyping
