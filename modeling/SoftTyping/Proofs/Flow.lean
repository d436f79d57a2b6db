import SoftTyping.Proofs.SymbolTable.Sound
import SoftTyping.Flow
import SoftTyping.Solver.Plan

/-!
# How flows of types are made

Type variables are only ever added, and a join only ever takes more sources (`Extends`). A flow that is made by the
analysis is closed within each body: the sources and arguments of a type variable belong to its body, arguments stand
before their call, and what a body or a version of a variable names is there (`Generated`).
-/

namespace SoftTyping

/-- The type variables that a constraint takes the type of. -/
def Constraint.sources : Constraint → List TypeVarId
  | .join sources => sources
  | .copy source => [source]
  | .call .. => []

/-- The type variables to which a constraint applies a function. -/
def Constraint.arguments : Constraint → List TypeVarId
  | .call _ arguments _ => arguments
  | _ => []

/-- One type variable comes from another by giving it more sources. -/
structure TypeVar.Grows (var var' : TypeVar) : Prop where
  body : var'.body = var.body
  fixed : var'.fixed = var.fixed
  versionOf : var'.versionOf = var.versionOf
  parameterIndex : var'.parameterIndex = var.parameterIndex
  constraint : var'.constraint = var.constraint ∨
    ∃ sources sources', var.constraint = .join sources ∧ var'.constraint = .join sources' ∧ sources ⊆ sources'

theorem TypeVar.Grows.refl (var : TypeVar) : var.Grows var := ⟨rfl, rfl, rfl, rfl, .inl rfl⟩

theorem TypeVar.Grows.trans {var var' var'' : TypeVar} (h : var.Grows var') (h' : var'.Grows var'') : var.Grows var'' := by
  refine ⟨h'.body.trans h.body, h'.fixed.trans h.fixed, h'.versionOf.trans h.versionOf,
    h'.parameterIndex.trans h.parameterIndex, ?_⟩
  rcases h.constraint with heq | ⟨sources, sources', hsrcs, hsrcs', hsub⟩
  · rw [← heq]
    exact h'.constraint
  · rcases h'.constraint with heq' | ⟨sources₁, sources₂, hsrcs₁, hsrcs₂, hsub'⟩
    · exact .inr ⟨sources, sources', hsrcs, heq'.trans hsrcs', hsub⟩
    · cases hsrcs'.symm.trans hsrcs₁
      exact .inr ⟨sources, sources₂, hsrcs, hsrcs₂, fun _ hmem => hsub' (hsub hmem)⟩

namespace Flow

variable {flow flow' : Flow} {id head : TypeVarId} {body : BodyId} {symbol : SymbolId} {var : TypeVar}
  {table table' : SymbolTable} {change : TypeVar → TypeVar}

theorem find_eq_ok : flow.find id = .ok var ↔ flow.typeVar? id = some var := by
  unfold find
  cases flow.typeVar? id <;> simp

@[simp] theorem id_body (flow : Flow) (id : BodyId) : (flow.body id).id = id := by
  unfold Flow.body body?
  cases h : flow.bodies.get? id with
  | none => rfl
  | some body => exact flow.keyed h

/-! ## The parts of a flow that has been changed -/

theorem index_lt_size (h : flow.typeVar? id = some var) : id.index < flow.typeVars.size :=
  (Array.getElem?_eq_some_iff.mp h).1

theorem typeVar?_updateVariable (flow : Flow) (id other : TypeVarId) (change : TypeVar → TypeVar) :
    (flow.updateVariable id change).typeVar? other =
      if id = other then (flow.typeVar? other).map change else flow.typeVar? other := by
  obtain ⟨index⟩ := id
  obtain ⟨index'⟩ := other
  simp only [updateVariable, typeVar?, Array.getElem?_modify, TypeVarId.mk.injEq]

theorem body_updateBody (flow : Flow) (body other : BodyId) (change : Body → Body) :
    (flow.updateBody body change).body other =
      if body = other then { change (flow.body body) with id := body } else flow.body other := by
  unfold Flow.body body? updateBody
  rw [OrderedMap.get?_insert]
  split <;> rfl

theorem typeVar?_add (flow : Flow) (name : String) (position : Position) (body : BodyId) (constraint : Constraint)
    (other : TypeVarId) :
    (flow.add name position body constraint).2.typeVar? other =
      if other = ⟨flow.typeVars.size⟩ then some { id := ⟨flow.typeVars.size⟩, name, position, body, constraint }
      else flow.typeVar? other := by
  obtain ⟨index⟩ := other
  simp only [add, updateBody, typeVar?, Array.getElem?_push, TypeVarId.mk.injEq]

theorem headsIn_restoreHeads (flow : Flow) (body other : BodyId) (versions : Versions) :
    (flow.restoreHeads body versions).headsIn other = if body = other then versions else flow.headsIn other := by
  unfold headsIn restoreHeads
  rw [OrderedMap.get?_insert]
  split <;> rfl

theorem head?_setHead (h : flow.typeVar? head = some var) (other : BodyId) (symbol other' : SymbolId) :
    (flow.setHead symbol head).head? other other' =
      if var.body = other ∧ symbol = other' then some head else flow.head? other other' := by
  unfold setHead head?
  rw [h]
  simp only [headsIn_restoreHeads]
  by_cases hbdy : var.body = other
  · subst hbdy
    simp
  · simp [hbdy]

/-! ## Flows that are extended -/

/-- One flow comes from another by adding type variables and giving joins more sources. -/
def Extends (flow flow' : Flow) : Prop :=
  ∀ ⦃id var⦄, flow.typeVar? id = some var → ∃ var', flow'.typeVar? id = some var' ∧ var.Grows var'

theorem Extends.refl (flow : Flow) : flow.Extends flow := fun _ var h => ⟨var, h, .refl var⟩

theorem Extends.trans {flow'' : Flow} (h : flow.Extends flow') (h' : flow'.Extends flow'') : flow.Extends flow'' := by
  intro id var hvar
  obtain ⟨var', hvar', hgr⟩ := h hvar
  obtain ⟨var'', hvar'', hgr'⟩ := h' hvar'
  exact ⟨var'', hvar'', hgr.trans hgr'⟩

theorem extends_of_typeVars (h : flow'.typeVars = flow.typeVars) : flow.Extends flow' := by
  intro id var hvar
  exact ⟨var, by rw [typeVar?, h]; exact hvar, .refl var⟩

theorem typeVars_setHead (flow : Flow) (symbol : SymbolId) (head : TypeVarId) :
    (flow.setHead symbol head).typeVars = flow.typeVars := by
  unfold setHead
  split <;> rfl

theorem extends_setHead (flow : Flow) (symbol : SymbolId) (head : TypeVarId) : flow.Extends (flow.setHead symbol head) :=
  extends_of_typeVars (typeVars_setHead flow symbol head)

theorem Extends.updateVariable (h : flow.Extends flow')
    (hfr : flow.typeVars.size ≤ id.index) : flow.Extends (flow'.updateVariable id change) := by
  intro other var hvar
  have hlt := index_lt_size hvar
  rw [typeVar?_updateVariable, if_neg (by rintro rfl; omega)]
  exact h hvar

theorem extends_updateVariable (hvar : flow.typeVar? id = some var)
    (hgr : var.Grows (change var)) : flow.Extends (flow.updateVariable id change) := by
  intro other old hold
  rw [typeVar?_updateVariable]
  split
  · next hid =>
    subst hid
    cases hvar.symm.trans hold
    exact ⟨change var, by rw [hvar, Option.map_some], hgr⟩
  · exact ⟨old, hold, .refl old⟩

/-- The flow with one more type variable, which is changed at once. -/
def addChanged (flow : Flow) (name : String) (position : Position) (body : BodyId) (constraint : Constraint)
    (change : TypeVar → TypeVar) : Flow :=
  (flow.add name position body constraint).2.updateVariable ⟨flow.typeVars.size⟩ change

section Add

variable (name : String) (position : Position) (constraint : Constraint) (change : TypeVar → TypeVar)

theorem typeVar?_addChanged (flow : Flow) (body : BodyId) (other : TypeVarId) :
    (flow.addChanged name position body constraint change).typeVar? other =
      if other = ⟨flow.typeVars.size⟩ then
        some (change { id := ⟨flow.typeVars.size⟩, name, position, body, constraint })
      else flow.typeVar? other := by
  rw [addChanged, typeVar?_updateVariable, typeVar?_add]
  by_cases hoth : other = ⟨flow.typeVars.size⟩
  · rw [if_pos hoth.symm, if_pos hoth, if_pos hoth, Option.map_some]
  · rw [if_neg (Ne.symm hoth), if_neg hoth, if_neg hoth]

theorem extends_addChanged (flow : Flow) (body : BodyId) :
    flow.Extends (flow.addChanged name position body constraint change) := by
  intro id var hvar
  refine ⟨var, ?_, .refl var⟩
  have hlt := index_lt_size hvar
  rw [typeVar?_addChanged, if_neg, hvar]
  rintro rfl
  exact Nat.lt_irrefl _ hlt

theorem body_addChanged (flow : Flow) (body other : BodyId) :
    (flow.addChanged name position body constraint change).body other =
      if body = other then
        { flow.body body with
          id := body
          typeVars := (flow.body body).typeVars ++ [⟨flow.typeVars.size⟩]
          calls := if constraint.isCall then (flow.body body).calls ++ [⟨flow.typeVars.size⟩] else (flow.body body).calls }
      else flow.body other := by
  let pushed : Flow :=
    { flow with typeVars := flow.typeVars.push { id := ⟨flow.typeVars.size⟩, name, position, body, constraint } }
  exact body_updateBody pushed body other fun entry => { entry with
    typeVars := entry.typeVars ++ [⟨flow.typeVars.size⟩]
    calls := if constraint.isCall then entry.calls ++ [⟨flow.typeVars.size⟩] else entry.calls }

end Add

/-! ## Flows that are generated -/

/-- A type variable belongs to a body. -/
def Knows (flow : Flow) (body : BodyId) (id : TypeVarId) : Prop := ∃ var, flow.typeVar? id = some var ∧ var.body = body

/-- A type variable belongs to a body and is no parameter of it. -/
def KnowsValue (flow : Flow) (body : BodyId) (id : TypeVarId) : Prop :=
  ∃ var, flow.typeVar? id = some var ∧ var.body = body ∧ var.parameterIndex = none

/-- A type variable belongs to a body and is a join that takes any sources. -/
def KnowsJoin (flow : Flow) (body : BodyId) (id : TypeVarId) : Prop :=
  ∃ var, flow.typeVar? id = some var ∧ var.body = body ∧ var.fixed = none ∧ ∃ sources, var.constraint = .join sources

/-- A type variable is a version of a variable in a body; only variables have parameters for versions. -/
def KnowsVersion (flow : Flow) (table : SymbolTable) (body : BodyId) (symbol : SymbolId) (id : TypeVarId) : Prop :=
  ∃ var, flow.typeVar? id = some var ∧ var.body = body ∧ (var.parameterIndex.isSome = true → table.IsVariable symbol)

/-- The constraint of a type variable stays within its body. -/
structure Closed (flow : Flow) (id : TypeVarId) (var : TypeVar) : Prop where
  sources : ∀ source ∈ var.constraint.sources, ∃ other, flow.typeVar? source = some other ∧ other.body = var.body ∧
    (other.parameterIndex.isSome = true → var.fixed = none)
  arguments : ∀ argument ∈ var.constraint.arguments, argument.index < id.index ∧ flow.KnowsValue var.body argument

theorem closed_of_join_nil (h : var.constraint = .join []) : flow.Closed id var := by
  refine ⟨?_, ?_⟩ <;> rw [h] <;> exact nofun

theorem KnowsValue.knows (h : flow.KnowsValue body id) : flow.Knows body id := by
  obtain ⟨var, hvar, hbdy, _⟩ := h
  exact ⟨var, hvar, hbdy⟩

theorem KnowsValue.knowsVersion (h : flow.KnowsValue body id) (table : SymbolTable) (symbol : SymbolId) :
    flow.KnowsVersion table body symbol id := by
  obtain ⟨var, hvar, hbdy, hix⟩ := h
  refine ⟨var, hvar, hbdy, fun hpar => ?_⟩
  rw [hix] at hpar
  nomatch hpar

theorem KnowsVersion.knows (h : flow.KnowsVersion table body symbol id) : flow.Knows body id := by
  obtain ⟨var, hvar, hbdy, _⟩ := h
  exact ⟨var, hvar, hbdy⟩

/-- A flow that is made by the analysis. -/
structure Generated (flow : Flow) (table : SymbolTable) : Prop where
  mem_typeVars : ∀ {body id}, id ∈ (flow.body body).typeVars ↔ flow.Knows body id
  increasing : ∀ body, (flow.body body).typeVars.Pairwise fun first second => first.index < second.index
  closed : ∀ {id var}, flow.typeVar? id = some var → flow.Closed id var
  parameters : ∀ {body id}, id ∈ (flow.body body).parameters →
    ∃ var, flow.typeVar? id = some var ∧ var.body = body ∧ var.parameterIndex.isSome = true
  returns : ∀ {body id}, (flow.body body).returns = some id → flow.KnowsJoin body id
  heads : ∀ {body symbol id}, flow.head? body symbol = some id → flow.KnowsVersion table body symbol id

section Extends

variable (h : flow.Extends flow')

include h

theorem KnowsValue.mono (hid : flow.KnowsValue body id) : flow'.KnowsValue body id := by
  obtain ⟨var, hvar, hbdy, hix⟩ := hid
  obtain ⟨var', hvar', hgr⟩ := h hvar
  exact ⟨var', hvar', hgr.body.trans hbdy, hgr.parameterIndex.trans hix⟩

theorem KnowsJoin.mono (hid : flow.KnowsJoin body id) : flow'.KnowsJoin body id := by
  obtain ⟨var, hvar, hbdy, hfx, sources, hsrcs⟩ := hid
  obtain ⟨var', hvar', hgr⟩ := h hvar
  refine ⟨var', hvar', hgr.body.trans hbdy, hgr.fixed.trans hfx, ?_⟩
  rcases hgr.constraint with heq | ⟨_, sources', _, hsrcs', _⟩
  · exact ⟨sources, heq.trans hsrcs⟩
  · exact ⟨sources', hsrcs'⟩

theorem KnowsVersion.mono (hvars : ∀ {id}, table.IsVariable id → table'.IsVariable id)
    (hid : flow.KnowsVersion table body symbol id) : flow'.KnowsVersion table' body symbol id := by
  obtain ⟨var, hvar, hbdy, hpar⟩ := hid
  obtain ⟨var', hvar', hgr⟩ := h hvar
  exact ⟨var', hvar', hgr.body.trans hbdy, fun hix => hvars (hpar (hgr.parameterIndex ▸ hix))⟩

theorem Closed.mono (hcld : flow.Closed id var) : flow'.Closed id var := by
  refine ⟨fun source hsrc => ?_, fun argument harg => ?_⟩
  · obtain ⟨other, hoth, hbdy, hpar⟩ := hcld.sources source hsrc
    obtain ⟨other', hoth', hgr⟩ := h hoth
    exact ⟨other', hoth', hgr.body.trans hbdy, fun hix => hpar (hgr.parameterIndex ▸ hix)⟩
  · obtain ⟨hlt, hkn⟩ := hcld.arguments argument harg
    exact ⟨hlt, hkn.mono h⟩

end Extends

section

variable (hgd : flow.Generated table)

include hgd

/-- A flow whose type variables are those of a generated one is generated if its bodies and versions are. -/
theorem Generated.of_typeVars (h : flow'.typeVars = flow.typeVars)
    (hbdys : ∀ body, (flow'.body body).typeVars = (flow.body body).typeVars)
    (hpars : ∀ {body id}, id ∈ (flow'.body body).parameters →
      ∃ var, flow.typeVar? id = some var ∧ var.body = body ∧ var.parameterIndex.isSome = true)
    (hrets : ∀ {body id}, (flow'.body body).returns = some id → flow.KnowsJoin body id)
    (hhds : ∀ {body symbol id}, flow'.head? body symbol = some id → flow.KnowsVersion table' body symbol id) :
    flow'.Generated table' := by
  have hvars : ∀ id, flow'.typeVar? id = flow.typeVar? id := fun id => by rw [typeVar?, h, typeVar?]
  have hext : flow.Extends flow' := extends_of_typeVars h
  refine ⟨fun {body id} => ?_, fun body => ?_, fun {id var} hvar => ?_, fun {body id} hid => ?_,
    fun {body id} hid => (hrets hid).mono hext, fun {body symbol id} hid => (hhds hid).mono hext fun hvar => hvar⟩
  · rw [hbdys, hgd.mem_typeVars]
    simp only [Knows, hvars]
  · rw [hbdys]
    exact hgd.increasing body
  · rw [hvars] at hvar
    exact (hgd.closed hvar).mono hext
  · rw [hvars]
    exact hpars hid

theorem Generated.of_table (hvars : ∀ {id}, table.IsVariable id → table'.IsVariable id) : flow.Generated table' :=
  hgd.of_typeVars rfl (fun _ => rfl) hgd.parameters hgd.returns fun hid =>
    (hgd.heads hid).mono (Extends.refl flow) hvars

theorem Generated.setHead (hhd : flow.KnowsVersion table body symbol head) : (flow.setHead symbol head).Generated table := by
  obtain ⟨var, hvar, hbdy, hpar⟩ := hhd
  have hsm : flow.setHead symbol head =
      flow.restoreHeads var.body ((flow.headsIn var.body).insert symbol head) := by
    rw [Flow.setHead, hvar]
  refine hgd.of_typeVars (by rw [hsm]; rfl) (fun _ => by rw [hsm]; rfl) (fun {other id} hid => ?_)
    (fun {other id} hid => ?_) fun {other symbol' id} hid => ?_
  · rw [hsm] at hid
    exact hgd.parameters hid
  · rw [hsm] at hid
    exact hgd.returns hid
  · rw [head?_setHead hvar] at hid
    split at hid
    · next hsm =>
      cases hid
      obtain ⟨rfl, rfl⟩ := hsm
      exact ⟨var, hvar, rfl, hpar⟩
    · exact hgd.heads hid

theorem Generated.restoreHeads {versions : Versions}
    (hvers : ∀ {symbol head}, versions.get? symbol = some head → flow.KnowsVersion table body symbol head) :
    (flow.restoreHeads body versions).Generated table := by
  refine hgd.of_typeVars rfl (fun _ => rfl) hgd.parameters hgd.returns fun {other symbol id} hid => ?_
  rw [head?, headsIn_restoreHeads] at hid
  split at hid
  · next hbdy => exact hbdy ▸ hvers hid
  · exact hgd.heads hid

theorem Generated.addParameter (hvar : flow.typeVar? id = some var)
    (hbdy : var.body = body) (hpar : var.parameterIndex.isSome = true) :
    (flow.updateBody body fun entry => { entry with parameters := entry.parameters ++ [id] }).Generated table := by
  refine hgd.of_typeVars rfl (fun other => ?_) (fun {other id'} hid => ?_) (fun {other id'} hid => ?_)
    hgd.heads
  · rw [body_updateBody]
    split
    · next hoth => rw [← hoth]
    · rfl
  · rw [body_updateBody] at hid
    split at hid
    · next hoth =>
      subst hoth
      rcases List.mem_append.mp hid with hid | hid
      · exact hgd.parameters hid
      · rw [List.mem_singleton.mp hid]
        exact ⟨var, hvar, hbdy, hpar⟩
    · exact hgd.parameters hid
  · rw [body_updateBody] at hid
    split at hid
    · next hoth => exact hoth ▸ hgd.returns hid
    · exact hgd.returns hid

theorem Generated.setReturns (hid : flow.KnowsJoin body id) :
    (flow.updateBody body fun entry => { entry with returns := some id }).Generated table := by
  refine hgd.of_typeVars rfl (fun other => ?_) (fun {other id'} hid' => ?_) (fun {other id'} hid' => ?_)
    hgd.heads
  · rw [body_updateBody]
    split
    · next hoth => rw [← hoth]
    · rfl
  · rw [body_updateBody] at hid'
    split at hid'
    · next hoth => exact hoth ▸ hgd.parameters hid'
    · exact hgd.parameters hid'
  · rw [body_updateBody] at hid'
    split at hid'
    · next hoth =>
      cases hid'
      exact hoth ▸ hid
    · exact hgd.returns hid'

theorem Generated.touchBody (body : BodyId) : (flow.updateBody body fun entry => entry).Generated table := by
  have hsm : ∀ other, (flow.updateBody body fun entry => entry).body other = flow.body other := by
    intro other
    rw [body_updateBody]
    split
    · next hoth =>
      subst hoth
      have := id_body flow body
      cases hbdy : flow.body body
      rw [hbdy] at this
      cases this
      rfl
    · rfl
  refine hgd.of_typeVars rfl (fun other => by rw [hsm]) (fun {other id} hid => ?_) (fun {other id} hid => ?_)
    hgd.heads
  · rw [hsm] at hid
    exact hgd.parameters hid
  · rw [hsm] at hid
    exact hgd.returns hid

/-- A new type variable whose constraint stays within its body. -/
theorem Generated.addChanged {name : String} {position : Position} {constraint : Constraint} {new : TypeVar}
    (hnew : change { id := ⟨flow.typeVars.size⟩, name, position, body, constraint } = new) (hbdy : new.body = body)
    (hcld : flow.Closed ⟨flow.typeVars.size⟩ new) :
    (flow.addChanged name position body constraint change).Generated table := by
  have hext := extends_addChanged name position constraint change flow body
  have hget : ∀ other, (flow.addChanged name position body constraint change).typeVar? other =
      if other = ⟨flow.typeVars.size⟩ then some new else flow.typeVar? other := by
    intro other
    rw [typeVar?_addChanged, hnew]
  have hfr : ∀ {other var}, flow.typeVar? other = some var → other ≠ ⟨flow.typeVars.size⟩ := by
    rintro other var hvar rfl
    exact absurd (index_lt_size hvar) (Nat.lt_irrefl _)
  refine ⟨fun {other id} => ?_, fun other => ?_, fun {id var} hvar => ?_, fun {other id} hid => ?_, fun {other id} hid => ?_,
    fun {other symbol id} hid => ((hgd.heads hid).mono hext fun hvar => hvar)⟩
  · have hknows : (flow.addChanged name position body constraint change).Knows other id ↔
        flow.Knows other id ∨ (id = ⟨flow.typeVars.size⟩ ∧ body = other) := by
      unfold Knows
      rw [hget]
      constructor
      · rintro ⟨var, hvar, hoth⟩
        split at hvar
        · next hid =>
          cases hvar
          exact .inr ⟨hid, hbdy.symm.trans hoth⟩
        · exact .inl ⟨var, hvar, hoth⟩
      · rintro (⟨var, hvar, hoth⟩ | ⟨rfl, rfl⟩)
        · exact ⟨var, by rw [if_neg (hfr hvar), hvar], hoth⟩
        · exact ⟨new, if_pos rfl, hbdy⟩
    rw [hknows, body_addChanged, ← hgd.mem_typeVars]
    split
    · next hoth =>
      subst hoth
      simp
    · next hoth => simp [hoth]
  · rw [body_addChanged]
    split
    · next hoth =>
      refine List.pairwise_append.mpr ⟨hgd.increasing body, List.pairwise_singleton _ _, fun first hfst second hsnd => ?_⟩
      obtain ⟨var, hvar, _⟩ := hgd.mem_typeVars.mp hfst
      rw [List.mem_singleton.mp hsnd]
      exact index_lt_size hvar
    · exact hgd.increasing other
  · rw [hget] at hvar
    split at hvar
    · next hid =>
      cases hvar
      exact hid ▸ hcld.mono hext
    · exact (hgd.closed hvar).mono hext
  · have hold : id ∈ (flow.body other).parameters := by
      rw [body_addChanged] at hid
      split at hid
      · next hoth => exact hoth ▸ hid
      · exact hid
    obtain ⟨var, hvar, hbdy', hpar⟩ := hgd.parameters hold
    exact ⟨var, by rw [hget, if_neg (hfr hvar), hvar], hbdy', hpar⟩
  · have hold : (flow.body other).returns = some id := by
      rw [body_addChanged] at hid
      split at hid
      · next hoth => exact hoth ▸ hid
      · exact hid
    exact (hgd.returns hold).mono hext

end

section UpdateVariable

variable {change : TypeVar → TypeVar} (hvar : flow.typeVar? id = some var) (hbdy : (change var).body = var.body)
  (hix : (change var).parameterIndex = var.parameterIndex) {other : TypeVarId}

include hvar hbdy hix

theorem exists_updateVariable {old : TypeVar} (hold : flow.typeVar? other = some old) :
    ∃ new, (flow.updateVariable id change).typeVar? other = some new ∧ new.body = old.body ∧
      new.parameterIndex = old.parameterIndex ∧ (new = old ∨ new = change var) := by
  rw [typeVar?_updateVariable]
  split
  · next hid =>
    subst hid
    rw [hvar] at hold
    cases hold
    exact ⟨change var, by rw [hvar, Option.map_some], hbdy, hix, .inr rfl⟩
  · exact ⟨old, hold, rfl, rfl, .inl rfl⟩

theorem KnowsValue.updateVariable {body : BodyId} (h : flow.KnowsValue body other) :
    (flow.updateVariable id change).KnowsValue body other := by
  obtain ⟨old, hold, hbdy', hpar⟩ := h
  obtain ⟨new, hnew, hnew', hix', _⟩ := exists_updateVariable hvar hbdy hix hold
  exact ⟨new, hnew, hnew'.trans hbdy', hix'.trans hpar⟩

end UpdateVariable

/-- A type variable of a body may take another constraint that stays within the body. -/
theorem Generated.updateVariable (hgd : flow.Generated table)
    (hvar : flow.typeVar? id = some var) (hbdy : (change var).body = var.body)
    (hix : (change var).parameterIndex = var.parameterIndex) (hfx : (change var).fixed = none)
    (hjn : ∃ sources, (change var).constraint = .join sources) (hcld : flow.Closed id (change var)) :
    (flow.updateVariable id change).Generated table := by
  have hkt : ∀ {other old}, flow.typeVar? other = some old → ∃ new,
      (flow.updateVariable id change).typeVar? other = some new ∧ new.body = old.body ∧
        new.parameterIndex = old.parameterIndex ∧ (new = old ∨ new = change var) :=
    exists_updateVariable hvar hbdy hix
  have hmono : ∀ {other old}, flow.Closed other old → (flow.updateVariable id change).Closed other old := by
    intro other old hold
    refine ⟨fun source hsrc => ?_, fun argument harg => ?_⟩
    · obtain ⟨found, hf, hbdy, hpar⟩ := hold.sources source hsrc
      obtain ⟨new, hnew, hbdy', hix', _⟩ := hkt hf
      exact ⟨new, hnew, hbdy'.trans hbdy, fun h => hpar (hix' ▸ h)⟩
    · exact ⟨(hold.arguments argument harg).1, (hold.arguments argument harg).2.updateVariable hvar hbdy hix⟩
  have hjoins : ∀ {body other}, flow.KnowsJoin body other → (flow.updateVariable id change).KnowsJoin body other := by
    rintro body other ⟨old, hold, hbdy, hfx', hjn'⟩
    obtain ⟨new, hnew, hbdy', _, rfl | rfl⟩ := hkt hold
    · exact ⟨new, hnew, hbdy, hfx', hjn'⟩
    · exact ⟨_, hnew, hbdy'.trans hbdy, hfx, hjn⟩
  refine ⟨fun {body other} => ?_, hgd.increasing, fun {other new} hnew => ?_, fun {body other} hid => ?_,
    fun {body other} hid => hjoins (hgd.returns hid), fun {body symbol other} hid => ?_⟩
  · refine hgd.mem_typeVars.trans ⟨?_, ?_⟩
    · rintro ⟨old, hold, hbdy⟩
      obtain ⟨new, hnew, hbdy', _⟩ := hkt hold
      exact ⟨new, hnew, hbdy'.trans hbdy⟩
    · rintro ⟨new, hnew, hbdy⟩
      have hso : ∃ old, flow.typeVar? other = some old := by
        rw [typeVar?_updateVariable] at hnew
        split at hnew
        · obtain ⟨old, hold, _⟩ := Option.map_eq_some_iff.mp hnew
          exact ⟨old, hold⟩
        · exact ⟨new, hnew⟩
      obtain ⟨old, hold⟩ := hso
      obtain ⟨new', hnew', hbdy', _⟩ := hkt hold
      rw [hnew] at hnew'
      cases hnew'
      exact ⟨old, hold, hbdy'.symm.trans hbdy⟩
  · rw [typeVar?_updateVariable] at hnew
    split at hnew
    · next hid =>
      subst hid
      rw [hvar] at hnew
      cases hnew
      exact hmono hcld
    · exact hmono (hgd.closed hnew)
  · obtain ⟨old, hold, hbdy, hpar⟩ := hgd.parameters hid
    obtain ⟨new, hnew, hbdy', hix', _⟩ := hkt hold
    exact ⟨new, hnew, hbdy'.trans hbdy, hix' ▸ hpar⟩
  · obtain ⟨old, hold, hbdy, hpar⟩ := hgd.heads hid
    obtain ⟨new, hnew, hbdy', hix', _⟩ := hkt hold
    exact ⟨new, hnew, hbdy'.trans hbdy, fun h => hpar (hix' ▸ h)⟩

theorem generated_empty (table : SymbolTable) : (∅ : Flow).Generated table := by
  have hvars : ∀ id, (∅ : Flow).typeVar? id = none := fun _ => rfl
  have hbdys : ∀ body, (∅ : Flow).body body = { id := body } := by
    intro body
    change (((∅ : OrderedMap BodyId Body).insert .global { id := .global }).get? body).getD { id := body } = { id := body }
    rw [OrderedMap.get?_insert]
    split
    · next hbdy => rw [← hbdy]; rfl
    · rfl
  refine ⟨fun {body id} => ?_, fun body => ?_, fun {id var} hvar => ?_, fun {body id} hid => ?_, fun {body id} hid => ?_,
    fun {body symbol id} hid => ?_⟩
  · rw [hbdys]
    simp [Knows, hvars]
  · rw [hbdys]
    exact .nil
  · nomatch (hvars id).symm.trans hvar
  · rw [hbdys] at hid
    nomatch hid
  · rw [hbdys] at hid
    nomatch hid
  · nomatch (show none = some id from hid)

end Flow

end SoftTyping
