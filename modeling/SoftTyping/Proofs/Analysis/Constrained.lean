import SoftTyping.Proofs.Analysis.Assigned
import SoftTyping.Proofs.Analysis.Moves

/-!
# Operations that make constraints

Each operation of the pass that makes the constraints types the node at hand and makes moves only (`Advances`). The type
variables that it adds stay within the body of the node, which has been met (`Entered`). The versions that are saved before
branches and restored behind them are versions of the same body (`HoldsVersions`).
-/

namespace SoftTyping

open Step SymbolTable OrderedMap Flow

theorem SymbolTable.DiffersInVersions.rooted {table table' : SymbolTable} (h : table.DiffersInVersions table')
    (hrt : table.Rooted) : table'.Rooted := by
  have hsc := h.scope?
  have hns : ∀ {id}, table.IsNamespace id → table'.IsNamespace id := by
    rintro id ⟨hne, entry, path, he, hk⟩
    refine ⟨?_, entry, path, by rw [hsc]; exact he, hk⟩
    rwa [superGlobalScope, h.generation]
  refine ⟨fun index hix => ?_, fun {id entry outer} he => ?_, fun {id entry} he => ?_,
    fun {id entry storage uses} he hk => ?_, fun {key storage} hget => ?_⟩
  · rw [h.generation, hsc]
    exact hrt.special index hix
  · rw [hsc] at he
    rw [h.generation]
    exact hrt.enclosing he
  · rw [hsc] at he
    exact hrt.enclosed he
  · rw [hsc] at he
    exact hns (hrt.blocks he hk)
  · rw [h.namespaces] at hget
    exact hns (hrt.namespaces hget)

namespace Workspace

variable {w w' : Workspace} {id : NodeId} {scope : ScopeId} {symbol : SymbolId} {body : BodyId} {typeVar : TypeVarId}
  {name : String} {position : Position} {u : Unit} {role : Role} {lo hi : Nat} {kind : NodeKind} {shape : Shape}
  {shapes children rest : List Shape} {loops : TypeVarId → Prop} {opens : SymbolId → Prop}
  {entries : List (SymbolId × TypeVarId)} {versions heads last : Versions}

/-! ## Nodes that are about to be visited -/

theorem Types.follows (h : Types w w') (hsh : Follows w.tree shape) : Follows w'.tree shape := by
  induction hsh with
  | node hnd hk hlsd hgrown _ ih =>
    obtain ⟨typeVar, hnd'⟩ := h.node hnd
    exact .node hnd' hk hlsd hgrown ih

theorem Types.ready (h : Types w w') (hrdy : Ready role scope lo hi shapes w) : Ready role scope lo hi shapes w' where
  follows := fun shape hsh => h.follows (hrdy.follows shape hsh)
  distinct := hrdy.distinct
  stands := by
    refine hrdy.stands.mono (keepsScopes_of_scopes h.table.generation h.table.scopes) fun {_ _ node} _ _ hnd => ?_
    obtain ⟨typeVar, hnd'⟩ := h.node hnd
    exact ⟨_, hnd', rfl, rfl, rfl, fun _ => rfl⟩
  rooted := h.table.rooted hrdy.rooted
  scope := by
    rw [h.table.scope?]
    exact hrdy.scope

theorem Ready.scopeOf_within {inner : Role} (h : Ready role scope lo hi [.node id kind children] w)
    (hinn : role.inner? kind = some inner) : w.tree.scopeOf id = .ok scope := by
  obtain ⟨node, hnd, hk⟩ := (h.follows _ (List.mem_singleton_self _)).exists_node
  obtain ⟨hsc, _⟩ := h.stands.of_within hnd (hk ▸ hinn)
  exact Tree.scopeOf_eq_ok.mpr ⟨node, hnd, hsc⟩

theorem Ready.scopeOf (h : Ready .expression scope lo hi shapes w) (hsh : shape ∈ shapes) :
    w.tree.scopeOf shape.id = .ok scope := by
  induction shapes generalizing lo with
  | nil => nomatch hsh
  | cons first rest ih =>
    obtain ⟨mid, _, _, hone, hoths⟩ := h.split
    rcases List.mem_cons.mp hsh with rfl | hsh
    · obtain ⟨id, kind, children⟩ := shape
      exact hone.scopeOf_within (rfl : Role.expression.inner? kind = some .expression)
    · exact ih hoths hsh

theorem Ready.scopeOf_assignment {target value : Shape}
    (h : Ready .statement scope lo hi [.node id .assign [target, value]] w) :
    w.tree.scopeOf id = .ok scope := by
  have hfol := h.follows _ (List.mem_singleton_self _)
  obtain ⟨node, hnd, hk⟩ := hfol.exists_node
  obtain ⟨hsc, _⟩ := h.stands.of_assignment hnd hk (hfol.children_eq hnd nofun)
  exact Tree.scopeOf_eq_ok.mpr ⟨node, hnd, hsc⟩

theorem Ready.scopeOf_child (h : Ready role scope lo hi [.node id kind children] w)
    (hinn : role.inner? kind = some .expression) (hbl : kind ≠ .block) {child : NodeId}
    (hcd : child ∈ w.tree.children id) : w.tree.scopeOf child = .ok scope := by
  have hfol := h.follows _ (List.mem_singleton_self _)
  obtain ⟨node, hnd, _⟩ := hfol.exists_node
  rw [Tree.children_of_get? hnd, hfol.children_eq hnd hbl] at hcd
  obtain ⟨shape, hsh, rfl⟩ := List.mem_map.mp hcd
  obtain ⟨_, _, hins⟩ := h.within hinn
  exact hins.scopeOf hsh

/-! ## Advancing -/

/-- A part of the pass types some nodes and makes moves only. -/
structure Advances (loops : TypeVarId → Prop) (opens : SymbolId → Prop) (w w' : Workspace) : Prop where
  types : Types w w'
  runs : Runs loops opens w w'

theorem Advances.refl (hty : w.Typed) : Advances loops opens w w := ⟨.refl hty, .refl⟩

theorem Advances.trans {w₁ : Workspace} (h : Advances loops opens w w₁) (h' : Advances loops opens w₁ w') :
    Advances loops opens w w' := ⟨h.types.trans h'.types, h.runs.trans h'.runs⟩

theorem Advances.mono {loops' : TypeVarId → Prop} {opens' : SymbolId → Prop} (h : Advances loops opens w w')
    (hloops : ∀ id, loops id → loops' id) (hops : ∀ function, opens function → opens' function) :
    Advances loops' opens' w w' := ⟨h.types, h.runs.mono hloops hops⟩

/-- The body of the code in a scope has been met. -/
def Entered (w : Workspace) (scope : ScopeId) : Prop := ∀ ⦃body⦄, w.table.IsBodyOf scope body → w.flow.HasBody body

/-- A node that stands in a scope belongs to a body. -/
def BelongsTo (w : Workspace) (id : NodeId) (body : BodyId) : Prop :=
  ∃ node scope, w.tree.get? id = some node ∧ node.scope = some scope ∧ w.table.IsBodyOf scope body

theorem BelongsTo.isBodyOf (h : w.BelongsTo id body) (hsc : w.tree.scopeOf id = .ok scope) : w.table.IsBodyOf scope body := by
  obtain ⟨node, own, hnd, hown, hbdy⟩ := h
  cases hsc.symm.trans (Tree.scopeOf_eq_ok.mpr ⟨node, hnd, hown⟩)
  exact hbdy

/-! ## Expressions -/

section Entered

variable (hentered : w.Entered scope) (hsc : w.tree.scopeOf id = .ok scope)

include hentered hsc

theorem Entered.advances_typeNode {w₁ : Workspace} (hbdy : w.BelongsTo id body)
    (hadded : Types w w₁ ∧ w₁.flow.KnowsValue body typeVar) (hmove : w.flow.HasBody body → Moves loops opens w w₁)
    (h : typeNode id typeVar w₁ = .ok u w') : Advances loops opens w w' := by
  have hof := hbdy.isBodyOf hsc
  exact ⟨hadded.1.typeNode hsc hof hadded.2 h, .tail (.single (hmove (hentered hof))) (moves_typeNode h)⟩

variable (hty : w.Typed)

include hty

theorem Entered.advances_typeLiteral (h : typeLiteral id w = .ok typeVar w') : Advances loops opens w w' := by
  simp only [typeLiteral, bind_eq_ok, askTree_eq_ok] at h
  obtain ⟨node, w, ⟨_, rfl⟩, h⟩ := h
  cases hk : node.kind <;> simp only [hk] at h
  case literal =>
    simp only [bind_eq_ok, get_eq_ok, bodyOfNode_eq_ok, pure_eq_ok] at h
    obtain ⟨_, w, ⟨rfl, rfl⟩, body, _, ⟨hbdy, rfl⟩, _, w₁, hfx, _, _, htpNode, rfl, rfl⟩ := h
    exact hentered.advances_typeNode hsc hbdy (hty.types_addFixed hfx) (moves_addFixed · hfx) htpNode
  all_goals exact absurd h throw_ne_ok

theorem Entered.advances_typeConstant (h : typeConstant id w = .ok typeVar w') : Advances loops opens w w' := by
  simp only [typeConstant, bind_eq_ok, askTree_eq_ok, askTable_eq_ok, get_eq_ok, bodyOfNode_eq_ok,
    pure_eq_ok] at h
  obtain ⟨_, _, ⟨_, rfl⟩, _, _, ⟨_, rfl⟩, _, _, ⟨_, rfl⟩, _, w, ⟨rfl, rfl⟩, body, _, ⟨hbdy, rfl⟩, _, w₁, hfx, _, _,
    htpNode, rfl, rfl⟩ := h
  exact hentered.advances_typeNode hsc hbdy (hty.types_addFixed hfx) (moves_addFixed · hfx) htpNode

theorem Entered.advances_typeRead (hhds : w.flow.NamesHeads) (h : typeRead id w = .ok typeVar w') :
    Advances loops opens w w' := by
  simp only [typeRead, bind_eq_ok, askTree_eq_ok, bodyOfNode_eq_ok, pure_eq_ok] at h
  obtain ⟨_, _, ⟨_, rfl⟩, _, _, ⟨_, rfl⟩, body, w, ⟨hbdy, rfl⟩, _, w₁, hver, _, _, htpNode, rfl, rfl⟩ := h
  exact hentered.advances_typeNode hsc hbdy (hty.types_newVersion hver)
    (moves_newVersion hhds · hver) htpNode

section

variable (hch : ∀ child ∈ w.tree.children id, w.tree.scopeOf child = .ok scope)

include hch

theorem Entered.advances_typeApplication {callee : SymbolId}
    (h : typeApplication id name position callee w = .ok typeVar w') : Advances loops opens w w' := by
  simp only [typeApplication, bind_eq_ok, askTree_eq_ok, bodyOfNode_eq_ok, pure_eq_ok] at h
  obtain ⟨arguments, _, ⟨harguments, rfl⟩, body, w, ⟨hbdy, rfl⟩, _, w₁, hcl, _, _, htpNode, rfl, rfl⟩ := h
  have hvalues : ∀ argument ∈ arguments, w.flow.KnowsValue body argument := by
    intro argument harg
    obtain ⟨child, hcd, htpVar⟩ := Refusal.exists_left_of_forall₂ (Refusal.mapM_eq_ok.mp harguments) harg
    exact hty.knowsValue (hch child hcd) (BelongsTo.isBodyOf hbdy hsc) htpVar
  exact hentered.advances_typeNode hsc hbdy (hty.types_addCall hvalues hcl) (moves_addCall · hcl) htpNode

theorem Entered.advances_typeOperator (h : typeOperator id w = .ok typeVar w') : Advances loops opens w w' := by
  simp only [typeOperator, bind_eq_ok, askTree_eq_ok, askTable_eq_ok] at h
  obtain ⟨_, _, ⟨_, rfl⟩, _, _, ⟨_, rfl⟩, h⟩ := h
  exact hentered.advances_typeApplication hsc hty hch h

theorem Entered.advances_typeEcho (h : typeEcho id w = .ok typeVar w') : Advances loops opens w w' := by
  simp only [typeEcho, bind_eq_ok, askTree_eq_ok, askTable_eq_ok] at h
  obtain ⟨_, _, ⟨_, rfl⟩, _, _, ⟨_, rfl⟩, h⟩ := h
  exact hentered.advances_typeApplication hsc hty hch h

theorem Entered.advances_typeCall (h : typeCall id w = .ok typeVar w') : Advances loops opens w w' := by
  simp only [typeCall, bind_eq_ok, askTree_eq_ok, askTable_eq_ok] at h
  obtain ⟨_, _, ⟨_, rfl⟩, _, _, ⟨_, rfl⟩, _, _, ⟨_, rfl⟩, h⟩ := h
  split at h
  · exact hentered.advances_typeApplication hsc hty hch h
  · simp only [bind_eq_ok, get_eq_ok, bodyOfNode_eq_ok, pure_eq_ok] at h
    obtain ⟨_, w, ⟨rfl, rfl⟩, body, _, ⟨hbdy, rfl⟩, _, w₁, hfx, _, _, htpNode, rfl, rfl⟩ := h
    exact hentered.advances_typeNode hsc hbdy (hty.types_addFixed hfx) (moves_addFixed · hfx) htpNode

end

/-! ## Statements -/

/-- The value of an assignment belongs to the body to which the assignment belongs. -/
theorem Entered.advances_typeAssignment (hhds : w.flow.NamesHeads) {target value : NodeId}
    (hch : w.tree.children id = [target, value]) (ht : w.tree.scopeOf target = .ok scope)
    (hvl : w.tree.scopeOf value = .ok scope) (h : typeAssignment id w = .ok typeVar w') :
    Advances loops opens w w' := by
  simp only [typeAssignment, bind_eq_ok, get_eq_ok] at h
  obtain ⟨_, w, ⟨rfl, rfl⟩, h⟩ := h
  rw [hch] at h
  simp only [bind_eq_ok, askTree_eq_ok, bodyOfNode_eq_ok, pure_eq_ok] at h
  obtain ⟨_, _, ⟨_, rfl⟩, source, _, ⟨hsrc, rfl⟩, _, _, ⟨_, rfl⟩, body, w, ⟨hbdy, rfl⟩, _, w₁, hver, _, w₂, hassigned, _, w₃,
    hty₃, _, _, htpNode, rfl, rfl⟩ := h
  have hof := BelongsTo.isBodyOf hbdy hsc
  have hkn := hty.knowsValue hvl hof hsrc
  obtain ⟨htps, hvl⟩ := hty.types_assigned hkn hver hassigned
  have hwr := htps.typeNode ht hof hvl hty₃
  have hwrite : Moves loops opens w w₂ := moves_write hhds (hentered hof) hkn.knows.lt_size hver hassigned
  refine ⟨hwr.typeNode hsc hof ?_ htpNode,
    .tail (.tail (.single hwrite) (moves_typeNode hty₃)) (moves_typeNode htpNode)⟩
  obtain ⟨_, rfl⟩ := updateNode_eq_ok.mp hty₃
  exact hvl

end Entered

theorem Typed.advances_typeReturn (hty : w.Typed) {returned : Option TypeVarId} (hsc : w.tree.scopeOf id = .ok scope)
    (hch : ∀ child ∈ w.tree.children id, w.tree.scopeOf child = .ok scope)
    (h : typeReturn id w = .ok returned w') : Advances loops opens w w' := by
  simp only [typeReturn, bind_eq_ok, get_eq_ok, bodyOfNode_eq_ok] at h
  obtain ⟨body, _, ⟨hbdy, rfl⟩, _, w, ⟨rfl, rfl⟩, h⟩ := h
  have hof := BelongsTo.isBodyOf hbdy hsc
  cases hrets : (w.flow.body body).returns with
  | none =>
    simp only [hrets, pure_eq_ok] at h
    rw [h.2]
    exact .refl hty
  | some returns =>
    cases hvl : (w.tree.children id).head? with
    | none =>
      simp only [hrets, hvl, pure_eq_ok] at h
      rw [h.2]
      exact .refl hty
    | some value =>
      simp only [hrets, hvl, bind_eq_ok, askTree_eq_ok, pure_eq_ok] at h
      obtain ⟨typeVar, w, ⟨htpVar, rfl⟩, _, w₁, hsrc, _, _, htpNode, _, rfl⟩ := h
      have hkn := hty.knowsValue (hch value (List.mem_of_head? hvl)) hof htpVar
      have hjn := hty.generated.returns hrets
      have htps : Types w w₁ := hty.types_addSource hjn hkn.knows hsrc
      exact ⟨htps.typeNode hsc hof (hkn.mono htps.flow) htpNode,
        .tail (.single (.source hjn (.inr hrets) hsrc)) (moves_typeNode htpNode)⟩

/-! ## Functions -/

theorem Typed.types_updateBody (hty : w.Typed) {change : Body → Body}
    (hgd : (w.flow.updateBody body change).Generated w.table) :
    Types w { w with flow := w.flow.updateBody body change } :=
  hty.types_flow (.refl _) hty.sound (extends_of_typeVars rfl) hgd

theorem Typed.types_pushVersion (hty : w.Typed) (hver : w.flow.KnowsVersion w.table body symbol typeVar)
    (h : pushVersion symbol typeVar w = .ok u w') : Types w w' := by
  obtain ⟨table, rfl, hdif, hsd⟩ := pushVersion_eq_ok h
  exact hty.types_flow hdif (hsd hty.sound) (extends_setHead ..)
    ((hty.generated.setHead hver).of_table hdif.isVariable)

theorem Typed.types_openParameters {symbols : List SymbolId} {index : Nat} (hty : w.Typed)
    (hsyms : ∀ symbol ∈ symbols, w.table.IsVariable symbol)
    (h : openParameters body index symbols w = .ok u w') : Types w w' := by
  induction symbols generalizing w index with
  | nil =>
    rw [(pure_eq_ok.mp h).2]
    exact .refl hty
  | cons symbol rest ih =>
    simp only [openParameters, bind_eq_ok, askTable_eq_ok, modifyFlow_eq_ok] at h
    obtain ⟨entry, _, ⟨_, rfl⟩, typeVar, w₁, hadd, _, _, rfl, _, w₃, hpu, hrs⟩ := h
    obtain ⟨htps₁, hget⟩ := hty.types_addVariable hadd rfl rfl (closed_of_join_nil rfl)
    have htps₂ : Types w₁ _ := htps₁.typed.types_updateBody (htps₁.typed.generated.addParameter hget rfl rfl)
    have hvb : ∀ other ∈ symbol :: rest, w₁.table.IsVariable other :=
      fun other hoth => htps₁.table.isVariable (hsyms other hoth)
    have htps₃ : Types _ w₃ := htps₂.typed.types_pushVersion
      ⟨_, hget, rfl, fun _ => hvb symbol List.mem_cons_self⟩ hpu
    refine htps₁.trans (htps₂.trans (htps₃.trans (ih htps₃.typed (fun other hoth => ?_) hrs)))
    exact htps₃.table.isVariable (hvb other (List.mem_cons_of_mem _ hoth))

theorem Typed.types_openFunction (hty : w.Typed) (h : openFunction id w = .ok body w') : Types w w' := by
  simp only [openFunction, bind_eq_ok, askTree_eq_ok, askTable_eq_ok, modifyFlow_eq_ok, pure_eq_ok] at h
  obtain ⟨symbol, _, ⟨_, rfl⟩, node, _, ⟨_, rfl⟩, entry, w, ⟨he, rfl⟩, _, _, rfl, _, w₁, hpars, returns, w₂, hadd, _, _,
    rfl, rfl, rfl⟩ := h
  have htps : Types w _ := hty.types_updateBody (hty.generated.touchBody (.function symbol))
  have hsyms : ∀ parameter ∈ (entry.method?.map (·.parameters)).getD [], w.table.IsVariable parameter := by
    intro parameter hpar
    cases hmth : entry.method? with
    | none =>
      rw [hmth] at hpar
      cases hpar
    | some data =>
      rw [hmth] at hpar
      have hsym := symbol_eq_ok.mp he
      exact (hty.sound.admits (symbol?_eq_some hsym).2).parameters data hmth parameter hpar
  have htps₁ : Types _ w₁ := htps.typed.types_openParameters hsyms hpars
  obtain ⟨htps₂, hget⟩ := htps₁.typed.types_addVariable hadd rfl rfl (closed_of_join_nil rfl)
  have htps₃ : Types w₂ _ :=
    htps₂.typed.types_updateBody (htps₂.typed.generated.setReturns ⟨_, hget, rfl, rfl, [], rfl⟩)
  exact htps.trans (htps₁.trans (htps₂.trans htps₃))

/-! ## Versions at one place -/

/-- What is noted for variables are versions of them in a body. -/
def HoldsVersions (w : Workspace) (body : BodyId) (versions : Versions) : Prop :=
  ∀ ⦃symbol head⦄, versions.get? symbol = some head → w.flow.KnowsVersion w.table body symbol head

theorem HoldsVersions.mono (h : w.HoldsVersions body versions) (htps : Types w w') : w'.HoldsVersions body versions :=
  fun _ _ hhd => (h hhd).mono htps.flow htps.table.isVariable

theorem Typed.holdsVersions_headsIn (hty : w.Typed) (body : BodyId) : w.HoldsVersions body (w.flow.headsIn body) :=
  fun _ _ hhd => hty.generated.heads hhd

theorem Typed.types_restoreHeads (hty : w.Typed) (hvers : w.HoldsVersions body versions) :
    Types w { w with flow := w.flow.restoreHeads body versions } :=
  hty.types_flow (.refl _) hty.sound (extends_of_typeVars rfl)
    (hty.generated.restoreHeads fun hhd => hvers hhd)

theorem Typed.advances_setHead (hty : w.Typed) (hhds : w.flow.NamesHeads)
    (hver : w.flow.KnowsVersion w.table body symbol typeVar) (hnmd : w.flow.IsVersion body symbol typeVar) :
    Advances loops opens w { w with flow := w.flow.setHead symbol typeVar } :=
  ⟨hty.types_flow (.refl _) hty.sound (extends_setHead ..) (hty.generated.setHead hver),
    .single (moves_setHead hhds hnmd)⟩

/-! ### Loops -/

/-- What is noted for variables at the head of a loop takes any sources. -/
def HoldsJoins (w : Workspace) (body : BodyId) (versions : Versions) : Prop :=
  ∀ ⦃symbol head⦄, versions.get? symbol = some head → w.flow.KnowsValue body head ∧ w.flow.KnowsJoin body head

theorem HoldsJoins.mono (h : w.HoldsJoins body versions) (htps : Types w w') : w'.HoldsJoins body versions :=
  fun _ _ hhd => ⟨(h hhd).1.mono htps.flow, (h hhd).2.mono htps.flow⟩

theorem Typed.advances_openLoopFrom (hty : w.Typed) (hhds : w.flow.NamesHeads) (hbdy : w.flow.HasBody body)
    (hes : ∀ entry ∈ entries, w.flow.IsVersion body entry.1 entry.2)
    (h : openLoopFrom body position entries w = .ok heads w') :
    Advances loops opens w w' ∧ w'.HoldsJoins body heads ∧ w'.flow.NamesVersions body heads := by
  induction entries generalizing w heads with
  | nil =>
    obtain ⟨rfl, rfl⟩ := pure_eq_ok.mp h
    exact ⟨.refl hty, (fun _ _ hhd => nomatch hhd), fun _ _ hhd => nomatch hhd⟩
  | cons entry rest ih =>
    obtain ⟨symbol, previous⟩ := entry
    simp only [openLoopFrom, bind_eq_ok, pure_eq_ok] at h
    obtain ⟨head, w₁, hjn, heads', _, hrs, rfl, rfl⟩ := h
    have hsrc : ∀ source ∈ [previous], w.flow.IsVersion body symbol source := by
      intro source hmem
      rw [List.mem_singleton.mp hmem]
      exact hes _ List.mem_cons_self
    obtain ⟨htps, hvl, hkn⟩ := hty.types_joinVersions (fun source hmem => (hsrc source hmem).knows) hjn
    obtain ⟨hmove, hver⟩ : Moves loops opens w w₁ ∧ _ := moves_joinVersions hbdy hsrc hjn
    obtain ⟨hrests, hjoins, hnmd⟩ := ih htps.typed (hmove.namesHeads hhds) (Runs.hasBody (.single hmove) hbdy)
      (fun other hoth => (hes other (List.mem_cons_of_mem _ hoth)).mono htps.flow) hrs
    -- What the rest adds takes precedence, and both are versions of their variables.
    have hf : ∀ {other found}, (((∅ : Versions).insert symbol head).union heads').get? other = some found →
        heads'.get? other = some found ∨ symbol = other ∧ head = found := by
      intro other found hget
      rw [get?_union, Option.or_eq_some_iff, get?_insert] at hget
      rcases hget with hget | ⟨_, hget⟩
      · exact .inl hget
      · split at hget
        · next hoth => exact .inr ⟨hoth, Option.some.inj hget⟩
        · nomatch hget
    refine ⟨⟨htps.trans hrests.types, .head hmove hrests.runs⟩, fun other found hget => ?_, fun other found hget => ?_⟩
    · rcases hf hget with hget | ⟨_, rfl⟩
      · exact hjoins hget
      · exact ⟨hvl.mono hrests.types.flow, hkn.mono hrests.types.flow⟩
    · rcases hf hget with hget | ⟨rfl, rfl⟩
      · exact hnmd hget
      · exact hver.mono hrests.types.flow

theorem Typed.advances_openLoop (hty : w.Typed) (hhds : w.flow.NamesHeads) (hbdy : w.flow.HasBody body)
    (h : openLoop body position w = .ok heads w') :
    Advances loops opens w w' ∧ w'.HoldsJoins body heads ∧ w'.flow.NamesVersions body heads := by
  simp only [openLoop, bind_eq_ok, get_eq_ok] at h
  obtain ⟨_, w, ⟨rfl, rfl⟩, h⟩ := h
  exact hty.advances_openLoopFrom hhds hbdy (fun entry he => hhds body (get?_eq_some_iff.mpr he)) h

/-- One variable at the head of a loop takes the version with which the loop's body ends, unless that is none or the head
itself, and becomes current again. -/
theorem closeLoopFrom_cons {head : TypeVarId} {rest : List (SymbolId × TypeVarId)}
    (h : closeLoopFrom last ((symbol, head) :: rest) w = .ok u w') :
    ∃ w₁, (w₁ = w ∨ ∃ version, last.get? symbol = some version ∧ addSource head version w = .ok () w₁) ∧
      closeLoopFrom last rest { w₁ with flow := w₁.flow.setHead symbol head } = .ok u w' := by
  cases hver : last.get? symbol with
  | none =>
    simp only [closeLoopFrom, hver, bind_eq_ok, modifyFlow_eq_ok] at h
    obtain ⟨_, _, rfl, h⟩ := h
    exact ⟨w, .inl rfl, h⟩
  | some version =>
    simp only [closeLoopFrom, hver] at h
    split at h
    · simp only [bind_eq_ok, modifyFlow_eq_ok] at h
      obtain ⟨_, w₁, hsrc, _, _, rfl, h⟩ := h
      exact ⟨w₁, .inr ⟨version, rfl, hsrc⟩, h⟩
    · simp only [bind_eq_ok, modifyFlow_eq_ok] at h
      obtain ⟨_, _, rfl, h⟩ := h
      exact ⟨w, .inl rfl, h⟩

theorem Typed.advances_closeLoopFrom (hty : w.Typed) (hhds : w.flow.NamesHeads) (hls : w.HoldsVersions body last)
    (hes : ∀ entry ∈ entries, (w.flow.KnowsValue body entry.2 ∧ w.flow.KnowsJoin body entry.2) ∧
      w.flow.IsVersion body entry.1 entry.2 ∧ loops entry.2)
    (h : closeLoopFrom last entries w = .ok u w') : Advances loops opens w w' := by
  induction entries generalizing w with
  | nil =>
    rw [(pure_eq_ok.mp h).2]
    exact .refl hty
  | cons entry rest ih =>
    obtain ⟨symbol, head⟩ := entry
    obtain ⟨⟨hvl, hjn⟩, hver, hloop⟩ := hes _ List.mem_cons_self
    obtain ⟨w₁, hfst, hrs⟩ := closeLoopFrom_cons h
    have hsourced : Advances loops opens w w₁ := by
      rcases hfst with rfl | ⟨version, hlatest, hsrc⟩
      · exact .refl hty
      · exact ⟨hty.types_addSource hjn (hls hlatest).knows hsrc, .single (.source hjn (.inl hloop) hsrc)⟩
    have hadv : Advances loops opens w _ := hsourced.trans (hsourced.types.typed.advances_setHead
      (hsourced.runs.namesHeads hhds) ((hvl.mono hsourced.types.flow).knowsVersion _ symbol)
      (hver.mono hsourced.types.flow))
    refine hadv.trans (ih hadv.types.typed (hadv.runs.namesHeads hhds) (hls.mono hadv.types)
      (fun other hoth => ?_) hrs)
    obtain ⟨⟨hvl', hjn'⟩, hver', hloop'⟩ := hes other (List.mem_cons_of_mem _ hoth)
    have hflow := hadv.types.flow
    exact ⟨⟨hvl'.mono hflow, hjn'.mono hflow⟩, hver'.mono hflow, hloop'⟩

theorem Typed.advances_closeLoop (hty : w.Typed) (hhds : w.flow.NamesHeads)
    (hjoins : w.HoldsJoins body heads) (hnmd : w.flow.NamesVersions body heads)
    (hloops : ∀ symbol head, heads.get? symbol = some head → loops head)
    (h : closeLoop heads body w = .ok u w') : Advances loops opens w w' := by
  simp only [closeLoop, bind_eq_ok, get_eq_ok] at h
  obtain ⟨_, w, ⟨rfl, rfl⟩, h⟩ := h
  refine hty.advances_closeLoopFrom hhds (hty.holdsVersions_headsIn body) (fun entry he => ?_) h
  have hhd := get?_eq_some_iff.mpr he
  exact ⟨hjoins hhd, hnmd hhd, hloops _ _ hhd⟩

/-! ### Branches -/

section Branches

variable {before merged : Versions} {branches : List Versions} {exhaustive : Bool} {symbols : List SymbolId}

theorem mem_reaching {source : TypeVarId} (h : source ∈ reaching before branches exhaustive symbol) :
    (∃ branch ∈ branches, branch.get? symbol = some source) ∨ before.get? symbol = some source := by
  have hens : ∀ source ∈ branches.filterMap (fun branch => (branch.get? symbol).or (before.get? symbol)),
      (∃ branch ∈ branches, branch.get? symbol = some source) ∨ before.get? symbol = some source := by
    intro source hsrc
    obtain ⟨branch, hbr, hor⟩ := List.mem_filterMap.mp hsrc
    rcases Option.or_eq_some_iff.mp hor with hown | ⟨_, hbef⟩
    · exact .inl ⟨branch, hbr, hown⟩
    · exact .inr hbef
  rw [reaching, List.mem_eraseDups] at h
  split at h
  · exact hens source h
  · rcases List.mem_append.mp h with h | h
    · exact hens source h
    · exact .inr (Option.mem_toList.mp h)

/-- One variable behind branches takes the only version that reaches the place, or a join of all that do. -/
theorem mergeVersionsOf_cons
    (h : mergeVersionsOf before branches exhaustive body position (symbol :: symbols) w = .ok merged w') :
    ∃ head w₁ others,
      ((reaching before branches exhaustive symbol = [head] ∧ w₁ = w) ∨
        joinVersions symbol position body (reaching before branches exhaustive symbol) (before.get? symbol) w = .ok head w₁) ∧
      mergeVersionsOf before branches exhaustive body position symbols { w₁ with flow := w₁.flow.setHead symbol head }
        = .ok others w' := by
  rcases hreaching : reaching before branches exhaustive symbol with _ | ⟨first, _ | ⟨second, more⟩⟩
  case cons.nil =>
    simp only [mergeVersionsOf, hreaching, bind_eq_ok, pure_eq_ok, modifyFlow_eq_ok] at h
    obtain ⟨_, _, ⟨rfl, rfl⟩, _, _, rfl, others, _, hrs, rfl, rfl⟩ := h
    exact ⟨_, _, others, .inl ⟨rfl, rfl⟩, hrs⟩
  all_goals
    simp only [mergeVersionsOf, hreaching, bind_eq_ok, pure_eq_ok, modifyFlow_eq_ok] at h
    obtain ⟨head, w₁, hjn, _, _, rfl, others, _, hrs, rfl, rfl⟩ := h
    exact ⟨head, w₁, others, .inr hjn, hrs⟩

theorem Typed.advances_mergeVersionsOf (hty : w.Typed) (hhds : w.flow.NamesHeads) (hbdy : w.flow.HasBody body)
    (hholds : ∀ versions ∈ before :: branches, w.HoldsVersions body versions ∧ w.flow.NamesVersions body versions)
    (h : mergeVersionsOf before branches exhaustive body position symbols w = .ok merged w') :
    Advances loops opens w w' := by
  induction symbols generalizing w merged with
  | nil =>
    rw [(pure_eq_ok.mp h).2]
    exact .refl hty
  | cons symbol rest ih =>
    obtain ⟨head, w₁, others, hfst, hrs⟩ := mergeVersionsOf_cons h
    have hsrcs : ∀ source ∈ reaching before branches exhaustive symbol,
        w.flow.KnowsVersion w.table body symbol source ∧ w.flow.IsVersion body symbol source := by
      intro source hsrc
      obtain ⟨versions, hmem, hget⟩ : ∃ versions ∈ before :: branches, versions.get? symbol = some source := by
        rcases mem_reaching hsrc with ⟨branch, hbr, hget⟩ | hget
        · exact ⟨branch, List.mem_cons_of_mem _ hbr, hget⟩
        · exact ⟨before, List.mem_cons_self, hget⟩
      exact ⟨(hholds versions hmem).1 hget, (hholds versions hmem).2 hget⟩
    obtain ⟨hadv, hver, hnmd⟩ : Advances loops opens w w₁ ∧ w₁.flow.KnowsVersion w₁.table body symbol head ∧
        w₁.flow.IsVersion body symbol head := by
      rcases hfst with ⟨hsingle, rfl⟩ | hjn
      · exact ⟨.refl hty, hsrcs head (by rw [hsingle]; exact List.mem_singleton_self _)⟩
      · obtain ⟨htps, hvl, _⟩ := hty.types_joinVersions (fun source hsrc => (hsrcs source hsrc).1.knows) hjn
        obtain ⟨hmove, hver⟩ := moves_joinVersions hbdy (fun source hsrc => (hsrcs source hsrc).2) hjn
        exact ⟨⟨htps, .single hmove⟩, hvl.knowsVersion _ _, hver⟩
    have hadv' : Advances loops opens w _ := hadv.trans
      (hadv.types.typed.advances_setHead (hadv.runs.namesHeads hhds) hver hnmd)
    refine hadv'.trans (ih hadv'.types.typed (hadv'.runs.namesHeads hhds) (hadv'.runs.hasBody hbdy)
      (fun versions hmem => ?_) hrs)
    exact ⟨(hholds versions hmem).1.mono hadv'.types, (hholds versions hmem).2.mono hadv'.types.flow⟩

end Branches

end Workspace

end SoftTyping
