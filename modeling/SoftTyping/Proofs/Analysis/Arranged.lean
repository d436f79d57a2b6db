import SoftTyping.Proofs.Analysis.Analysed
import SoftTyping.Proofs.SymbolTable.Variables

/-!
# How the type variables of a program are arranged

Every type variable is listed once, by its own body, and a call has its own place among the calls there. What a type variable
takes its type from belongs to its body and was added before it, unless it stands at the head of a loop or takes what a
function returns. The current versions are versions of their variables, and a variable lists its versions in the order in
which they were added (`Analysed.arranged`).
-/

namespace SoftTyping.Workspace

open SymbolTable Flow

variable {w w' : Workspace} {loops : TypeVarId → Prop} {opens : SymbolId → Prop} {body : BodyId} {function : SymbolId}
  {var : TypeVar}

/-! ## What every move keeps -/

/-- Calls have their places, type variables are added behind their sources, and variables list their versions. -/
structure Ordered (loops : TypeVarId → Prop) (w : Workspace) : Prop where
  calls : ∀ {id var callee arguments site}, w.flow.typeVar? id = some var → var.constraint = .call callee arguments site →
    (w.flow.body var.body).calls[site]? = some id
  sources : ∀ {id var source}, w.flow.typeVar? id = some var → source ∈ var.constraint.sources →
    source.index < id.index ∨ (∃ sources, var.constraint = .join sources) ∧
      (loops id ∨ (w.flow.body var.body).returns = some id)
  increasing : ∀ {x symbol data}, w.table.symbol? x = some symbol → symbol.var? = some data →
    data.versions.Pairwise fun first second => first.index < second.index
  versions : ∀ {x symbol data id}, w.table.symbol? x = some symbol → symbol.var? = some data →
    (id ∈ data.versions ↔ ∃ var previous, w.flow.typeVar? id = some var ∧ var.versionOf = some ⟨x, previous⟩)

/-- Changes of bodies matter only where they touch calls and what functions return. -/
theorem Ordered.of_bodies (h : Ordered loops w) {flow : Flow} (htpVars : flow.typeVars = w.flow.typeVars)
    (hcs : ∀ body, (flow.body body).calls = (w.flow.body body).calls)
    (hrets : ∀ body id, (w.flow.body body).returns = some id → (flow.body body).returns = some id) :
    Ordered loops { w with flow } := by
  have hget : ∀ id, flow.typeVar? id = w.flow.typeVar? id := fun id => by rw [typeVar?, typeVar?, htpVars]
  refine ⟨fun hvar hcl => ?_, fun hvar hsrc => ?_, h.increasing, fun hsym hdt => ?_⟩
  · rw [hcs]
    exact h.calls (hget _ ▸ hvar) hcl
  · exact (h.sources (hget _ ▸ hvar) hsrc).imp_right (And.imp_right (Or.imp_right (hrets _ _)))
  · simp only [hget]
    exact h.versions hsym hdt

theorem Ordered.lt_size (h : Ordered loops w) {x : SymbolId} {symbol : Symbol} {data : VariableData} {id : TypeVarId}
    (hsym : w.table.symbol? x = some symbol) (hdt : symbol.var? = some data) (hid : id ∈ data.versions) :
    id.index < w.flow.typeVars.size := by
  obtain ⟨_, _, hvar, _⟩ := (h.versions hsym hdt).mp hid
  exact index_lt_size hvar

theorem Ordered.adds (h : Ordered loops w) (hads : Adds var w w') : Ordered loops w' where
  calls := fun {id var' callee arguments site} hvar hcl => by
    rw [hads.flow.typeVar?] at hvar
    rw [hads.flow.calls]
    split at hvar
    · next hid =>
      cases hvar
      obtain rfl := hads.flow.site _ _ _ hcl
      simp [hcl, Constraint.isCall, nextSite, hid]
    · have hold := h.calls hvar hcl
      rw [List.getElem?_append_left (List.getElem?_eq_some_iff.mp hold).1, hold]
  sources := fun {id var' source} hvar hsrc => by
    rw [hads.flow.typeVar?] at hvar
    rw [hads.flow.returns]
    split at hvar
    · next hid =>
      cases hvar
      exact .inl (hid ▸ hads.flow.sources source hsrc)
    · exact h.sources hvar hsrc
  increasing := fun {x symbol data} hsym hdt => by
    rw [hads.symbol?] at hsym
    split at hsym
    · obtain ⟨old, hold, rfl⟩ := Option.map_eq_some_iff.mp hsym
      rw [Symbol.var?_mapVariable] at hdt
      obtain ⟨olddata, holddata, rfl⟩ := Option.map_eq_some_iff.mp hdt
      refine List.pairwise_append.mpr ⟨h.increasing hold holddata, List.pairwise_singleton _ _,
        fun first hfst second hsnd => ?_⟩
      rw [List.mem_singleton.mp hsnd]
      exact h.lt_size hold holddata hfst
    · exact h.increasing hsym hdt
  versions := fun {x symbol data id} hsym hdt => by
    rw [hads.symbol?] at hsym
    simp only [hads.flow.typeVar?]
    by_cases hid : id = ⟨w.flow.typeVars.size⟩
    · -- The new type variable is listed by the variable of which it is a version, and by no other.
      subst hid
      simp only [if_true, Option.some.injEq, exists_and_left, exists_eq_left']
      split at hsym
      · next hnew =>
        obtain ⟨old, hold, rfl⟩ := Option.map_eq_some_iff.mp hsym
        rw [Symbol.var?_mapVariable] at hdt
        obtain ⟨olddata, holddata, rfl⟩ := Option.map_eq_some_iff.mp hdt
        obtain ⟨version, hver, rfl⟩ := Option.map_eq_some_iff.mp hnew
        exact iff_of_true (List.mem_append_right _ (List.mem_singleton_self _)) ⟨version.previous, hver⟩
      · next hver =>
        constructor
        · intro hmem
          exact absurd (h.lt_size hsym hdt hmem) (Nat.lt_irrefl _)
        · rintro ⟨previous, hprevious⟩
          exact absurd (by rw [hprevious]; rfl) hver
    · simp only [hid, if_false]
      split at hsym
      · obtain ⟨old, hold, rfl⟩ := Option.map_eq_some_iff.mp hsym
        rw [Symbol.var?_mapVariable] at hdt
        obtain ⟨olddata, holddata, rfl⟩ := Option.map_eq_some_iff.mp hdt
        rw [← h.versions hold holddata, List.mem_append, List.mem_singleton, or_iff_left hid]
      · exact h.versions hsym hdt

theorem Ordered.addSource {id source : TypeVarId} {u : Unit} (h : Ordered loops w) (hjn : w.flow.KnowsJoin body id)
    (hid : loops id ∨ (w.flow.body body).returns = some id) (hsrc : addSource id source w = .ok u w') : Ordered loops w' := by
  obtain ⟨old, sources, hold, rfl, hcon, rfl⟩ := addSource_eq_ok hjn hsrc
  refine ⟨fun {other var _ _ _} hvar hcl => ?_, fun {other var source} hvar hmem => ?_, h.increasing,
    fun {x _ _ other} hsym hdt => ?_⟩
  · rw [typeVar?_updateVariable] at hvar
    split at hvar
    · obtain ⟨_, _, rfl⟩ := Option.map_eq_some_iff.mp hvar
      nomatch hcl
    · exact h.calls hvar hcl
  · rw [typeVar?_updateVariable] at hvar
    split at hvar
    · next hoth =>
      subst hoth
      rw [hold] at hvar
      cases hvar
      exact .inr ⟨⟨_, rfl⟩, hid⟩
    · exact h.sources hvar hmem
  · rw [h.versions hsym hdt]
    simp only [typeVar?_updateVariable]
    split
    · next hoth =>
      subst hoth
      simp [hold]
    · rfl

theorem Moves.ordered (h : Moves loops opens w w') (hord : Ordered loops w) : Ordered loops w' := by
  cases h with
  | annotate => exact ⟨hord.calls, hord.sources, hord.increasing, hord.versions⟩
  | adds _ _ hads _ => exact hord.adds hads
  | source hjn hid h => exact hord.addSource hjn hid h
  | heads => exact hord.of_bodies rfl (fun _ => rfl) fun _ _ => id
  | function _ hfr hsym h =>
    refine openFunction_keeps (Ordered loops) hfr hsym ?_ ?_ ?_ h hord
    · intro v hv
      refine hv.of_bodies rfl (fun body => ?_) fun body id hid => ?_
      · rw [body_updateBody]
        split
        · next hbdy => rw [hbdy]
        · rfl
      · rw [body_updateBody]
        split
        · next hbdy => exact hbdy ▸ hid
        · exact hid
    · exact fun _ hads hv => hv.adds hads
    · intro v returned hno hv
      refine hv.of_bodies rfl (fun body => ?_) fun body id hid => ?_
      · rw [body_updateBody]
        split
        · next hbdy => rw [hbdy]
        · rfl
      · rw [body_updateBody]
        split
        · next hbdy =>
          subst hbdy
          nomatch hno.symm.trans hid
        · exact hid

theorem Runs.ordered (h : Runs loops opens w w') (hord : Ordered loops w) : Ordered loops w' := by
  induction h with
  | refl => exact hord
  | tail _ hmove ih => exact hmove.ordered ih

/-! ## Programs -/

/-- The type variables of a program, where those at the head of a loop are given. -/
structure Arranged (loops : TypeVarId → Prop) (w : Workspace) : Prop where
  /-- A type variable is listed once by its own body, and by no other. -/
  listed : ∀ {id var}, w.flow.typeVar? id = some var →
    ∀ body, (w.flow.body body).typeVars.count id = if body = var.body then 1 else 0
  /-- The place of a call is its place among the calls of its body. -/
  calls : ∀ {id var callee arguments site}, w.flow.typeVar? id = some var → var.constraint = .call callee arguments site →
    (w.flow.body var.body).calls[site]? = some id
  arguments : ∀ {id var callee arguments site}, w.flow.typeVar? id = some var → var.constraint = .call callee arguments site →
    ∀ argument ∈ arguments, argument.index < id.index ∧ w.flow.Knows var.body argument
  copies : ∀ {id var source}, w.flow.typeVar? id = some var → var.constraint = .copy source →
    source.index < id.index ∧ w.flow.Knows var.body source
  joins : ∀ {id var sources}, w.flow.typeVar? id = some var → var.constraint = .join sources → ∀ source ∈ sources,
    w.flow.Knows var.body source ∧ (source.index < id.index ∨ loops id ∨ (w.flow.body var.body).returns = some id)
  /-- The current version of a variable in a body is a version of it there. -/
  heads : ∀ {body symbol id}, w.flow.head? body symbol = some id → w.flow.IsVersion body symbol id
  /-- A variable lists its versions, all of them and in the order in which they were added. -/
  increasing : ∀ {x symbol data}, w.table.symbol? x = some symbol → symbol.var? = some data →
    data.versions.Pairwise fun first second => first.index < second.index
  versions : ∀ {x symbol data id}, w.table.symbol? x = some symbol → symbol.var? = some data →
    (id ∈ data.versions ↔ ∃ var previous, w.flow.typeVar? id = some var ∧ var.versionOf = some ⟨x, previous⟩)

theorem Ordered.toArranged (h : Ordered loops w) (hgd : w.flow.Generated w.table) (hhds : w.flow.NamesHeads) :
    Arranged loops w where
  listed {id var} hvar body := by
    have hndp : (w.flow.body body).typeVars.Nodup :=
      (hgd.increasing body).imp fun hlt heq => absurd (heq ▸ hlt) (Nat.lt_irrefl _)
    rw [hndp.count]
    refine if_congr ⟨fun hmem => ?_, ?_⟩ rfl rfl
    · obtain ⟨other, hoth, hbdy⟩ := hgd.mem_typeVars.mp hmem
      cases hvar.symm.trans hoth
      exact hbdy.symm
    · rintro rfl
      exact hgd.mem_typeVars.mpr ⟨var, hvar, rfl⟩
  calls := h.calls
  arguments {id var callee arguments site} hvar hcl argument harg := by
    have hcld := (hgd.closed hvar).arguments argument (by rw [hcl]; exact harg)
    exact ⟨hcld.1, hcld.2.knows⟩
  copies {id var source} hvar hcopy := by
    have hmem : source ∈ var.constraint.sources := by rw [hcopy]; exact List.mem_singleton_self _
    obtain ⟨other, hoth, hbdy, _⟩ := (hgd.closed hvar).sources source hmem
    rcases h.sources hvar hmem with hlt | ⟨⟨_, hjn⟩, _⟩
    · exact ⟨hlt, other, hoth, hbdy⟩
    · nomatch hcopy.symm.trans hjn
  joins {id var sources} hvar hjn source hsrc := by
    have hmem : source ∈ var.constraint.sources := by rw [hjn]; exact hsrc
    obtain ⟨other, hoth, hbdy, _⟩ := (hgd.closed hvar).sources source hmem
    exact ⟨⟨other, hoth, hbdy⟩, (h.sources hvar hmem).imp_right And.right⟩
  heads {body symbol id} hhd := hhds body hhd
  increasing := h.increasing
  versions := h.versions

theorem Analysed.unversioned {rules : NameRules} {w₁ w₂ w₃ : Workspace} (h : Analysed rules w w₁ w₂ w₃) :
    w₂.table.Unversioned := by
  obtain ⟨_, _, hlib⟩ := h.libraries
  exact unversioned_of_binds h.refers.binds
    (unversioned_of_declares h.touches.declares (unversioned_withLibraries hlib))

/-- The type variables of every program that has been analysed are well arranged. -/
theorem Analysed.arranged {rules : NameRules} {w₁ w₂ w₃ : Workspace} (h : Analysed rules w w₁ w₂ w₃) :
    Arranged (AtLoop .statement none w₂.statements w₂) w₃ := by
  obtain ⟨opens, hruns⟩ := h.runs
  obtain ⟨_, _, hahead⟩ := h.ahead
  have hnone : ∀ id, w₂.flow.typeVar? id = none := fun id => by rw [h.flow₂]; rfl
  have hstart : Ordered (AtLoop .statement none w₂.statements w₂) w₂ := by
    refine ⟨fun hvar => ?_, fun hvar => ?_, fun hsymbol hdata => ?_, fun hsymbol hdata => ?_⟩
    · nomatch (hnone _).symm.trans hvar
    · nomatch (hnone _).symm.trans hvar
    · rw [h.unversioned hsymbol hdata]
      exact .nil
    · simp [h.unversioned hsymbol hdata, hnone]
  exact (hruns.ordered hstart).toArranged h.types.typed.generated (hruns.namesHeads hahead.named)

/-- In the function with a loop, a version at the head of the loop takes a source that was added behind it. -/
theorem Analysed.arranged_looping :
    Analysed ⟨Resolver.standard, true⟩ loopingStart loopingDeclared loopingReferred loopingTyped ∧
      (loopingTyped.flow.typeVars.any fun var =>
        var.versionOf.isSome && var.constraint.sources.any fun source => var.id.index < source.index) = true ∧
      Arranged (AtLoop .statement none loopingReferred.statements loopingReferred) loopingTyped :=
  ⟨analysed_looping, by decide +kernel, analysed_looping.arranged⟩

end SoftTyping.Workspace
