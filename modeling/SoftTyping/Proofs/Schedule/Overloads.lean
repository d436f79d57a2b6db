import SoftTyping.Proofs.Analysis.Hinted
import SoftTyping.Proofs.Schedule.Consistent
import SoftTyping.Proofs.Solver.Parameters

/-!
# Published overloads are well formed

However a function gets its overloads, they come from the runs of its body: it waits for nothing, or it is made final by
force, or it is solved once more after that (`Reached.founded`). So they are no more than there may be bindings, no two of
them are equal, and each has a type for every parameter, the declared one where there is one (`Solver.solve_wellFormed`).
-/

namespace SoftTyping

open Refusal SolveContext

/-! ## Overloads of a body -/

section IncludeOnce

variable {α : Type} [BEq α] {items found : List α}

theorem length_foldl_includeOnce_le (items found : List α) :
    (items.foldl includeOnce found).length ≤ found.length + items.length := by
  induction items generalizing found with
  | nil => exact Nat.le_refl _
  | cons item rest ih =>
    have hone : (includeOnce found item).length ≤ found.length + 1 := by
      unfold includeOnce
      split
      · omega
      · rw [List.length_append, List.length_singleton]
    have hrs := ih (includeOnce found item)
    rw [List.foldl_cons, List.length_cons]
    omega

theorem pairwise_foldl_includeOnce (items : List α) (h : found.Pairwise fun first second => (second == first) = false) :
    (items.foldl includeOnce found).Pairwise fun first second => (second == first) = false := by
  induction items generalizing found with
  | nil => exact h
  | cons item rest ih =>
    refine ih ?_
    unfold includeOnce
    split
    · exact h
    · next hnew =>
      refine List.pairwise_append.mpr ⟨h, List.pairwise_singleton _ _, fun first hfst second hsnd => ?_⟩
      rw [List.mem_singleton.mp hsnd]
      by_contra heq
      rw [Bool.not_eq_false] at heq
      exact hnew (List.contains_iff_exists_mem_beq.mpr ⟨first, hfst, heq⟩)

end IncludeOnce

namespace Plan

variable {plan : Plan} {lattice : Lattice}

theorem isEmpty_knownOrMixed (h : lattice.KeepsTypes) (union : Union) : (knownOrMixed lattice union).isEmpty = false := by
  unfold knownOrMixed
  split
  · exact h.mixed
  · next hso => exact Bool.not_eq_true _ ▸ hso

theorem isEmpty_withModifiers (modifiers : List Modifier) {union : Union} (h : union.isEmpty = false) :
    (withModifiers lattice modifiers union).isEmpty = false := by
  unfold withModifiers
  induction modifiers generalizing union with
  | nil => exact h
  | cons modifier rest ih =>
    refine ih ?_
    dsimp only
    split
    · exact Union.isEmpty_insert _ _ _
    · exact h

theorem isTyped_overload (h : lattice.KeepsTypes) (plan : Plan) (function : SymbolId) (modifiers : List Modifier)
    (binding : Binding) : (plan.overload lattice function modifiers binding).IsTyped where
  parameters := by
    intro parameter hpar
    obtain ⟨⟨_, _⟩, _, rfl⟩ := List.mem_map.mp hpar
    exact isEmpty_knownOrMixed h _
  result := h.normalize _ (isEmpty_withModifiers modifiers (isEmpty_knownOrMixed h _))

end Plan

/-! ## Where published overloads come from -/

namespace Schedule

variable {problem : Problem} {calls : CallGraph} {history : List RoundRecord} {schedule next : Schedule} {id : SymbolId}

/-- Overloads are all that some outcome of a function has found. -/
def IsFound (problem : Problem) (id : SymbolId) (overloads : List Overload) : Prop :=
  ∃ registry outcome, (problem.withRegistry registry).outcome (problem.flow.body (.function id)) = .ok outcome ∧
    overloads = outcome.finalOverloads

/-- What is published of a function with a body. -/
structure Founded (problem : Problem) (schedule : Schedule) (id : SymbolId) : Prop where
  found : ∀ {known}, schedule.registry.get? id = some known → known.final = true → IsFound problem id known.overloads
  stored : schedule.rounds = 0 ∧ .function id ∈ schedule.queue ∨
    ∃ outcome, schedule.outcomes.get? (.function id) = some outcome

theorem isFound_finalNow (h : Reached problem calls history schedule) {outcome : Outcome}
    (hstd : schedule.outcomes.get? (.function id) = some outcome) : IsFound problem id (schedule.finalNow problem id) := by
  obtain ⟨registry, hf⟩ := h.exists_outcome hstd
  have hso : outcome.finalOverloads.isEmpty = false := by
    rw [List.isEmpty_eq_false_iff]
    exact finalOverloads_ne_nil (Flow.id_body _ _) hf
  refine ⟨registry, outcome, hf, ?_⟩
  rw [finalNow, hstd]
  simp [hso]

/-- What a round publishes of a function was found by it or before. -/
theorem isFound_revised {registry : Registry} {outcome : Outcome} {known : Published}
    (hf : (problem.withRegistry registry).outcome (problem.flow.body (.function id)) = .ok outcome)
    (hkn : known.final = true → IsFound problem id known.overloads) (hfin : (known.revised outcome).final = true) :
    IsFound problem id (known.revised outcome).overloads := by
  unfold Published.revised at hfin ⊢
  split at hfin
  · next hwas =>
    rw [if_pos hwas]
    dsimp only
    split
    · exact hkn hwas
    · exact ⟨registry, outcome, hf, rfl⟩
  · next hwas =>
    rw [if_neg hwas]
    split at hfin
    · next hpen =>
      rw [if_pos hpen]
      exact ⟨registry, outcome, hf, rfl⟩
    · split at hfin <;> exact absurd hfin hwas

/-- In every state that is not the first one, a function has been solved, and if it is final, with what was found of it. -/
theorem Reached.founded (hrds : 1 ≤ problem.limits.rounds) (hid : problem.IsFunction id)
    (hbdy : (problem.flow.body? (.function id)).isSome) (h : Reached problem calls history schedule) :
    schedule.Founded problem id := by
  induction h with
  | start =>
    obtain ⟨known, hkn⟩ := Option.isSome_iff_exists.mp ((@Reached.start problem calls).isSome_iff.mpr hid)
    have hop : known.final = false := (start_open hkn).mpr hbdy
    refine ⟨fun hoth hfin => ?_, .inl ⟨rfl, ?_⟩⟩
    · cases hkn.symm.trans hoth
      rw [hop] at hfin
      nomatch hfin
    · refine List.mem_filter.mpr ⟨OrderedMap.contains_iff_mem_keys.mp hbdy, ?_⟩
      exact Registry.isOpen_function.mpr ⟨known, hkn, hop⟩
  | @round _ schedule next hrch _ _ hrd ih =>
    obtain ⟨outcomes, hrd⟩ := round_eq_ok hrd
    by_cases hqueued : .function id ∈ schedule.queue
    · obtain ⟨known, outcome, htk, hstd, hget⟩ := hrd.takes_of_queued hrch.wellFormed hqueued
      refine ⟨fun {known'} hkn' hfin => ?_, .inr ⟨outcome, hstd⟩⟩
      rw [hget] at hkn'
      cases hkn'
      exact isFound_revised htk.found (ih.found htk.known) hfin
    · refine ⟨fun {known} hkn hfin => ?_, .inr ?_⟩
      · rw [hrd.get?_of_not_queued hrch.wellFormed hqueued] at hkn
        exact ih.found hkn hfin
      · rw [hrd.outcome_of_not_queued hrch.wellFormed hqueued]
        exact ih.stored.resolve_left fun hfst => hqueued hfst.2
  | @release _ schedule hrch hidl _ ih =>
    obtain ⟨outcome, hstd⟩ := ih.stored.resolve_left fun hfst => by
      rw [hidl] at hfst
      nomatch hfst.2
    have hfcs := forces_release problem schedule
    refine ⟨fun {known} hkn hfin => ?_, .inr ⟨outcome, by rw [hfcs.outcomes, hstd]⟩⟩
    by_cases hop : id ∈ schedule.registry.unfinished
    · rw [get?_release hop] at hkn
      cases hkn
      exact isFound_finalNow hrch hstd
    · rw [hfcs.kept id (hrch.isFinal_of_unfinished hid hop)] at hkn
      exact ih.found hkn hfin
  | @exhaust _ schedule hrch _ hlimit ih =>
    obtain ⟨outcome, hstd⟩ := ih.stored.resolve_left fun hfst => by omega
    have hfcs := forces_exhaust problem schedule
    refine ⟨fun {known} hkn hfin => ?_, .inr ⟨outcome, by rw [hfcs.outcomes, hstd]⟩⟩
    by_cases hop : id ∈ schedule.registry.unfinished
    · have hfcd : (schedule.exhausted problem).registry.get? id =
          some { overloads := schedule.finalNow problem id, final := true } := get?_allForced hop
      cases hfcd.symm.trans hkn
      exact isFound_finalNow hrch hstd
    · rw [hfcs.kept id (hrch.isFinal_of_unfinished hid hop)] at hkn
      exact ih.found hkn hfin

end Schedule

/-! ## Publishing -/

/-- A symbol without what is found of its overloads. -/
def Symbol.unpublished (symbol : Symbol) : Symbol := symbol.mapMethod fun data => { data with overloads := [] }

theorem Symbol.var?_unpublished (symbol : Symbol) : symbol.unpublished.var? = symbol.var? := var?_mapMethod symbol _

theorem Symbol.type?_unpublished (symbol : Symbol) : symbol.unpublished.type? = symbol.type? := by
  obtain ⟨_, _, _, data⟩ := symbol
  cases data <;> rfl

namespace SymbolTable

variable {table : SymbolTable} {registry : Registry} {id : SymbolId} {symbol : Symbol}

theorem symbol?_publishAll (table : SymbolTable) (registry : Registry) (id : SymbolId) :
    ((table.publishAll registry).symbol? id).map Symbol.unpublished = (table.symbol? id).map Symbol.unpublished := by
  unfold publishAll
  generalize registry.entries = entries
  induction entries generalizing table with
  | nil => rfl
  | cons entry rest ih =>
    rw [List.foldl_cons, ih]
    unfold symbol? publishOne
    dsimp only
    split
    · rw [Array.getElem?_modify]
      split
      · rw [Option.map_map]
        refine congrArg (fun f => Option.map f _) (funext fun symbol => ?_)
        obtain ⟨_, _, _, data⟩ := symbol
        cases data <;> rfl
      · rfl
    · rfl

theorem exists_of_symbol?_publishAll (h : (table.publishAll registry).symbol? id = some symbol) :
    ∃ old, table.symbol? id = some old ∧ old.unpublished = symbol.unpublished := by
  have hsm := symbol?_publishAll table registry id
  rw [h, Option.map_some] at hsm
  exact Option.map_eq_some_iff.mp hsm.symm

theorem isTypeNamed_publishAll {name : String} (h : table.IsTypeNamed id name) :
    (table.publishAll registry).IsTypeNamed id name := by
  obtain ⟨symbol, data, hsym, hdt, hnm⟩ := h
  have hsm := symbol?_publishAll table registry id
  rw [hsym, Option.map_some] at hsm
  obtain ⟨new, hnew, hunpublished⟩ := Option.map_eq_some_iff.mp hsm
  exact ⟨new, data, hnew, by rw [← Symbol.type?_unpublished, hunpublished, Symbol.type?_unpublished, hdt], hnm⟩

theorem declaredType?_publishAll (table : SymbolTable) (registry : Registry) (id : SymbolId) :
    (table.publishAll registry).declaredType? id = table.declaredType? id := by
  have hsm := congrArg (Option.bind · (·.var?)) (symbol?_publishAll table registry id)
  simp only [Option.bind_map, Function.comp_def, Symbol.var?_unpublished] at hsm
  rw [declaredType?, hsm, declaredType?]

theorem generation_publishAll (table : SymbolTable) (registry : Registry) :
    (table.publishAll registry).generation = table.generation := by
  unfold publishAll
  generalize registry.entries = entries
  induction entries generalizing table with
  | nil => rfl
  | cons entry rest ih => exact ih _

theorem asType_publishAll (table : SymbolTable) (registry : Registry) (id : SymbolId) :
    (table.publishAll registry).asType id = table.asType id := by
  have hsm := congrArg (Option.bind · (·.type?)) (symbol?_publishAll table registry id)
  simp only [Option.bind_map, Function.comp_def, Symbol.type?_unpublished] at hsm
  rw [asType, asType, hsm, erroneousType, erroneousType, generation_publishAll]

end SymbolTable

theorem Symbol.var?_of_unpublished {symbol old : Symbol} (h : old.unpublished = symbol.unpublished) :
    old.var? = symbol.var? := by
  rw [← var?_unpublished, h, var?_unpublished]

theorem Symbol.method?_of_unpublished {symbol old : Symbol} (h : old.unpublished = symbol.unpublished) {data : MethodData}
    (hdt : symbol.method? = some data) : ∃ data', old.method? = some data' ∧ data'.parameters = data.parameters ∧
      data'.isBuiltin = data.isBuiltin := by
  have hold := congrArg Symbol.method? h
  rw [unpublished, unpublished, method?_mapMethod, method?_mapMethod, hdt, Option.map_some] at hold
  obtain ⟨data', hdt', hsm⟩ := Option.map_eq_some_iff.mp hold
  exact ⟨data', hdt', (congrArg MethodData.parameters hsm : _), (congrArg MethodData.isBuiltin hsm : _)⟩

/-! ## Well-formed overloads -/

/-- The overloads of a function as a table holds them, with its parameters. -/
structure MethodData.WellFormed (data : MethodData) (table : SymbolTable) (limits : Limits) : Prop where
  nonempty : data.overloads ≠ []
  bounded : data.overloads.length ≤ max 1 limits.bindings
  distinct : data.overloads.Pairwise fun first second => (second == first) = false
  arity : ∀ overload ∈ data.overloads, overload.parameters.length = data.parameters.length
  /-- Every parameter and the result have at least one type. -/
  typed : ∀ overload ∈ data.overloads, overload.IsTyped
  /-- A parameter that is declared with a type takes exactly that one. -/
  declared : ∀ overload ∈ data.overloads, ∀ {index : Nat} {parameter type : SymbolId} {symbol : Symbol} {var : VariableData},
    data.parameters[index]? = some parameter → table.symbol? parameter = some symbol → symbol.var? = some var →
    var.declared = some type → ∃ name, table.IsTypeNamed type name ∧
      overload.parameters[index]? = some { bound := .single name type, convertible := false }

namespace Workspace

variable {w : Workspace} {function : SymbolId} {entry : Symbol} {data : MethodData}

/-- The parameters of a function are numbered as they are listed. -/
theorem Signed.numbered (h : w.Signed) (hlists : w.flow.ListsParameters) (hbdy : w.flow.HasBody (.function function))
    (he : w.table.symbol? function = some entry) (hdt : entry.method? = some data) {id : TypeVarId} {var : TypeVar}
    {index : Nat} (hvar : w.flow.typeVar? id = some var) (hof : var.body = .function function)
    (hix : var.parameterIndex = some index) : (w.flow.body (.function function)).parameters[index]? = some id := by
  have hlsd := hlists hvar (by rw [hix]; rfl)
  rw [hof] at hlsd
  obtain ⟨place, hplc⟩ := List.getElem?_of_mem hlsd
  obtain ⟨_, _, _, var', _, hvar', hix', _⟩ := h.parameter hbdy he hdt hplc
  cases hvar.symm.trans hvar'
  obtain rfl := Option.some.inj (hix.symm.trans hix')
  exact hplc

end Workspace

theorem SolveContext.finalOverloads_eq {context : SolveContext} {body : Body} {outcome : Outcome} {id : SymbolId}
    {plan : Plan} (hbdy : body.id = .function id) (h : context.outcome body = .ok outcome)
    (hpl : context.plan body = .ok plan) : ∃ modifiers, outcome.finalOverloads =
      ((plan.solve context.lattice context.limits).1.map fun run =>
        plan.overload context.lattice id modifiers run.binding).foldl includeOnce [] := by
  unfold SolveContext.outcome at h
  obtain ⟨plan', hpl', h⟩ := bind_eq_ok.mp h
  cases hpl.symm.trans hpl'
  obtain ⟨position, _, h⟩ := bind_eq_ok.mp h
  simp only [hbdy] at h
  obtain ⟨modifiers, _, h⟩ := bind_eq_ok.mp h
  cases h
  exact ⟨modifiers, by rw [List.map_map]; rfl⟩

namespace Workspace.Analysed

variable {rules : NameRules} {w w₁ w₂ w₃ : Workspace} (h : Analysed rules w w₁ w₂ w₃) {solver : Solver}
  {function : SymbolId} {entry : Symbol} {data : MethodData} (hbdy : w₃.flow.HasBody (.function function))
  (he : w₃.table.symbol? function = some entry) (hdt : entry.method? = some data)

include h hbdy he hdt

/-- A parameter that is declared with a type takes exactly that one in the overload of every run. -/
theorem declared_overload {registry : Registry} {plan : Plan} {run : Run} {tolerant : Bool}
    (hpl : ((solver.problem w₃.table w₃.flow).withRegistry registry).plan (w₃.flow.body (.function function)) = .ok plan)
    (hens : plan.Ends (.ofTable w₃.table) solver.limits tolerant run) (modifiers : List Modifier) {index : Nat}
    {parameter type : SymbolId} {symbol : Symbol} {var : VariableData} (hpar : data.parameters[index]? = some parameter)
    (hsym : w₃.table.symbol? parameter = some symbol) (hvar : symbol.var? = some var) (htp : var.declared = some type)
    {name : String} (hnm : w₃.table.IsTypeNamed type name) :
    (plan.overload (.ofTable w₃.table) function modifiers run.binding).parameters[index]? =
      some { bound := .single name type, convertible := false } := by
  have hsigned := h.signed
  have hlen := hsigned.length_eq hbdy he hdt
  obtain ⟨hlt, _⟩ := List.getElem?_eq_some_iff.mp hpar
  obtain ⟨_, _, hpld, _⟩ := plan_eq_ok hpl
  have hcount := hpld.length_eq
  -- The parameter of the plan at this place is that of the declared one.
  obtain ⟨planned, hget⟩ : ∃ planned, plan.parameters[index]? = some planned :=
    ⟨_, List.getElem?_eq_getElem (by omega)⟩
  obtain ⟨hpcd, typeVar, htpVar, hdec⟩ := getElem?_parameters hpl hget
  obtain ⟨_, hsm, entry', typeVar', he', htpVar', _, hfx⟩ := hsigned.parameter hbdy he hdt hpcd
  cases hpar.symm.trans hsm
  cases hsym.symm.trans he'
  cases htpVar.symm.trans htpVar'
  have hun : planned.declared = some (.single name type) := by
    rw [hdec, hfx, hvar, Option.bind_some, htp, Option.map_some]
    change some (Lattice.unionOf (.ofTable w₃.table) type) = _
    rw [Lattice.unionOf, Lattice.nameOf?_ofTable.mpr hnm]
  have hrespects := plan_respectsDeclared h.types.typed.generated hpl
    (hsigned.numbered h.listsParameters hbdy he hdt)
  obtain ⟨hbds, hplc⟩ := hens.respects hrespects hget hun
  simp [Plan.overload, Plan.parameterTypes, hget, hbds, hplc, Bounds.ofGiven, Plan.knownOrMixed]

theorem wellFormed_of_isFound {overloads : List Overload}
    (hf : Schedule.IsFound (solver.problem w₃.table w₃.flow) function overloads) :
    ({ data with overloads } : MethodData).WellFormed w₃.table solver.limits := by
  obtain ⟨registry, outcome, hoc, rfl⟩ := hf
  obtain ⟨plan, hpl⟩ := outcome_eq_ok hoc
  obtain ⟨modifiers, hfin⟩ := finalOverloads_eq (Flow.id_body _ _) hoc hpl.planned
  have hmem : ∀ overload ∈ outcome.finalOverloads, ∃ function modifiers tolerant run,
      plan.Ends (.ofTable w₃.table) solver.limits tolerant run ∧
        overload = plan.overload (.ofTable w₃.table) function modifiers run.binding := by
    intro overload hov
    obtain ⟨function, modifiers, run, hrun, rfl⟩ :=
      exists_run_of_mem_overloads hoc hpl.planned (.inr hov)
    obtain ⟨tolerant, hens⟩ := Plan.ends_of_mem_solve hrun
    exact ⟨function, modifiers, tolerant, run, hens, rfl⟩
  refine ⟨finalOverloads_ne_nil (Flow.id_body _ _) hoc, ?_, ?_, ?_, ?_, ?_⟩
  · dsimp only
    rw [hfin]
    refine Nat.le_trans (length_foldl_includeOnce_le _ _) ?_
    rw [List.length_nil, Nat.zero_add, List.length_map]
    exact Plan.length_solve_le plan _ _
  · dsimp only
    rw [hfin]
    exact pairwise_foldl_includeOnce _ .nil
  · intro overload hov
    obtain ⟨_, _, _, run, _, rfl⟩ := hmem overload hov
    obtain ⟨_, _, hpld, _⟩ := plan_eq_ok hpl.planned
    have hcount := hpld.length_eq
    have hlen := h.signed.length_eq hbdy he hdt
    rw [Plan.overload, Plan.parameterTypes, List.length_map, List.length_zipIdx, ← hcount]
    exact hlen
  · intro overload hov
    obtain ⟨_, _, _, run, _, rfl⟩ := hmem overload hov
    exact Plan.isTyped_overload (Lattice.keepsTypes_ofTable h.types.typed.sound) plan _ _ _
  · intro overload hov index parameter type symbol var hpar hsym hvar htp
    obtain ⟨_, modifiers, _, run, hens, rfl⟩ := hmem overload hov
    obtain ⟨name, hnm⟩ := h.declaresTypes.isTypeNamed h.types.typed.sound hsym hvar htp
    exact ⟨name, hnm, h.declared_overload hbdy he hdt hpl.planned hens modifiers hpar hsym hvar htp hnm⟩

end Workspace.Analysed

theorem MethodData.WellFormed.publishAll {data : MethodData} {table : SymbolTable} {limits : Limits}
    (h : data.WellFormed table limits) (registry : Registry) : data.WellFormed (table.publishAll registry) limits := by
  refine ⟨h.nonempty, h.bounded, h.distinct, h.arity, h.typed, ?_⟩
  intro overload hov index parameter type symbol var hpar hsym hvar htp
  obtain ⟨old, hold, hsm⟩ := SymbolTable.exists_of_symbol?_publishAll hsym
  obtain ⟨name, hnm, htaken⟩ :=
    h.declared overload hov hpar hold ((Symbol.var?_of_unpublished hsm).trans hvar) htp
  exact ⟨name, SymbolTable.isTypeNamed_publishAll hnm, htaken⟩

section Solve

variable {rules : NameRules} {w w₁ w₂ w₃ : Workspace} {solver solver' : Solver} {table' : SymbolTable} {issues : List Issue}

theorem Solver.Finishes.wellFormed {last : Schedule} {outcome : Outcome}
    (h : Finishes solver w₃.table w₃.flow last outcome solver' table' issues) (hanl : Workspace.Analysed rules w w₁ w₂ w₃)
    (hrds : 1 ≤ solver.limits.rounds) {function : SymbolId} {symbol : Symbol} {data : MethodData}
    (hsym : table'.symbol? function = some symbol) (hdt : symbol.method? = some data) (husr : data.isBuiltin = false)
    (hbdy : w₃.flow.HasBody (.function function)) : data.WellFormed table' solver.limits := by
  obtain ⟨history, hrch⟩ := h.reached
  obtain rfl := h.published
  obtain ⟨old, hold, hsm⟩ := SymbolTable.exists_of_symbol?_publishAll hsym
  obtain ⟨olddata, holddt, hpars, hbuiltin⟩ := Symbol.method?_of_unpublished hsm hdt
  have hfn : (solver.problem w₃.table w₃.flow).IsFunction function := ⟨old, olddata, hold, holddt, hbuiltin.trans husr⟩
  obtain ⟨known, hkn, hfin⟩ := h.allFinal function hfn
  have hf := (hrch.founded hrds hfn hbdy).found hkn hfin
  have hpub := overloadsOf?_of_reached hrch hkn
  rw [SymbolTable.overloadsOf?, hsym, Option.bind_some, hdt, Option.map_some, Option.some.injEq] at hpub
  have hwf := (hanl.wellFormed_of_isFound hbdy hold holddt hf).publishAll last.registry
  rw [← hpub] at hwf
  exact ⟨hwf.nonempty, hwf.bounded, hwf.distinct, hpars ▸ hwf.arity, hwf.typed, hpars ▸ hwf.declared⟩

/-- A parameter with a type hint is listed by a function, and is declared with the type of the hint, also once the overloads
are published. -/
theorem Workspace.Analysed.exists_hinted (h : Analysed rules w w₁ w₂ w₃) (registry : Registry) {id hint : NodeId}
    (hid : id ∈ Shape.declarationsIn .statement w.statements) (hhint : w.HasHint id hint) :
    ∃ parameter resolved, w₃.tree.symbolOf id = .ok parameter ∧ w₃.tree.symbolOf hint = .ok resolved ∧
      (∃ function symbol data, (w₃.table.publishAll registry).symbol? function = some symbol ∧
        symbol.method? = some data ∧ parameter ∈ data.parameters) ∧
      (w₃.table.publishAll registry).declaredType? parameter = some ((w₃.table.publishAll registry).asType resolved) := by
  obtain ⟨parameter, hpar, hispar, resolved, _, hres, _, hdec⟩ := h.takesHint hid hhint
  obtain ⟨_, _, _, function, _, data, _, _, _, _, hfn, hdt, hlsd⟩ := h.owned.listed hispar
  obtain ⟨method, hmth, hsm, _⟩ := SymbolTable.MatchesSymbols.symbol? h.types.table.symbols hfn
  have hpub := SymbolTable.symbol?_publishAll w₃.table registry function
  rw [hmth, Option.map_some] at hpub
  obtain ⟨symbol, hsym, hun⟩ := Option.map_eq_some_iff.mp hpub
  obtain ⟨data', hdt', hpars, _⟩ := Symbol.method?_of_unpublished hun (hsm.trans hdt)
  refine ⟨parameter, resolved, hpar, hres, ⟨function, symbol, data', hsym, hdt', hpars ▸ hlsd⟩, ?_⟩
  rw [SymbolTable.declaredType?_publishAll, SymbolTable.asType_publishAll, hdec]

/-- After solving with at least one round, the overloads of every function of the program that has a body are well formed. Where
a parameter has a type hint, each of them takes exactly the type that the hint stands for. -/
theorem Solver.solve_wellFormed (hanalysed : Workspace.Analysed rules w w₁ w₂ w₃) {pool : WorkerPool} {log : IssueLog}
    (hidle : solver.phase = .idle) (hrounds : 1 ≤ solver.limits.rounds)
    (hsolve : solve pool w₃.flow ⟨solver, w₃.table, log⟩ = .ok () ⟨solver', table', log.reportAll issues⟩) :
    (∀ ⦃function symbol data⦄, table'.symbol? function = some symbol → symbol.method? = some data → data.isBuiltin = false →
      w₃.flow.HasBody (.function function) → data.WellFormed table' solver.limits) ∧
    ∀ ⦃id hint⦄, id ∈ Shape.declarationsIn .statement w.statements → w.HasHint id hint →
      ∃ parameter resolved, w₃.tree.symbolOf id = .ok parameter ∧ w₃.tree.symbolOf hint = .ok resolved ∧
        (∃ function symbol data, table'.symbol? function = some symbol ∧ symbol.method? = some data ∧
          parameter ∈ data.parameters) ∧
        ∀ ⦃function symbol data⦄ ⦃index : Nat⦄, table'.symbol? function = some symbol → symbol.method? = some data →
          data.isBuiltin = false → w₃.flow.HasBody (.function function) → data.parameters[index]? = some parameter →
          ∀ overload ∈ data.overloads, ∃ name, table'.IsTypeNamed (table'.asType resolved) name ∧
            overload.parameters[index]? = some { bound := .single name (table'.asType resolved), convertible := false } := by
  obtain ⟨last, _, hfinishes⟩ := finishes_of_solve hidle hsolve
  have hformed : ∀ ⦃function symbol data⦄, table'.symbol? function = some symbol → symbol.method? = some data →
      data.isBuiltin = false → w₃.flow.HasBody (.function function) → data.WellFormed table' solver.limits :=
    fun _ _ _ hsymbol hdata huser hbody => hfinishes.wellFormed hanalysed hrounds hsymbol hdata huser hbody
  refine ⟨hformed, fun id hint hid hhint => ?_⟩
  obtain rfl := hfinishes.published
  obtain ⟨parameter, resolved, hparameter, hresolved, hlisted, hdeclared⟩ :=
    hanalysed.exists_hinted last.registry hid hhint
  refine ⟨parameter, resolved, hparameter, hresolved, hlisted, ?_⟩
  intro function symbol data index hsymbol hdata huser hbody hindex overload hoverload
  obtain ⟨var, hvar, htype⟩ := Option.bind_eq_some_iff.mp hdeclared
  obtain ⟨entry, hentry, hvar⟩ := Option.bind_eq_some_iff.mp hvar
  exact (hformed hsymbol hdata huser hbody).declared overload hoverload hindex hentry hvar htype

end Solve

namespace Workspace

/-- A function with two parameters, the first of which has a type hint. -/
def hintedProgram : List SourceTree :=
  [.node .functionDecl "f" ⟨1, 1⟩ [.node .parameter "$p" ⟨1, 2⟩ [.node .typeName "int" ⟨1, 3⟩ []],
    .node .parameter "$q" ⟨1, 4⟩ [], .node .block "" ⟨1, 5⟩ [
      .node .returnStmt "" ⟨2, 1⟩ [.node .call "abs" ⟨2, 2⟩ [.node .variableRef "$q" ⟨2, 3⟩ []]]]]]

def hintedStart : Workspace where
  tree := .ofProgram hintedProgram
  table := loopingStart.table
  flow := .empty
  issues := {}

def hintedDeclared : Workspace := left (declareAll hintedStart)

def hintedReferred : Workspace := left (referAll ⟨Resolver.standard, true⟩ hintedDeclared)

def hintedTyped : Workspace := left (typeAll hintedReferred)

theorem analysed_hinted :
    Analysed ⟨Resolver.standard, true⟩ hintedStart hintedDeclared hintedReferred hintedTyped where
  libraries := by
    dsimp only [hintedStart]
    exact ⟨0, loopingLibraries, withLibraries_looping⟩
  wellFormed := Tree.wellFormed_ofProgram hintedProgram
  untyped := untyped_of_nodes (by decide +kernel)
  flow := rfl
  declared := eq_ok_left (by decide +kernel)
  referred := eq_ok_left (by decide +kernel)
  constrained := eq_ok_left (by decide +kernel)

end Workspace

/-- The function has an overload for each type of a number, and its first parameter takes the type of the hint in both. -/
theorem Solver.solve_wellFormed_hinted : ∃ solver' table' issues symbol data,
    solve .ready Workspace.hintedTyped.flow ⟨{ limits := {} }, Workspace.hintedTyped.table, {}⟩ =
        .ok () ⟨solver', table', ({} : IssueLog).reportAll issues⟩ ∧
      table'.symbol? ⟨0, 11⟩ = some symbol ∧ symbol.method? = some data ∧
      data.overloads.map Overload.render = ["(\x7bint\x7d, \x7bint\x7d) -> \x7bint\x7d",
        "(\x7bint\x7d, \x7bfloat\x7d) -> \x7bfloat\x7d"] ∧
      data.WellFormed table' {} ∧ Workspace.hintedStart.HasHint ⟨2⟩ ⟨3⟩ ∧
      Workspace.hintedTyped.tree.symbolOf ⟨3⟩ = .ok ⟨0, 4⟩ ∧
      ∀ overload ∈ data.overloads, ∃ name, table'.IsTypeNamed (table'.asType ⟨0, 4⟩) name ∧
        overload.parameters[0]? = some { bound := .single name (table'.asType ⟨0, 4⟩), convertible := false } := by
  have hanswer : ((solve .ready Workspace.hintedTyped.flow).answer
      ⟨{ limits := {} }, Workspace.hintedTyped.table, {}⟩).isOk = true := by decide +kernel
  have hfound : ((((solve .ready Workspace.hintedTyped.flow).leaves
      ⟨{ limits := {} }, Workspace.hintedTyped.table, {}⟩).table.symbol? ⟨0, 11⟩).bind (·.method?)).map
        (fun data => (data.isBuiltin, data.parameters, data.overloads.map Overload.render)) =
      some (false, [⟨0, 12⟩, ⟨0, 13⟩],
        ["(\x7bint\x7d, \x7bint\x7d) -> \x7bint\x7d", "(\x7bint\x7d, \x7bfloat\x7d) -> \x7bfloat\x7d"]) := by decide +kernel
  obtain ⟨solver', table', issues, hsolve⟩ := exists_issues_of_isOk rfl hanswer
  rw [Step.leaves_of_eq_ok hsolve] at hfound
  obtain ⟨data, hdata, hshown⟩ := Option.map_eq_some_iff.mp hfound
  obtain ⟨symbol, hsymbol, hdata⟩ := Option.bind_eq_some_iff.mp hdata
  simp only [Prod.mk.injEq] at hshown
  obtain ⟨huser, hparameters, hrendered⟩ := hshown
  have hbody : (Workspace.hintedTyped.flow.body? (.function ⟨0, 11⟩)).isSome = true := by decide +kernel
  have hhint : Workspace.hintedStart.HasHint ⟨2⟩ ⟨3⟩ := ⟨⟨_, rfl, rfl⟩, rfl⟩
  have hbound : Workspace.hintedTyped.tree.symbolOf ⟨2⟩ = .ok ⟨0, 12⟩ ∧
      Workspace.hintedTyped.tree.symbolOf ⟨3⟩ = .ok ⟨0, 4⟩ := by decide +kernel
  obtain ⟨hformed, hhinted⟩ := solve_wellFormed Workspace.analysed_hinted rfl (by decide) hsolve
  obtain ⟨parameter, resolved, hparameter, hresolved, _, htaken⟩ := hhinted (by decide +kernel) hhint
  cases hbound.1.symm.trans hparameter
  cases hbound.2.symm.trans hresolved
  exact ⟨solver', table', issues, symbol, data, hsolve, hsymbol, hdata, hrendered, hformed hsymbol hdata huser hbody, hhint,
    hbound.2, htaken hsymbol hdata huser hbody (by rw [hparameters]; rfl)⟩

end SoftTyping
