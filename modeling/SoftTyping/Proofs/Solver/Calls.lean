import SoftTyping.Proofs.Flow
import SoftTyping.Proofs.Solver.Search
import SoftTyping.Solver.Schedule

/-!
# The calls of a body

A body calls the functions of the program that the constraints of its type variables name. What is published of these
functions is all that solving the body takes from the registry (`outcome_congr`): a call of a function that is not final
makes the outcome wait (`pending_outcome_iff`) and is registered (`mem_waits`).
-/

namespace SoftTyping

open Refusal Flow SolveContext

/-! ## Functions and calls -/

namespace Problem

/-- A function that the program declares, as opposed to a built-in. -/
def IsFunction (problem : Problem) (id : SymbolId) : Prop :=
  ∃ symbol data, problem.table.symbol? id = some symbol ∧ symbol.method? = some data ∧ data.isBuiltin = false

/-- A body calls a function of the program: one of its type variables is a call of it. The type of a variable that is
given, and that of a parameter, is not taken from its constraint, so such a variable is no call. -/
def Calls (problem : Problem) (body : BodyId) (callee : SymbolId) : Prop :=
  problem.IsFunction callee ∧ ∃ id ∈ (problem.flow.body body).typeVars, ∃ var arguments site,
    problem.flow.typeVar? id = some var ∧ var.fixed = none ∧ var.parameterIndex = none ∧
      var.constraint = .call callee arguments site

end Problem

/-- Whether a function is final in a registry. -/
def Registry.IsFinal (registry : Registry) (id : SymbolId) : Prop :=
  ∃ known, registry.get? id = some known ∧ known.final = true

/-! ## Looking things up -/

namespace Flow

theorem trace_eq_some {flow : Flow} {steps : Nat} {id origin : TypeVarId} {index : Nat}
    (h : flow.trace steps id = .ok (some (origin, index))) :
    ∃ var, flow.typeVar? origin = some var ∧ var.parameterIndex = some index ∧ var.fixed = none := by
  induction steps generalizing id with
  | zero => nomatch h
  | succ steps ih =>
    obtain ⟨var, hvar, h⟩ := bind_eq_ok.mp h
    rw [find_eq_ok] at hvar
    cases hix : var.parameterIndex with
    | some i =>
      simp only [hix] at h
      split at h
      · nomatch h
      · next hfx =>
        cases h
        exact ⟨var, hvar, hix, by simpa using hfx⟩
    | none =>
      simp only [hix] at h
      split at h
      · exact ih h
      · nomatch h

end Flow

namespace SolveContext

variable {context : SolveContext} {body : Body} {id : TypeVarId} {rule : Rule} {plan : Plan} {outcome : Outcome}

theorem callee_eq_ok {id : SymbolId} {symbol : Symbol} {data : MethodData} :
    context.callee id = .ok (symbol, data) ↔ context.table.symbol? id = some symbol ∧ symbol.method? = some data := by
  unfold callee
  rw [bind_eq_ok]
  constructor
  · rintro ⟨found, hf, h⟩
    rw [SymbolTable.symbol_eq_ok] at hf
    split at h
    · next hdt =>
      cases h
      exact ⟨hf, hdt⟩
    · nomatch h
  · rintro ⟨hsym, hdt⟩
    exact ⟨symbol, SymbolTable.symbol_eq_ok.mpr hsym, by rw [hdt]⟩

/-- What is published of a callee has been declared with it, or is known of it. -/
theorem forall_published {P : Overload → Prop} {callee : SymbolId} {symbol : Symbol} {data : MethodData}
    (hsd : context.table.Sound) (hce : context.callee callee = .ok (symbol, data))
    (hdeclared : ∀ overload, context.table.AdmitsOverload overload → P overload)
    (hknown : ∀ {known}, context.registry.get? callee = some known → ∀ overload ∈ known.overloads, P overload) :
    ∀ overload ∈ (context.published callee data).overloads, P overload := by
  intro overload hov
  obtain ⟨hsym, hdt⟩ := callee_eq_ok.mp hce
  unfold published at hov
  split at hov
  · next hblt =>
    exact hdeclared overload ((hsd.admits (SymbolTable.symbol?_eq_some hsym).2).builtins data hdt hblt overload hov)
  · cases hkn : context.registry.get? callee with
    | none =>
      rw [hkn] at hov
      nomatch hov
    | some known =>
      rw [hkn] at hov
      exact hknown hkn overload hov

/-! ## The rules of a plan -/

theorem mem_typeVars_of_mem_evaluated (h : id ∈ context.evaluated body) : id ∈ body.typeVars := by
  unfold evaluated at h
  split at h
  · nomatch h
  · exact h

theorem evaluated_eq_typeVars (context : SolveContext) (body : Body) (hps : context.limits.passes ≠ 0) :
    context.evaluated body = body.typeVars :=
  if_neg hps

/-- A rule is a call for a variable whose constraint is one and whose type is not given otherwise. -/
structure IsCall (context : SolveContext) (body : Body) (id : TypeVarId) (call : CallRule) (var : TypeVar)
    (callee : SymbolId) (arguments : List TypeVarId) (data : MethodData) : Prop where
  found : context.flow.typeVar? id = some var
  notGiven : var.fixed = none
  notParameter : var.parameterIndex = none
  constraint : ∃ site, var.constraint = .call callee arguments site
  resolved : ∃ symbol, context.callee callee = .ok (symbol, data)
  overloads : call.overloads = (context.published callee data).overloads
  final : call.final = (context.published callee data).final
  position : call.position = var.position
  operands : List.Forall₂ (fun argument (operand : Operand) => operand.id = argument ∧
    context.flow.trace (traceBound body) argument = .ok operand.origin) arguments call.operands

theorem rule_of_call {var : TypeVar} {callee : SymbolId} {arguments : List TypeVarId} {site : Nat}
    (hvar : context.flow.typeVar? id = some var) (hfx : var.fixed = none) (hix : var.parameterIndex = none)
    (hcon : var.constraint = .call callee arguments site) (h : context.rule body id = .ok rule) :
    ∃ call data, rule = .call call ∧ IsCall context body id call var callee arguments data := by
  unfold SolveContext.rule at h
  obtain ⟨var', hvar', h⟩ := bind_eq_ok.mp h
  rw [find_eq_ok, hvar] at hvar'
  cases hvar'
  simp only [hfx, hix, hcon, callRule] at h
  obtain ⟨⟨symbol, data⟩, hce, h⟩ := bind_eq_ok.mp h
  obtain ⟨operands, hoperands, h⟩ := bind_eq_ok.mp h
  cases h
  refine ⟨_, data, rfl, hvar, hfx, hix, ⟨site, hcon⟩, ⟨symbol, hce⟩, rfl, rfl, rfl, ?_⟩
  refine (mapM_eq_ok.mp hoperands).imp fun argument operand h => ?_
  obtain ⟨origin, horg, h⟩ := bind_eq_ok.mp h
  cases h
  exact ⟨rfl, horg⟩

/-- The rule that a variable has: its type is given, it is a parameter, or its constraint says where its type comes from. -/
inductive IsRule (context : SolveContext) (body : Body) (id : TypeVarId) (var : TypeVar) : Rule → Prop
  | given {type : SymbolId} (hfx : var.fixed = some type) : IsRule context body id var (.given (context.lattice.unionOf type))
  | kept {index : Nat} (hfx : var.fixed = none) (hix : var.parameterIndex = some index) : IsRule context body id var .kept
  | join {sources : List TypeVarId} (hfx : var.fixed = none) (hix : var.parameterIndex = none)
      (hcon : var.constraint = .join sources) : IsRule context body id var (.join sources)
  | copy {source : TypeVarId} (hfx : var.fixed = none) (hix : var.parameterIndex = none)
      (hcon : var.constraint = .copy source) : IsRule context body id var (.copy source)
  | call {call : CallRule} {callee : SymbolId} {arguments : List TypeVarId} {data : MethodData}
      (hcl : IsCall context body id call var callee arguments data) : IsRule context body id var (.call call)

theorem exists_isRule (h : context.rule body id = .ok rule) :
    ∃ var, context.flow.typeVar? id = some var ∧ IsRule context body id var rule := by
  have hrl := h
  unfold SolveContext.rule at h
  obtain ⟨var, hvar, h⟩ := bind_eq_ok.mp h
  rw [find_eq_ok] at hvar
  refine ⟨var, hvar, ?_⟩
  split at h
  · next hfx =>
    cases h
    exact .given hfx
  · next hfx hix =>
    cases h
    exact .kept hfx hix
  · next hfx hix =>
    split at h
    · next hcon =>
      cases h
      exact .join hfx hix hcon
    · next hcon =>
      cases h
      exact .copy hfx hix hcon
    · next hcon =>
      obtain ⟨call, data, rfl, hcl⟩ := rule_of_call hvar hfx hix hcon hrl
      exact .call hcl

theorem rule_eq_call {call : CallRule} (h : context.rule body id = .ok (.call call)) :
    ∃ var callee arguments data, IsCall context body id call var callee arguments data := by
  obtain ⟨var, _, hrl⟩ := exists_isRule h
  cases hrl with
  | call hcl => exact ⟨var, _, _, _, hcl⟩

theorem rule_of_fixed {var : TypeVar} {type : SymbolId} (hvar : context.flow.typeVar? id = some var)
    (hfx : var.fixed = some type) : context.rule body id = .ok (.given (context.lattice.unionOf type)) := by
  rw [rule, find_eq_ok.mpr hvar]
  dsimp only [bind, Except.bind]
  rw [hfx]

theorem rule_of_parameter {var : TypeVar} {index : Nat} (hvar : context.flow.typeVar? id = some var)
    (hix : var.parameterIndex = some index) (hfx : var.fixed = none) (h : context.rule body id = .ok rule) :
    rule = .kept := by
  unfold SolveContext.rule at h
  obtain ⟨var', hvar', h⟩ := bind_eq_ok.mp h
  rw [find_eq_ok, hvar] at hvar'
  cases hvar'
  rw [hfx, hix] at h
  exact (Except.ok.inj h).symm

theorem plan_eq_ok (h : context.plan body = .ok plan) :
    plan.body = body.id ∧ plan.returns = body.returns ∧
      List.Forall₂ (fun id parameter => context.planParameter id = .ok parameter) body.parameters plan.parameters ∧
      List.Forall₂ (fun id entry => entry.1 = id ∧ context.rule body id = .ok entry.2) (context.evaluated body)
        plan.rules := by
  unfold SolveContext.plan at h
  obtain ⟨parameters, hpars, h⟩ := bind_eq_ok.mp h
  obtain ⟨rules, hrls, h⟩ := bind_eq_ok.mp h
  cases h
  refine ⟨rfl, rfl, mapM_eq_ok.mp hpars, (mapM_eq_ok.mp hrls).imp fun id entry h => ?_⟩
  obtain ⟨rule, hrl, h⟩ := bind_eq_ok.mp h
  cases h
  exact ⟨rfl, hrl⟩

theorem mem_rules (h : context.plan body = .ok plan) (hmem : (id, rule) ∈ plan.rules) :
    id ∈ context.evaluated body ∧ context.rule body id = .ok rule := by
  obtain ⟨_, _, _, hrls⟩ := plan_eq_ok h
  obtain ⟨id', hid, rfl, hrl⟩ := exists_left_of_forall₂ hrls hmem
  exact ⟨hid, hrl⟩

theorem exists_mem_rules (h : context.plan body = .ok plan) (hmem : id ∈ context.evaluated body) :
    ∃ rule, (id, rule) ∈ plan.rules ∧ context.rule body id = .ok rule := by
  obtain ⟨_, _, _, hrls⟩ := plan_eq_ok h
  obtain ⟨⟨id', rule⟩, he, rfl, hrl⟩ := exists_right_of_forall₂ hrls hmem
  exact ⟨rule, he, hrl⟩

theorem reached_eq_self {ids : List TypeVarId} (h : ∀ id ∈ ids, ∃ rule, context.rule body id = .ok rule) :
    context.reached body ids = ids := by
  induction ids with
  | nil => rfl
  | cons id rest ih =>
    obtain ⟨rule, hrl⟩ := h id List.mem_cons_self
    rw [reached, hrl]
    exact congrArg (id :: ·) (ih fun other hoth => h other (List.mem_cons_of_mem _ hoth))

theorem plan_keepsForkable (h : context.plan body = .ok plan) : plan.KeepsForkable := by
  intro origin hmem rule hrl
  unfold Plan.forkable at hmem
  rw [List.mem_eraseDups, List.mem_flatMap] at hmem
  obtain ⟨⟨id, callRule⟩, hcl, horg⟩ := hmem
  dsimp only at horg
  split at horg
  · next call =>
    obtain ⟨operand, hopd, horg⟩ := List.mem_filterMap.mp horg
    obtain ⟨⟨found, index⟩, hf, rfl⟩ := Option.map_eq_some_iff.mp horg
    obtain ⟨_, _, _, _, hcl⟩ := rule_eq_call (mem_rules h hcl).2
    obtain ⟨argument, _, _, htrace⟩ := exists_left_of_forall₂ hcl.operands hopd
    rw [hf] at htrace
    obtain ⟨var, hvar, hix, hfx⟩ := trace_eq_some htrace
    exact rule_of_parameter hvar hix hfx (mem_rules h hrl).2
  · simp at horg

/-! ## Outcomes -/

/-- What an outcome is made of. -/
structure IsOutcome (context : SolveContext) (body : Body) (plan : Plan) (outcome : Outcome) : Prop where
  planned : context.plan body = .ok plan
  body : outcome.body = body.id
  bindings : outcome.bindings = (plan.solve context.lattice context.limits).1.map (·.binding)
  pending : outcome.pending = (plan.solve context.lattice context.limits).1.any (·.pending)
  issues : ∃ position, outcome.issues = context.issuesOf position (plan.solve context.lattice context.limits).1
    (plan.solve context.lattice context.limits).2

theorem outcome_eq_ok (h : context.outcome body = .ok outcome) : ∃ plan, IsOutcome context body plan outcome := by
  unfold SolveContext.outcome at h
  obtain ⟨plan, hpl, h⟩ := bind_eq_ok.mp h
  obtain ⟨position, _, h⟩ := bind_eq_ok.mp h
  cases hbdy : body.id with
  | global =>
    simp only [hbdy] at h
    cases h
    exact ⟨plan, hpl, hbdy.symm, rfl, rfl, position, rfl⟩
  | function id =>
    simp only [hbdy] at h
    obtain ⟨modifiers, _, h⟩ := bind_eq_ok.mp h
    cases h
    exact ⟨plan, hpl, hbdy.symm, rfl, rfl, position, rfl⟩

/-- The overloads of an outcome are made of runs that hold. -/
theorem exists_run_of_mem_overloads (h : context.outcome body = .ok outcome) (hpl : context.plan body = .ok plan)
    {overload : Overload} (hov : overload ∈ outcome.overloads ∨ overload ∈ outcome.finalOverloads) :
    ∃ function modifiers, ∃ run ∈ (plan.solve context.lattice context.limits).1,
      overload = plan.overload context.lattice function modifiers run.binding := by
  have hmem : ∀ {items : List Overload}, overload ∈ items.foldl includeOnce [] → overload ∈ items := by
    intro items hov
    suffices h : ∀ known, overload ∈ items.foldl includeOnce known → overload ∈ known ∨ overload ∈ items from
      (h [] hov).resolve_left List.not_mem_nil
    clear hov
    induction items with
    | nil => exact fun _ h => .inl h
    | cons item rest ih =>
      intro known hov
      rcases ih _ hov with hov | hov
      · rcases mem_includeOnce hov with hov | rfl
        · exact .inl hov
        · exact .inr List.mem_cons_self
      · exact .inr (List.mem_cons_of_mem _ hov)
  unfold SolveContext.outcome at h
  obtain ⟨plan', hpl', h⟩ := bind_eq_ok.mp h
  cases hpl.symm.trans hpl'
  obtain ⟨position, _, h⟩ := bind_eq_ok.mp h
  cases hbdy : body.id with
  | global =>
    simp only [hbdy] at h
    cases h
    rcases hov with hov | hov <;> nomatch hov
  | function id =>
    simp only [hbdy] at h
    obtain ⟨modifiers, _, h⟩ := bind_eq_ok.mp h
    cases h
    refine ⟨id, modifiers, ?_⟩
    rcases hov with hov | hov
    · obtain ⟨binding, hbdg, rfl⟩ := List.mem_map.mp (hmem hov)
      obtain ⟨run, hrun, rfl⟩ := List.mem_map.mp (List.mem_filter.mp hbdg).1
      exact ⟨run, hrun, rfl⟩
    · obtain ⟨binding, hbdg, rfl⟩ := List.mem_map.mp (hmem hov)
      obtain ⟨run, hrun, rfl⟩ := List.mem_map.mp hbdg
      exact ⟨run, hrun, rfl⟩

theorem pending_eq_true (hps : context.limits.passes ≠ 0) (h : IsOutcome context body plan outcome) :
    outcome.pending = true ↔ ∃ id call, (id, Rule.call call) ∈ plan.rules ∧ call.final = false := by
  rw [h.pending, List.any_eq_true]
  constructor
  · rintro ⟨run, hrun, hpen⟩
    rw [Plan.pending_of_mem_solve hps hrun, List.any_eq_true] at hpen
    obtain ⟨⟨id, rule⟩, hrl, hwaits⟩ := hpen
    cases rule with
    | call call => exact ⟨id, call, hrl, by simpa [Rule.waits] using hwaits⟩
    | _ => simp [Rule.waits] at hwaits
  · rintro ⟨id, call, hcl, hfin⟩
    obtain ⟨run, hrun⟩ := List.exists_mem_of_ne_nil _ (Plan.solve_ne_nil (plan_keepsForkable h.planned))
    refine ⟨run, hrun, ?_⟩
    rw [Plan.pending_of_mem_solve hps hrun, List.any_eq_true]
    exact ⟨(id, .call call), hcl, by simpa [Rule.waits] using hfin⟩

end SolveContext

/-! ## What solving a body takes from the registry -/

namespace Problem

variable {problem : Problem} {registry first second : Registry} {body : BodyId} {callee : SymbolId} {outcome : Outcome}

/-- Two registries hold the same of all functions that a body calls. -/
def Agree (problem : Problem) (body : BodyId) (first second : Registry) : Prop :=
  ∀ callee, problem.Calls body callee → first.get? callee = second.get? callee

theorem published_of_not_builtin {data : MethodData} (h : data.isBuiltin = false) :
    (problem.withRegistry registry).published callee data = (registry.get? callee).getD {} := by
  unfold published
  rw [h]
  rfl

theorem not_isFinal_iff : ¬ registry.IsFinal callee ↔ ((registry.get? callee).getD {}).final = false := by
  unfold Registry.IsFinal
  cases h : registry.get? callee <;> simp

theorem rule_congr (h : problem.Agree body first second) {id : TypeVarId}
    (hid : id ∈ (problem.flow.body body).typeVars) :
    (problem.withRegistry first).rule (problem.flow.body body) id =
      (problem.withRegistry second).rule (problem.flow.body body) id := by
  unfold rule
  change problem.flow.find id >>= _ = problem.flow.find id >>= _
  cases hvar : problem.flow.find id with
  | error fault => rfl
  | ok var =>
    simp only [bind, Except.bind]
    split
    · rfl
    · rfl
    · next hfx hix =>
      split
      · rfl
      · rfl
      · next callee arguments site hcon =>
        unfold callRule
        change (problem.withRegistry first).callee callee >>= _ = (problem.withRegistry first).callee callee >>= _
        cases hce : (problem.withRegistry first).callee callee with
        | error fault => rfl
        | ok found =>
          obtain ⟨symbol, data⟩ := found
          have hpub : (problem.withRegistry first).published callee data =
              (problem.withRegistry second).published callee data := by
            cases hblt : data.isBuiltin with
            | true => simp [published, hblt]
            | false =>
              obtain ⟨hsym, hdt⟩ := callee_eq_ok.mp hce
              rw [published_of_not_builtin hblt, published_of_not_builtin hblt, h callee
                ⟨⟨symbol, data, hsym, hdt, hblt⟩, id, hid, var, arguments, site, find_eq_ok.mp hvar,
                  hfx, hix, hcon⟩]
          simp only [bind, Except.bind, hpub]
          rfl

/-- Solving a body gives the same against two registries that agree on the functions it calls. -/
theorem outcome_congr (h : problem.Agree body first second) :
    (problem.withRegistry first).outcome (problem.flow.body body) =
      (problem.withRegistry second).outcome (problem.flow.body body) := by
  unfold outcome plan
  have hrls : ((problem.withRegistry first).evaluated (problem.flow.body body)).mapM
        (fun id => do Except.ok (id, ← (problem.withRegistry first).rule (problem.flow.body body) id)) =
      ((problem.withRegistry second).evaluated (problem.flow.body body)).mapM
        (fun id => do Except.ok (id, ← (problem.withRegistry second).rule (problem.flow.body body) id)) := by
    refine mapM_congr fun id hid => ?_
    rw [rule_congr h (mem_typeVars_of_mem_evaluated hid)]
  rw [hrls]
  rfl

/-- When passes are made, an outcome waits exactly if the body calls a function that is not final. -/
theorem pending_outcome_iff (hps : problem.limits.passes ≠ 0)
    (h : (problem.withRegistry registry).outcome (problem.flow.body body) = .ok outcome) :
    outcome.pending = true ↔ ∃ callee, problem.Calls body callee ∧ ¬ registry.IsFinal callee := by
  obtain ⟨plan, hpl⟩ := outcome_eq_ok h
  rw [pending_eq_true hps hpl]
  constructor
  · rintro ⟨id, call, hcl, hfin⟩
    obtain ⟨hid, hrl⟩ := mem_rules hpl.planned hcl
    obtain ⟨var, callee, arguments, data, hcl⟩ := rule_eq_call hrl
    obtain ⟨symbol, hres⟩ := hcl.resolved
    obtain ⟨hsym, hdt⟩ := callee_eq_ok.mp hres
    obtain ⟨site, hcon⟩ := hcl.constraint
    rw [hcl.final] at hfin
    have hblt : data.isBuiltin = false := by
      by_contra hblt
      rw [Bool.not_eq_false] at hblt
      simp [published, hblt] at hfin
    rw [published_of_not_builtin hblt] at hfin
    exact ⟨callee, ⟨⟨symbol, data, hsym, hdt, hblt⟩, id, mem_typeVars_of_mem_evaluated hid, var,
      arguments, site, hcl.found, hcl.notGiven, hcl.notParameter, hcon⟩, not_isFinal_iff.mpr hfin⟩
  · rintro ⟨callee, ⟨⟨symbol, data, hsym, hdt, hblt⟩, id, hid, var, arguments, site, hvar, hfx, hix,
      hcon⟩, hfin⟩
    rw [← evaluated_eq_typeVars (problem.withRegistry registry) _ hps] at hid
    obtain ⟨rule, hmem, hrl⟩ := exists_mem_rules hpl.planned hid
    obtain ⟨call, data', rfl, hcl⟩ := rule_of_call hvar hfx hix hcon hrl
    refine ⟨id, call, hmem, ?_⟩
    obtain ⟨symbol', hres⟩ := hcl.resolved
    rw [callee_eq_ok.mpr ⟨hsym, hdt⟩] at hres
    cases hres
    rw [hcl.final, published_of_not_builtin hblt]
    exact not_isFinal_iff.mp hfin

/-- When passes are made, a body that is solved registers every call of a function that is not final. -/
theorem mem_waits (hps : problem.limits.passes ≠ 0)
    (h : (problem.withRegistry registry).outcome (problem.flow.body body) = .ok outcome)
    (hcs : problem.Calls body callee) (hfin : ¬ registry.IsFinal callee) :
    ∃ site, (callee, site) ∈ (problem.withRegistry registry).waits (problem.flow.body body) := by
  obtain ⟨⟨symbol, data, hsym, hdt, hblt⟩, id, hid, var, arguments, site, hvar, hfx, hix, hcon⟩ :=
    hcs
  obtain ⟨plan, hpl⟩ := outcome_eq_ok h
  obtain ⟨_, _, hpars, hrls⟩ := plan_eq_ok hpl.planned
  refine ⟨site, ?_⟩
  unfold waits
  rw [mapM_eq_ok.mpr hpars, reached_eq_self fun id hid => ?_,
    evaluated_eq_typeVars _ _ hps]
  · refine List.mem_filterMap.mpr ⟨id, hid, ?_⟩
    have hce : (problem.withRegistry registry).callee callee = .ok (symbol, data) :=
      callee_eq_ok.mpr ⟨hsym, hdt⟩
    have hvar : (problem.withRegistry registry).flow.typeVar? id = some var := hvar
    unfold wait?
    simp only [hvar, hfx, hix, hcon, hce, published_of_not_builtin hblt,
      not_isFinal_iff.mp hfin, Bool.false_eq_true, if_false]
  · obtain ⟨rule, _, hrl⟩ := exists_mem_rules hpl.planned hid
    exact ⟨rule, hrl⟩

end Problem

end SoftTyping
