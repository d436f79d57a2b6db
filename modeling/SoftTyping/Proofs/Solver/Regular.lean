import SoftTyping.Proofs.Solver.Calls
import SoftTyping.Proofs.Solver.Stable

/-!
# The plans of a generated flow

The constraints of a body that the analysis has made are planned as runs need them to come to fixpoints: the rules stand in
the order of their variables, arguments come before their call, and a parameter to which an argument is traced back is
merely copied by some variable (`plan_regular`).
-/

namespace SoftTyping

open Refusal Flow

/-- What an overload takes and gives has a type. -/
structure Overload.IsTyped (overload : Overload) : Prop where
  parameters : ∀ parameter ∈ overload.parameters, parameter.bound.isEmpty = false
  result : overload.result.isEmpty = false

/-- What is published of all functions takes and gives types. -/
def Registry.IsTyped (registry : Registry) : Prop :=
  ∀ ⦃id known⦄, registry.get? id = some known → ∀ overload ∈ known.overloads, overload.IsTyped

namespace Flow

variable {flow : Flow} {table : SymbolTable} {id origin source : TypeVarId} {index : Nat} {var : TypeVar}

theorem constraint_of_copied? (h : copied? var = some source) :
    var.constraint = .copy source ∨ var.constraint = .join [source] := by
  unfold copied? at h
  split at h
  · next hcon =>
    cases h
    exact .inl hcon
  · next hcon =>
    cases h
    exact .inr hcon
  · nomatch h

theorem mem_sources_of_copied? (h : copied? var = some source) : source ∈ var.constraint.sources := by
  rcases constraint_of_copied? h with hcon | hcon
  all_goals
    rw [hcon]
    exact List.mem_singleton_self _

theorem origin_of_trace {steps : Nat} (h : flow.trace steps id = .ok (some (origin, index)))
    (hvar : flow.typeVar? id = some var) (hpar : var.parameterIndex.isSome = true) : origin = id := by
  obtain ⟨place, hplc⟩ := Option.isSome_iff_exists.mp hpar
  cases steps with
  | zero => nomatch h
  | succ steps =>
    simp only [trace, bind_eq_ok, find_eq_ok] at h
    obtain ⟨found, hf, h⟩ := h
    cases hvar.symm.trans hf
    simp only [hplc, Except.ok.injEq] at h
    split at h
    · nomatch h
    · cases h
      rfl

/-- A value that is traced back to a parameter leads there through a variable that copies the parameter itself. -/
theorem exists_copy_of_trace (hgd : flow.Generated table) {steps : Nat}
    (h : flow.trace steps id = .ok (some (origin, index))) (hvar : flow.typeVar? id = some var)
    (hix : var.parameterIndex = none) :
    ∃ copy other, flow.typeVar? copy = some other ∧ other.body = var.body ∧ other.parameterIndex = none ∧
      copied? other = some origin := by
  induction steps generalizing id var with
  | zero => nomatch h
  | succ steps ih =>
    simp only [trace, bind_eq_ok, find_eq_ok] at h
    obtain ⟨found, hf, h⟩ := h
    cases hvar.symm.trans hf
    rw [hix] at h
    cases hcop : copied? var with
    | none =>
      rw [hcop] at h
      nomatch h
    | some source =>
      rw [hcop] at h
      obtain ⟨next, hnx, hbdy, _⟩ := (hgd.closed hvar).sources source (mem_sources_of_copied? hcop)
      cases hpar : next.parameterIndex with
      | none =>
        obtain ⟨copy, other, hcopy, hbdy', hoth⟩ := ih h hnx hpar
        exact ⟨copy, other, hcopy, hbdy'.trans hbdy, hoth⟩
      | some place =>
        have horg := origin_of_trace h hnx (by rw [hpar]; rfl)
        exact ⟨id, var, hvar, rfl, hix, horg ▸ hcop⟩

end Flow

namespace SolveContext

variable {context : SolveContext} {body : BodyId} {plan : Plan} {id : TypeVarId} {rule : Rule} {entry : Body} {var : TypeVar}

/-- The rule of a variable whose type is not given is that of its constraint. -/
theorem rule_of_constraint (hvar : context.flow.typeVar? id = some var)
    (hfx : var.fixed = none) (hix : var.parameterIndex = none) :
    context.rule entry id = match var.constraint with
      | .join sources => .ok (.join sources)
      | .copy source => .ok (.copy source)
      | .call callee arguments _ => context.callRule entry var callee arguments := by
  rw [SolveContext.rule, find_eq_ok.mpr hvar]
  dsimp only [bind, Except.bind]
  rewrite [hfx, hix]
  rfl

theorem copied?_of_rule {source : TypeVarId} (hvar : context.flow.typeVar? id = some var)
    (hfx : var.fixed = none) (hix : var.parameterIndex = none) (hcop : copied? var = some source)
    (h : context.rule entry id = .ok rule) : rule.copied? = some source := by
  rw [rule_of_constraint hvar hfx hix] at h
  rcases constraint_of_copied? hcop with hcon | hcon
  all_goals
    rw [hcon] at h
    cases h
    rfl

theorem rule_of_isParameter (hvar : context.flow.typeVar? id = some var)
    (hix : var.parameterIndex.isSome = true) (h : context.rule entry id = .ok rule) :
    rule.copied? = none ∧ ∀ call, rule ≠ .call call := by
  obtain ⟨found, hf, hrl⟩ := exists_isRule h
  cases hvar.symm.trans hf
  cases hrl with
  | given | kept => exact ⟨rfl, nofun⟩
  | join _ hfe | copy _ hfe =>
    rw [hfe] at hix
    nomatch hix
  | call hcl =>
    rw [hcl.notParameter] at hix
    nomatch hix

/-- What is published of a callee takes types. -/
theorem isTyped_published (hsd : context.table.Sound) (hreg : context.registry.IsTyped) {callee : SymbolId}
    {symbol : Symbol} {data : MethodData} (hce : context.callee callee = .ok (symbol, data)) :
    ∀ overload ∈ (context.published callee data).overloads, ∀ type ∈ overload.parameters, type.bound.isEmpty = false := by
  refine forall_published hsd hce (fun overload hadm type htp => ?_) fun hkn overload hov => (hreg hkn overload hov).parameters
  obtain ⟨name, id, hbo⟩ := (hadm.bounds type htp).1
  rw [hbo]
  rfl

theorem map_fst_rules (hpl : context.plan entry = .ok plan) : plan.rules.map Prod.fst = context.evaluated entry := by
  obtain ⟨_, _, _, hrls⟩ := plan_eq_ok hpl
  generalize context.evaluated entry = ids, plan.rules = rules at hrls ⊢
  induction hrls with
  | nil => rfl
  | cons he _ ih => rw [List.map_cons, he.1, ih]

variable (hgd : context.flow.Generated context.table) (hpl : context.plan (context.flow.body body) = .ok plan)
  {operand : Operand} {call : CallRule}

include hgd hpl

theorem knows_of_mem_rules (hmem : (id, rule) ∈ plan.rules) :
    context.flow.Knows body id ∧ context.rule (context.flow.body body) id = .ok rule := by
  obtain ⟨hevaluated, hrl⟩ := mem_rules hpl hmem
  exact ⟨hgd.mem_typeVars.mp (mem_typeVars_of_mem_evaluated hevaluated), hrl⟩

theorem exists_rule_of_knows {other : TypeVarId} (hmem : (id, rule) ∈ plan.rules) (hoth : context.flow.Knows body other) :
    ∃ rule', (other, rule') ∈ plan.rules ∧ context.rule (context.flow.body body) other = .ok rule' := by
  have hps : context.limits.passes ≠ 0 := by
    intro hzero
    have hevaluated := (mem_rules hpl hmem).1
    rw [evaluated, if_pos hzero] at hevaluated
    nomatch hevaluated
  refine exists_mem_rules hpl ?_
  rw [evaluated_eq_typeVars _ _ hps]
  exact hgd.mem_typeVars.mpr hoth

theorem knowsValue_of_operand (hmem : (id, Rule.call call) ∈ plan.rules) (hopd : operand ∈ call.operands) :
    operand.id.index < id.index ∧ context.flow.KnowsValue body operand.id ∧
      context.flow.trace (traceBound (context.flow.body body)) operand.id = .ok operand.origin := by
  obtain ⟨⟨var, hvar, hbdy⟩, hrl⟩ := knows_of_mem_rules hgd hpl hmem
  obtain ⟨var', callee, arguments, data, hcl⟩ := rule_eq_call hrl
  cases hvar.symm.trans hcl.found
  obtain ⟨site, hcon⟩ := hcl.constraint
  obtain ⟨argument, harg, hid, htrace⟩ := exists_left_of_forall₂ hcl.operands hopd
  have harguments := (hgd.closed hvar).arguments argument (by rw [hcon]; exact harg)
  rw [hid]
  exact ⟨harguments.1, hbdy ▸ harguments.2, htrace⟩

/-- The parameter to which an argument is traced back is one of the body, and some variable of the body copies it. -/
theorem exists_copy_of_operand (hmem : (id, Rule.call call) ∈ plan.rules)
    (hopd : operand ∈ call.operands) {origin : TypeVarId × Nat} (horg : operand.origin = some origin) :
    ∃ copy other found, context.flow.typeVar? copy = some other ∧ other.body = body ∧ other.parameterIndex = none ∧
      copied? other = some origin.1 ∧ context.flow.typeVar? origin.1 = some found ∧ found.body = body ∧
      found.parameterIndex.isSome = true := by
  obtain ⟨_, ⟨var, hvar, hbdy, hix⟩, htrace⟩ := knowsValue_of_operand hgd hpl hmem hopd
  rw [horg] at htrace
  obtain ⟨copy, other, hcopy, hbdy', hix', hcop⟩ := exists_copy_of_trace hgd htrace hvar hix
  obtain ⟨source, hsrc, hins, _⟩ := (hgd.closed hcopy).sources origin.1 (mem_sources_of_copied? hcop)
  obtain ⟨found, hf, hplc, _⟩ := trace_eq_some htrace
  cases hf.symm.trans hsrc
  refine ⟨copy, other, _, hcopy, hbdy'.trans hbdy, hix', hcop, hf, hins.trans (hbdy'.trans hbdy), ?_⟩
  rw [hplc]
  rfl

theorem isParameter_of_mem_parameters {parameter : PlanParameter} (hpar : parameter ∈ plan.parameters) :
    ∃ var, context.flow.typeVar? parameter.id = some var ∧ var.body = body ∧ var.parameterIndex.isSome = true := by
  obtain ⟨_, _, hpars, _⟩ := plan_eq_ok hpl
  obtain ⟨id, hid, hpld⟩ := exists_left_of_forall₂ hpars hpar
  simp only [planParameter, bind_eq_ok] at hpld
  obtain ⟨_, _, hpld⟩ := hpld
  cases hpld
  exact hgd.parameters hid

theorem ordered_rules : Run.Ordered plan.rules where
  increasing := by
    rw [← List.pairwise_map (f := Prod.fst) (R := fun first second : TypeVarId => first.index < second.index),
      map_fst_rules hpl, evaluated]
    split
    · exact .nil
    · exact hgd.increasing body
  operands := fun hmem operand hopd => (knowsValue_of_operand hgd hpl hmem hopd).1
  origins := by
    intro id call hmem operand hopd origin horg rule hrl
    obtain ⟨_, _, htrace⟩ := knowsValue_of_operand hgd hpl hmem hopd
    rw [horg] at htrace
    obtain ⟨var, hvar, hix, hfx⟩ := trace_eq_some htrace
    exact rule_of_parameter hvar hix hfx (knows_of_mem_rules hgd hpl hrl).2

theorem plan_regular (hsd : context.table.Sound) (hreg : context.registry.IsTyped) : plan.Regular where
  ordered := ordered_rules hgd hpl
  parameters := by
    intro parameter hpar rule hrl
    obtain ⟨var, hvar, _, hix⟩ := isParameter_of_mem_parameters hgd hpl hpar
    exact rule_of_isParameter hvar hix (knows_of_mem_rules hgd hpl hrl).2
  operands := by
    intro id call hmem operand hopd parameter hpar heq
    obtain ⟨var, hvar, _, hix⟩ := isParameter_of_mem_parameters hgd hpl hpar
    obtain ⟨_, ⟨other, hoth, _, hno⟩, _⟩ := knowsValue_of_operand hgd hpl hmem hopd
    cases hvar.symm.trans (heq ▸ hoth)
    rw [hno] at hix
    nomatch hix
  copies := by
    intro id call hmem operand hopd origin horg
    obtain ⟨copy, other, found, hcopy, hbdy, hix, hcop, hf, _, hplc⟩ :=
      exists_copy_of_operand hgd hpl hmem hopd horg
    obtain ⟨rule, hrl, hpld⟩ := exists_rule_of_knows hgd hpl hmem ⟨other, hcopy, hbdy⟩
    obtain ⟨source, hsrc, _, hpar⟩ := (hgd.closed hcopy).sources origin.1 (mem_sources_of_copied? hcop)
    cases hsrc.symm.trans hf
    exact ⟨copy, rule, hrl, copied?_of_rule hcopy (hpar hplc) hix hcop hpld⟩
  types := by
    intro id call hmem overload hov
    obtain ⟨_, hrl⟩ := knows_of_mem_rules hgd hpl hmem
    obtain ⟨var, callee, arguments, data, hcl⟩ := rule_eq_call hrl
    obtain ⟨symbol, hce⟩ := hcl.resolved
    rw [hcl.overloads] at hov
    exact isTyped_published hsd hreg hce overload hov

end SolveContext

end SoftTyping
