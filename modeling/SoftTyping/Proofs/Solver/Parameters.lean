import SoftTyping.Proofs.Solver.Kept
import SoftTyping.Proofs.Solver.Regular

/-!
# The declared parameters of a body

A parameter that is declared with a type has it in every run: rules give it no other, and calls neither fork on it nor take
it to be convertible (`Ends.respects`).
-/

namespace SoftTyping

/-- The parameters that are declared with a type have it, and none of them is convertible. -/
def Binding.Respects (plan : Plan) (binding : Binding) : Prop :=
  ∀ ⦃index parameter union⦄, plan.parameters[index]? = some parameter → parameter.declared = some union →
    binding.boundsOf parameter.id = .ofGiven union ∧ index ∉ binding.convertibleParameters

theorem Run.mem_convertibleParameters_bindParameter {run : Run} {id : TypeVarId} {place index : Nat}
    {parameter : ParameterType} (h : index ∈ (run.bindParameter id place parameter).binding.convertibleParameters) :
    index = place ∨ index ∈ run.binding.convertibleParameters := by
  have hrecord : index ∈ (run.binding.recordParameter place).convertibleParameters →
      index = place ∨ index ∈ run.binding.convertibleParameters := by
    unfold Binding.recordParameter
    split
    · exact .inr
    · simp only [List.mem_append, List.mem_singleton]
      exact Or.symm
  simp only [Run.bindParameter] at h
  split at h
  · exact hrecord h
  · exact .inr h

namespace Plan

variable {plan : Plan} {lattice : Lattice} {limits : Limits} {tolerant : Bool} {run : Run}

/-- What a plan says of the parameters that are declared with a type. -/
structure RespectsDeclared (plan : Plan) : Prop where
  /-- One type variable has one declared type. -/
  unique : ∀ parameter ∈ plan.parameters, ∀ other ∈ plan.parameters, other.id = parameter.id →
    other.declared = parameter.declared
  given : ∀ parameter ∈ plan.parameters, ∀ union, parameter.declared = some union →
    ∀ rule, (parameter.id, rule) ∈ plan.rules → rule = .given union
  /-- Calls fork on other parameters only. -/
  forks : ∀ {id call operand origin place}, (id, Rule.call call) ∈ plan.rules → operand ∈ call.operands →
    operand.origin = some (origin, place) → ∀ {index parameter union}, plan.parameters[index]? = some parameter →
      parameter.declared = some union → origin ≠ parameter.id ∧ place ≠ index

theorem isSome_get?_start {parameter : PlanParameter} (hpar : parameter ∈ plan.parameters) {union : Union}
    (hdec : parameter.declared = some union) : (plan.start.binding.bounds.get? parameter.id).isSome = true := by
  change (OrderedMap.get? (plan.parameters.foldl _ ∅) parameter.id).isSome = true
  have hso : ((∅ : OrderedMap TypeVarId Bounds).get? parameter.id).isSome = true ∨ parameter ∈ plan.parameters :=
    .inr hpar
  generalize (∅ : OrderedMap TypeVarId Bounds) = start at hso ⊢
  generalize plan.parameters = parameters at hso ⊢
  induction parameters generalizing start with
  | nil => exact hso.resolve_right List.not_mem_nil
  | cons first rest ih =>
    refine ih _ ?_
    rcases hso with h | h
    · left
      dsimp only
      split
      · rw [OrderedMap.get?_insert]
        split
        · rfl
        · exact h
      · exact h
    · rcases List.mem_cons.mp h with rfl | h
      · left
        dsimp only
        rw [hdec]
        simp only [OrderedMap.get?_insert, if_true, Option.isSome_some]
      · exact .inr h

theorem convertibleParameters_close (plan : Plan) (lattice : Lattice) (run : Run) :
    (plan.close lattice run).binding.convertibleParameters = run.binding.convertibleParameters :=
  close_keeps (fun r => r.binding.convertibleParameters = run.binding.convertibleParameters) (fun _ _ _ hr => hr) rfl

theorem respects_close (hrun : run.binding.Respects plan) : (plan.close lattice run).binding.Respects plan := by
  intro index parameter union hpar hdec
  obtain ⟨hbds, hix⟩ := hrun hpar hdec
  refine ⟨?_, by rwa [convertibleParameters_close]⟩
  rw [boundsOf_close, if_neg, hbds]
  rintro ⟨other, hoth, hid⟩
  have hop := (List.mem_filter.mp hoth).2
  rw [Run.isFixed, hid, hbds] at hop
  cases hop

namespace RespectsDeclared

variable (h : plan.RespectsDeclared)

include h

theorem start : plan.start.binding.Respects plan := by
  intro index parameter union hpar hdec
  have hmem := List.mem_of_getElem? hpar
  obtain ⟨bounds, hbds⟩ := Option.isSome_iff_exists.mp (isSome_get?_start hmem hdec)
  obtain ⟨other, hoth, hid, union', hun', rfl⟩ := get?_start hbds
  obtain rfl : union' = union := by
    have hsm := h.unique parameter hmem other hoth hid
    exact Option.some.inj (hun'.symm.trans (hsm.trans hdec))
  exact ⟨by rw [Binding.boundsOf, hbds]; rfl, List.not_mem_nil⟩

theorem apply {id : TypeVarId} {rule : Rule} (hrl : (id, rule) ∈ plan.rules) (hrun : run.binding.Respects plan) :
    (run.apply lattice tolerant id rule).run.binding.Respects plan := by
  intro index parameter union hpar hdec
  obtain ⟨hbds, hix⟩ := hrun hpar hdec
  refine ⟨?_, by rwa [(Run.apply_frame ..).2.2]⟩
  by_cases hid : parameter.id = id
  · subst hid
    rw [h.given parameter (List.mem_of_getElem? hpar) union hdec rule hrl]
    change (run.set parameter.id (.ofGiven union)).1.binding.boundsOf parameter.id = _
    unfold Run.set
    split
    · exact hbds
    · simp [Binding.boundsOf, OrderedMap.get?_insert]
  · rw [Binding.boundsOf, Run.get?_apply_of_ne hid]
    exact hbds

theorem fork {fork : Fork} {candidate : ParameterType} (hfk : Run.Forks plan.rules run fork)
    (hrun : run.binding.Respects plan) : (run.bindParameter fork.parameter fork.index candidate).binding.Respects plan := by
  intro index parameter union hpar hdec
  obtain ⟨hbds, hix⟩ := hrun hpar hdec
  obtain ⟨⟨id, call, hcl, ⟨operand, hopd, horg⟩, _⟩, _, _⟩ := hfk
  obtain ⟨hid, hplc⟩ := h.forks hcl hopd horg hpar hdec
  constructor
  · rw [Binding.boundsOf, Run.get?_bindParameter, if_neg hid]
    exact hbds
  · exact fun hmem => (Run.mem_convertibleParameters_bindParameter hmem).elim (fun heq => hplc heq.symm) hix

theorem invariant (lattice : Lattice) : plan.Invariant lattice (Binding.Respects plan) where
  start := h.start
  apply _ hrl hrun := h.apply hrl hrun
  close := respects_close
  fork hfk _ hrun := h.fork hfk hrun

end RespectsDeclared

/-- Every run to which a body comes respects the declared types of its parameters. -/
theorem Ends.respects (h : plan.RespectsDeclared) (hens : plan.Ends lattice limits tolerant run) :
    run.binding.Respects plan := (h.invariant lattice).ends hens

end Plan

namespace SolveContext

variable {context : SolveContext} {body : BodyId} {plan : Plan}

theorem planParameter_eq_ok {id : TypeVarId} {parameter : PlanParameter} (h : context.planParameter id = .ok parameter) :
    parameter.id = id ∧ ∃ var, context.flow.typeVar? id = some var ∧
      parameter.declared = var.fixed.map context.lattice.unionOf := by
  simp only [planParameter, Refusal.bind_eq_ok, Flow.find_eq_ok] at h
  obtain ⟨var, hvar, h⟩ := h
  cases h
  exact ⟨rfl, var, hvar, rfl⟩

/-- A parameter of a plan stands at the place of its type variable. -/
theorem getElem?_parameters {entry : Body} (hpl : context.plan entry = .ok plan) {index : Nat} {parameter : PlanParameter}
    (h : plan.parameters[index]? = some parameter) :
    entry.parameters[index]? = some parameter.id ∧ ∃ var, context.flow.typeVar? parameter.id = some var ∧
      parameter.declared = var.fixed.map context.lattice.unionOf := by
  obtain ⟨_, _, hpars, _⟩ := plan_eq_ok hpl
  obtain ⟨hlt, hget⟩ := List.getElem?_eq_some_iff.mp h
  have hlen := hpars.length_eq
  have hpld := hpars.get (by omega) hlt
  rw [List.get_eq_getElem, List.get_eq_getElem, hget] at hpld
  obtain ⟨hid, hvar⟩ := planParameter_eq_ok hpld
  rw [hid]
  exact ⟨List.getElem?_eq_getElem _, hvar⟩

/-- The plan of a body respects the declared types of its parameters if its calls do not fork on them. -/
theorem plan_respectsDeclared_of_forks {entry : Body} (hpl : context.plan entry = .ok plan)
    (hforks : ∀ {id call operand origin place}, (id, Rule.call call) ∈ plan.rules → operand ∈ call.operands →
      operand.origin = some (origin, place) → ∀ {index parameter union}, plan.parameters[index]? = some parameter →
        parameter.declared = some union → origin ≠ parameter.id ∧ place ≠ index) : plan.RespectsDeclared where
  unique parameter hpar other hoth hid := by
    obtain ⟨_, hget⟩ := List.getElem?_of_mem hpar
    obtain ⟨_, hget'⟩ := List.getElem?_of_mem hoth
    obtain ⟨_, var, hvar, hdec⟩ := getElem?_parameters hpl hget
    obtain ⟨_, var', hvar', hdec'⟩ := getElem?_parameters hpl hget'
    rw [hid] at hvar'
    cases hvar.symm.trans hvar'
    rw [hdec, hdec']
  given parameter hpar union hun rule hrl := by
    obtain ⟨_, hget⟩ := List.getElem?_of_mem hpar
    obtain ⟨_, var, hvar, hdec⟩ := getElem?_parameters hpl hget
    obtain ⟨type, htp, rfl⟩ := Option.map_eq_some_iff.mp (hdec.symm.trans hun)
    have hmade := (mem_rules hpl hrl).2
    rw [rule_of_fixed hvar htp] at hmade
    exact (Except.ok.inj hmade).symm
  forks := hforks

/-- The plan of a body whose parameters are numbered as they are listed. -/
theorem plan_respectsDeclared (hgd : context.flow.Generated context.table)
    (hpl : context.plan (context.flow.body body) = .ok plan)
    (hnumbered : ∀ {id var index}, context.flow.typeVar? id = some var → var.body = body → var.parameterIndex = some index →
      (context.flow.body body).parameters[index]? = some id) : plan.RespectsDeclared := by
  refine plan_respectsDeclared_of_forks hpl
    fun {id call operand origin place} hcl hopd horg {index parameter union} hpar hun => ?_
  obtain ⟨hpcd, var, hvar, hdec⟩ := getElem?_parameters hpl hpar
  obtain ⟨_, _, _, _, _, _, _, hf', hbdy, _⟩ := exists_copy_of_operand hgd hpl hcl hopd horg
  obtain ⟨_, _, htrace⟩ := knowsValue_of_operand hgd hpl hcl hopd
  rw [horg] at htrace
  obtain ⟨found, hf, hplc, hfe⟩ := Flow.trace_eq_some htrace
  cases hf.symm.trans hf'
  have hne : origin ≠ parameter.id := by
    rintro rfl
    cases hvar.symm.trans hf
    rw [hfe] at hdec
    nomatch hdec.symm.trans hun
  refine ⟨hne, ?_⟩
  rintro rfl
  have hlsd := hnumbered hf hbdy hplc
  exact hne (Option.some.inj (hlsd.symm.trans hpcd))

end SolveContext

end SoftTyping
