import SoftTyping.Proofs.Analysis.Analysed
import SoftTyping.Proofs.Solver.Regular

/-!
# Runs that have settled

When a run of a body comes to its end within the limit on passes, its bounds solve all constraints of the body: a join is
the normal union of its sources, a copy has the bounds of its source, and a call has what one of the overloads that fit its
arguments gives, or there is a reason why it has not (`Answered`). Main statement: so it is for every body of every program
that has been analysed, and one more pass leaves the run as it is (`settled_run`).
-/

namespace SoftTyping

/-- The problem that a program poses when its constraints have been made. -/
def Workspace.problem (w : Workspace) (limits : Limits) : Problem :=
  { table := w.table, flow := w.flow, lattice := .ofTable w.table, limits }

namespace Run

variable {lattice : Lattice} {tolerant : Bool} {run : Run} {id : TypeVarId} {call : CallRule}

/-! ## Why a call has its type -/

/-- The types of a variable as far as they are known. -/
def lower (run : Run) (id : TypeVarId) : Union := (run.binding.boundsOf id).lower

/-- An overload takes arguments that have the types they have in a run. -/
def Takes (lattice : Lattice) (run : Run) (overload : Overload) (arguments : List TypeVarId) : Prop :=
  (lattice.argumentsFit? (arguments.map fun argument => .typed (run.lower argument)) overload.parameters).isSome = true

/-- No overload takes the arguments of a call, none will, and the run reports it. -/
structure Fails (lattice : Lattice) (run : Run) (position : Position) (published : Published)
    (arguments : List TypeVarId) : Prop where
  final : published.final = true
  untaken : ∀ overload ∈ published.overloads, ¬ run.Takes lattice overload arguments
  reported : ∃ failure ∈ run.failures, failure.position = position

/-- Why the types of a call are what they are, given what is published of its callee. -/
inductive Answered (lattice : Lattice) (tolerant : Bool) (run : Run) (id : TypeVarId) (position : Position)
    (published : Published) (arguments : List TypeVarId) : Prop where
  /-- An argument is erroneous, and so is the call. -/
  | erroneous : (∃ argument ∈ arguments, (run.lower argument).containsSymbol lattice.erroneous = true) →
      (run.lower id == lattice.erroneousUnion) = true → Answered lattice tolerant run id position published arguments
  /-- The call has failed, which a tolerant run goes over. -/
  | tolerated : tolerant = true → run.Fails lattice position published arguments →
      (run.lower id == lattice.erroneousUnion) = true → Answered lattice tolerant run id position published arguments
  /-- The call has failed. -/
  | failed : tolerant = false → run.Fails lattice position published arguments → (run.lower id).isEmpty = true →
      Answered lattice tolerant run id position published arguments
  /-- Nothing is known of an argument, or what is known of the callee may still change. -/
  | unresolved : (published.final = false ∨ ∃ argument ∈ arguments, (run.lower argument).isEmpty = true) →
      (run.lower id).isEmpty = true → Answered lattice tolerant run id position published arguments
  /-- One of the overloads that take the arguments gives the call its type. -/
  | applied (overload : Overload) : overload ∈ published.overloads → run.Takes lattice overload arguments →
      (run.lower id == lattice.normalize overload.result) = true →
      Answered lattice tolerant run id position published arguments

/-- The bounds of a variable solve a constraint. -/
def Solves (context : SolveContext) (tolerant : Bool) (run : Run) (id : TypeVarId) (position : Position) : Constraint → Prop
  | .join sources => (run.binding.bounds.get? id == some (run.joinBounds context.lattice sources)) = true
  | .copy source => (run.binding.bounds.get? id == some (run.copyBounds source)) = true
  | .call callee arguments _ => ∃ symbol data, context.callee callee = .ok (symbol, data) ∧
      run.Answered context.lattice tolerant id position (context.published callee data) arguments

/-! ## Calls whose arguments have types -/

theorem lower_of_get? {bounds : Bounds} (h : (run.binding.bounds.get? id == some bounds) = true) :
    (run.lower id == bounds.lower) = true := by
  unfold lower Binding.boundsOf
  cases hget : run.binding.bounds.get? id with
  | none =>
    rw [hget] at h
    nomatch h
  | some found =>
    rw [hget] at h
    exact Bounds.lower_of_beq h

/-- A judgement on a call has its reason. -/
def Justified (lattice : Lattice) (run : Run) (published : Published) (arguments : List TypeVarId) : Judgement → Prop
  | .erroneous => ∃ argument ∈ arguments, (run.lower argument).containsSymbol lattice.erroneous = true
  | .undecided => published.final = false ∨ ∃ argument ∈ arguments, (run.lower argument).isEmpty = true
  | .refused _ => published.final = true ∧ ∀ overload ∈ published.overloads, ¬ run.Takes lattice overload arguments
  | .chosen result _ => ∃ overload ∈ published.overloads, run.Takes lattice overload arguments ∧
      result = lattice.normalize overload.result
  | .fork _ => False

theorem justified_hopeless {overloads : List Overload} {final : Bool} {lowers : List Union} {arguments : List TypeVarId}
    (h : ∀ overload ∈ overloads, ¬ run.Takes lattice overload arguments) :
    Justified lattice run ⟨overloads, final⟩ arguments (if final then .refused lowers else .undecided) := by
  cases final with
  | false => exact .inl rfl
  | true => exact ⟨rfl, h⟩

section Typed

variable (hty : ∀ operand ∈ call.operands, run.untyped? operand = none)

include hty

theorem map_lowerOf : call.operands.map run.lowerOf = call.operands.map fun operand => run.lower operand.id := by
  refine List.map_congr_left fun operand hopd => ?_
  rw [lowerOf, hty operand hopd]
  rfl

theorem map_argument :
    call.operands.map run.argument = (call.operands.map (·.id)).map fun argument => .typed (run.lower argument) := by
  rw [List.map_map]
  refine List.map_congr_left fun operand hopd => ?_
  rw [argument, hty operand hopd]
  rfl

theorem firstUntyped?_eq_none : run.firstUntyped? call.operands = none := by
  cases h : run.firstUntyped? call.operands with
  | none => rfl
  | some found =>
    obtain ⟨_, operand, hopd, hut⟩ := firstUntyped?_eq_some h
    rw [hty operand hopd] at hut
    nomatch hut

theorem justified_judgeWith (lattice : Lattice) (conversions : Nat) :
    Justified lattice run ⟨call.overloads, call.final⟩ (call.operands.map (·.id))
      (run.judgeWith lattice conversions call) := by
  unfold judgeWith
  rw [map_lowerOf hty, map_argument hty, firstUntyped?_eq_none hty]
  dsimp only
  split
  case isTrue herr =>
    obtain ⟨lower, hlw, hcontains⟩ := List.any_eq_true.mp herr
    obtain ⟨operand, hopd, rfl⟩ := List.mem_map.mp hlw
    exact ⟨operand.id, List.mem_map_of_mem hopd, hcontains⟩
  split
  case isTrue hem =>
    refine justified_hopeless fun overload hov => ?_
    rw [List.isEmpty_iff.mp hem] at hov
    nomatch hov
  split
  case isTrue hunknown =>
    obtain ⟨operand, hopd, hlw⟩ := List.any_eq_true.mp hunknown
    rw [lowerOf, hty operand hopd] at hlw
    exact .inr ⟨operand.id, List.mem_map_of_mem hopd, hlw⟩
  split
  case isTrue hno =>
    refine justified_hopeless fun overload hov => ?_
    rw [Takes, Lattice.candidates_eq_nil.mp (List.isEmpty_iff.mp hno) overload hov]
    exact Bool.false_ne_true
  case isFalse hso =>
    obtain ⟨chosen, hcho⟩ := exists_mostSpecific? conversions (mt List.isEmpty_iff.mpr hso)
    rw [hcho]
    obtain ⟨hget, hfit⟩ := Lattice.mem_candidates.mp (mem_of_mostSpecific? hcho)
    exact ⟨chosen.2.1, List.mem_of_getElem? hget, by rw [Takes, hfit]; rfl, rfl⟩

theorem answered_of_isFixpoint {rules : List (TypeVarId × Rule)} (h : run.IsFixpoint lattice tolerant rules)
    (hmem : (id, Rule.call call) ∈ rules) :
    run.Answered lattice tolerant id call.position ⟨call.overloads, call.final⟩ (call.operands.map (·.id)) := by
  have hju := justified_judgeWith hty lattice run.binding.convertibleApplications
  have hlw : ∀ bounds, ((run.judge lattice call).demand lattice tolerant call).bounds = some bounds →
      (run.lower id == bounds.lower) = true := fun bounds hbds => lower_of_get? ((h.met _ hmem).bounds bounds hbds)
  rw [← judge_eq_judgeWith] at hju
  cases hjudged : run.judge lattice call with
  | chosen result converting =>
    rw [hjudged] at hju hlw
    obtain ⟨overload, hov, htk, rfl⟩ := hju
    exact .applied overload hov htk (hlw _ rfl)
  | erroneous =>
    rw [hjudged] at hju hlw
    exact .erroneous hju (hlw _ rfl)
  | undecided =>
    rw [hjudged] at hju hlw
    exact .unresolved hju (Union.isEmpty_of_beq (hlw _ rfl))
  | refused arguments =>
    have hfails : run.Fails lattice call.position ⟨call.overloads, call.final⟩ (call.operands.map (·.id)) := by
      rw [hjudged] at hju
      refine ⟨hju.1, hju.2, ⟨⟨call.position, call.kind, call.name, arguments⟩, ?_, rfl⟩⟩
      rw [h.failures]
      refine List.mem_flatMap.mpr ⟨_, hmem, ?_⟩
      rw [demand, demandWith, ← judge_eq_judgeWith, hjudged]
      exact List.mem_singleton.mpr rfl
    rw [hjudged] at hlw
    cases tolerant with
    | true => exact .tolerated rfl hfails (hlw _ rfl)
    | false => exact .failed rfl hfails (Union.isEmpty_of_beq (hlw _ rfl))
  | fork fork =>
    rw [hjudged] at hju
    exact hju.elim

end Typed

end Run

namespace Plan

variable {plan : Plan} {lattice : Lattice} {tolerant : Bool} {run run' : Run} {parameter : PlanParameter}

theorem isFixed_of_settle (h : plan.settle lattice limit tolerant run = .finished run' changed)
    (hpar : parameter ∈ plan.parameters) (hkt : plan.Keeps parameter.id) : run'.isFixed parameter.id = true := by
  have hcld : ∀ r, (∀ other ∈ plan.openParameters r, other.id ≠ parameter.id) → r.isFixed parameter.id = true := by
    intro r hop
    by_contra hfx
    exact hop parameter (mem_openParameters.mpr ⟨hpar, Bool.eq_false_iff.mpr hfx⟩) rfl
  unfold settle at h
  split at h
  case h_1 r changed' hps =>
    split at h
    case isTrue hop =>
      cases h
      refine hcld _ fun other hoth => ?_
      rw [List.isEmpty_iff.mp hop] at hoth
      cases hoth
    case isFalse =>
      have hfx : (plan.close lattice r).isFixed parameter.id = true := by
        rw [Run.isFixed, boundsOf_close]
        split
        case isTrue => rfl
        case isFalse hno => exact hcld r fun other hoth heq => hno ⟨other, hoth, heq⟩
      have hget : run'.binding.bounds.get? parameter.id = (plan.close lattice r).binding.bounds.get? parameter.id := by
        have hrun : ((plan.close lattice r).passes lattice tolerant plan.rules limit).run = run' := by
          rw [h]
          rfl
        rw [← hrun]
        exact Run.get?_passes hkt
      rwa [Run.isFixed, Binding.boundsOf, hget]
  case h_2 => cases h

theorem limit_ne_zero_of_settle (h : plan.settle lattice limit tolerant run = .finished run' changed)
    (hcap : run'.capped = false) : limit ≠ 0 := by
  rintro rfl
  obtain ⟨start, _, hst⟩ := settle_cases plan lattice tolerant 0 run (fun _ => True) trivial fun _ => trivial
  rw [hst, Run.passes] at h
  cases h
  cases hcap

end Plan

namespace SolveContext

variable {context : SolveContext} {body : BodyId} {plan : Plan} {tolerant changed : Bool} {start run : Run}
  (hgd : context.flow.Generated context.table) (hlists : context.flow.ListsParameters)
  (hpl : context.plan (context.flow.body body) = .ok plan)

include hgd hlists hpl

theorem untyped?_of_settle (hstl : plan.settle context.lattice limit tolerant start = .finished run changed)
    {id : TypeVarId} {call : CallRule} (hmem : (id, Rule.call call) ∈ plan.rules) :
    ∀ operand ∈ call.operands, run.untyped? operand = none := by
  intro operand hopd
  cases hut : run.untyped? operand with
  | none => rfl
  | some origin =>
    obtain ⟨horg, hop⟩ := Run.untyped?_eq_some.mp hut
    obtain ⟨_, _, found, _, _, _, _, hf, hbdy, hix⟩ := exists_copy_of_operand hgd hpl hmem hopd horg
    obtain ⟨_, _, hpars, _⟩ := plan_eq_ok hpl
    obtain ⟨parameter, hpar, hpld⟩ := Refusal.exists_right_of_forall₂ hpars (hbdy ▸ hlists hf hix)
    have hid : parameter.id = origin.1 := by
      simp only [planParameter, Refusal.bind_eq_ok] at hpld
      obtain ⟨_, _, hpld⟩ := hpld
      cases hpld
      rfl
    have hkt : plan.Keeps parameter.id := by
      rw [hid]
      exact (ordered_rules hgd hpl).origins hmem operand hopd origin horg
    rw [← hid, Plan.isFixed_of_settle hstl hpar hkt] at hop
    cases hop

/-- The bounds of a run that has settled solve the constraints of all variables that are neither given nor parameters. -/
theorem solves_of_isFixpoint (hstl : plan.settle context.lattice context.limits.passes tolerant start = .finished run changed)
    (hcap : run.capped = false) (hfixpoint : run.IsFixpoint context.lattice tolerant plan.rules) {id : TypeVarId}
    (hid : id ∈ (context.flow.body body).typeVars) {var : TypeVar} (hvar : context.flow.typeVar? id = some var)
    (hfx : var.fixed = none) (hix : var.parameterIndex = none) :
    run.Solves context tolerant id var.position var.constraint := by
  have hps := Plan.limit_ne_zero_of_settle hstl hcap
  rw [← evaluated_eq_typeVars context _ hps] at hid
  obtain ⟨rule, hmem, hrl⟩ := exists_mem_rules hpl hid
  have hbds := (hfixpoint.met _ hmem).bounds
  cases hcon : var.constraint with
  | join sources =>
    rw [rule_of_constraint hvar hfx hix, hcon] at hrl
    cases hrl
    exact hbds _ rfl
  | copy source =>
    rw [rule_of_constraint hvar hfx hix, hcon] at hrl
    cases hrl
    exact hbds _ rfl
  | call callee arguments site =>
    obtain ⟨call, data, rfl, hcl⟩ := rule_of_call hvar hfx hix hcon hrl
    obtain ⟨symbol, hce⟩ := hcl.resolved
    have hanswered := Run.answered_of_isFixpoint (untyped?_of_settle hgd hlists hpl hstl hmem) hfixpoint hmem
    rw [hcl.overloads, hcl.final, hcl.position] at hanswered
    have hids : arguments = call.operands.map (·.id) := by
      rw [← List.forall₂_eq_eq_eq, List.forall₂_map_right_iff]
      exact hcl.operands.imp fun _ _ h => h.1.symm
    rw [← hids] at hanswered
    exact ⟨symbol, data, hce, hanswered⟩

end SolveContext

namespace Workspace

variable {rules : NameRules} {w w₁ w₂ w₃ : Workspace} {registry : Registry} {limits : Limits} {body : BodyId} {plan : Plan}
  {tolerant changed : Bool} {start run : Run}

/-- A run of a body of an analysed program that comes to its end within the limit on passes has settled: one more pass over
all variables of the body leaves it as it is, and its bounds solve the constraints of the body. -/
theorem settled_run (hanalysed : Analysed rules w w₁ w₂ w₃) (hregistry : registry.IsTyped)
    (hplan : ((w₃.problem limits).withRegistry registry).plan (w₃.flow.body body) = .ok plan)
    (hstart : plan.Starts (.ofTable w₃.table) limits tolerant start)
    (hsettle : plan.settle (.ofTable w₃.table) limits.passes tolerant start = .finished run changed)
    (hcapped : run.capped = false) :
    plan.rules.map Prod.fst = (w₃.flow.body body).typeVars ∧
      run.pass (.ofTable w₃.table) tolerant plan.rules = .finished run false ∧
      ∀ id ∈ (w₃.flow.body body).typeVars, ∀ var, w₃.flow.typeVar? id = some var → var.fixed = none →
        var.parameterIndex = none →
        run.Solves ((w₃.problem limits).withRegistry registry) tolerant id var.position var.constraint := by
  have htyped := hanalysed.types.typed
  have hlattice := Lattice.keepsTypes_ofTable htyped.sound
  have hregular : plan.Regular := SolveContext.plan_regular htyped.generated hplan htyped.sound hregistry
  obtain ⟨hblank, hready⟩ := hstart.ready hregular hlattice
  have hfixpoint := Plan.isFixpoint_settle hregular hlattice hblank hready hsettle hcapped
  refine ⟨?_, hfixpoint.pass_eq, fun id hid var hvar hfixed hindex => ?_⟩
  · rw [SolveContext.map_fst_rules hplan]
    exact SolveContext.evaluated_eq_typeVars _ _ (Plan.limit_ne_zero_of_settle hsettle hcapped)
  · exact SolveContext.solves_of_isFixpoint htyped.generated hanalysed.listsParameters hplan hsettle hcapped hfixpoint hid
      hvar hfixed hindex

/-- The plan of the function of the looping program. -/
def loopingPlan : Plan :=
  (((loopingTyped.problem {}).withRegistry ∅).plan (loopingTyped.flow.body (.function ⟨0, 11⟩))).toOption.getD
    ⟨.global, [], none, []⟩

theorem settles_looping : (match loopingPlan.settle (.ofTable loopingTyped.table) 64 false loopingPlan.start with
    | .forked run fork => fork.candidates.any fun candidate =>
      match loopingPlan.settle (.ofTable loopingTyped.table) 64 false
        (run.bindParameter fork.parameter fork.index candidate) with
      | .finished run changed => !run.capped && !changed
      | .forked .. => false
    | .finished .. => false) = true := by decide +kernel

/-- The function is first run with its parameter an `int`; the run settles, with all versions of the variable that the loop
changes joined, and the call answered. -/
theorem settled_run_looping : ∃ start run, loopingPlan.Starts (.ofTable loopingTyped.table) {} false start ∧
    loopingPlan.settle (.ofTable loopingTyped.table) 64 false start = .finished run false ∧ run.capped = false ∧
    run.pass (.ofTable loopingTyped.table) false loopingPlan.rules = .finished run false ∧
    run.Solves ((loopingTyped.problem {}).withRegistry ∅) false ⟨8⟩ ⟨4, 1⟩ (.join [⟨3⟩, ⟨15⟩]) ∧
    run.Solves ((loopingTyped.problem {}).withRegistry ∅) false ⟨5⟩ ⟨3, 3⟩ (.call ⟨0, 10⟩ [⟨4⟩] 0) := by
  have hplan : ((loopingTyped.problem {}).withRegistry ∅).plan (loopingTyped.flow.body (.function ⟨0, 11⟩)) =
      .ok loopingPlan := Refusal.eq_ok_getD _ (by decide +kernel)
  have hruns := settles_looping
  split at hruns
  case h_2 => cases hruns
  case h_1 run fork hfork =>
  obtain ⟨candidate, hcandidate, hruns⟩ := List.any_eq_true.mp hruns
  split at hruns
  case h_2 => cases hruns
  case h_1 run' changed hsettle =>
  obtain ⟨hcapped, hchanged⟩ : run'.capped = false ∧ changed = false := by simpa using hruns
  subst hchanged
  have hstart := Plan.Starts.branch (.start : loopingPlan.Starts (.ofTable loopingTyped.table) {} false _) hfork hcandidate
  have hregistry : Registry.IsTyped ∅ := by rintro _ _ ⟨⟩
  obtain ⟨_, hpass, hsolves⟩ := settled_run analysed_looping hregistry hplan hstart hsettle hcapped
  obtain ⟨join, hjoin, hfixed, hindex, hconstraint, hposition⟩ : ∃ var ∈ loopingTyped.flow.typeVar? ⟨8⟩, var.fixed = none ∧
    var.parameterIndex = none ∧ var.constraint = .join [⟨3⟩, ⟨15⟩] ∧ var.position = ⟨4, 1⟩ := by decide +kernel
  obtain ⟨call, hcall, hfixed', hindex', hconstraint', hposition'⟩ : ∃ var ∈ loopingTyped.flow.typeVar? ⟨5⟩,
    var.fixed = none ∧ var.parameterIndex = none ∧ var.constraint = .call ⟨0, 10⟩ [⟨4⟩] 0 ∧ var.position = ⟨3, 3⟩ := by
    decide +kernel
  refine ⟨_, run', hstart, hsettle, hcapped, hpass, ?_, ?_⟩
  · rw [← hconstraint, ← hposition]
    exact hsolves ⟨8⟩ (by decide +kernel) join hjoin hfixed hindex
  · rw [← hconstraint', ← hposition']
    exact hsolves ⟨5⟩ (by decide +kernel) call hcall hfixed' hindex'

end Workspace

end SoftTyping
