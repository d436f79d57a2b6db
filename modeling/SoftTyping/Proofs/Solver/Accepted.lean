import SoftTyping.Proofs.Solver.Kept
import SoftTyping.Proofs.Solver.Settled

/-!
# The conversions that a run has recorded

A pass that changes no bounds decides every call under the bounds that stay. So a run that has come to its end has recorded
of every call that an overload gave its result whether this overload converts an argument, and of nothing but calls
(`conversions_of_mem_solve`). A call that is decided otherwise is not struck from the record: one that converted an argument
before it failed stays recorded (`conversions_not_withdrawn`).
-/

namespace SoftTyping

namespace Run

variable {lattice : Lattice} {tolerant : Bool} {run run' : Run} {id : TypeVarId} {rule : Rule} {call : CallRule}
  {rules : List (TypeVarId × Rule)} {changed changed' : Bool}

/-- A run has the bounds of a call as it was decided, and has recorded whether the overload that was chosen converts. -/
def Accounts (lattice : Lattice) (tolerant : Bool) (run : Run) (id : TypeVarId) : Judgement → Prop
  | .chosen result converting => (run.binding.bounds.get? id == some (.ofFound result)) = true ∧
      (id ∈ run.binding.convertibleCalls ↔ converting = true)
  | .erroneous => (run.binding.bounds.get? id == some (.ofFound lattice.erroneousUnion)) = true
  | .undecided => (run.binding.bounds.get? id == some {}) = true
  | .refused _ => run.failures ≠ [] ∧
      (run.binding.bounds.get? id == some (if tolerant then .ofFound lattice.erroneousUnion else {})) = true
  | .fork _ => False

/-- What a call asks for when it is decided is all that accounts for it. -/
theorem accounts_of_demand {judgement : Judgement} (call : CallRule) (hfk : judgement.fork? = none)
    (hbds : ∀ bounds, (judgement.demand lattice tolerant call).bounds = some bounds →
      (run.binding.bounds.get? id == some bounds) = true)
    (hcv : ∀ converting, (judgement.demand lattice tolerant call).converts = some converting →
      (id ∈ run.binding.convertibleCalls ↔ converting = true))
    (hfailures : (judgement.demand lattice tolerant call).failures ⊆ run.failures) :
    run.Accounts lattice tolerant id judgement := by
  cases judgement with
  | chosen result converting => exact ⟨hbds _ rfl, hcv _ rfl⟩
  | erroneous => exact hbds _ rfl
  | undecided => exact hbds _ rfl
  | refused arguments => exact ⟨List.ne_nil_of_mem (hfailures List.mem_cons_self), hbds _ rfl⟩
  | fork fork => nomatch hfk

theorem failures_subset_applyAll (h : applyAll lattice tolerant rules run changed = .finished run' changed') :
    run.failures ⊆ run'.failures := by
  induction rules generalizing run changed with
  | nil =>
    cases h
    exact List.Subset.refl _
  | cons entry rest ih =>
    obtain ⟨id, rule⟩ := entry
    have hrs := ih (applyAll_cons_eq_finished h).2
    rw [failures_meet] at hrs
    exact List.Subset.trans (List.subset_append_left _ _) hrs

/-- Rules that change no bounds leave every call among them decided under these bounds. -/
theorem exists_accounts_of_unchanged (huq : ∀ {id rule rule'}, (id, rule) ∈ rules → (id, rule') ∈ rules → rule = rule')
    (h : applyAll lattice tolerant rules run changed = .finished run' false) (hcl : (id, Rule.call call) ∈ rules) :
    ∃ conversions, run'.Accounts lattice tolerant id (run'.judgeWith lattice conversions call) := by
  induction rules generalizing run changed with
  | nil => nomatch hcl
  | cons entry rest ih =>
    have hrls : ∀ {id rule rule'}, (id, rule) ∈ rest → (id, rule') ∈ rest → rule = rule' := fun hfst hsnd =>
      huq (List.mem_cons_of_mem _ hfst) (List.mem_cons_of_mem _ hsnd)
    obtain ⟨first, rule⟩ := entry
    obtain ⟨hfk, hrs⟩ := applyAll_cons_eq_finished h
    -- Of several rules for one variable the last one counts, and all of them are the same call.
    by_cases hlater : id ∈ rest.map Prod.fst
    · obtain ⟨⟨_, rule'⟩, hmem, rfl⟩ := List.mem_map.mp hlater
      obtain rfl : Rule.call call = rule' := huq hcl (List.mem_cons_of_mem _ hmem)
      exact ih hrls hrs hmem
    · have he : (id, Rule.call call) = (first, rule) :=
        (List.mem_cons.mp hcl).resolve_right fun hmem => hlater (List.mem_map_of_mem hmem)
      cases he
      obtain ⟨hmeet, hbds⟩ := meet_unchanged (Bool.or_eq_false_iff.mp (changed_applyAll hrs)).2
      have hsm : run'.binding.bounds = run.binding.bounds := (bounds_of_unchanged h).1
      have hjd : run'.judgeWith lattice run.binding.convertibleApplications call = run.judge lattice call :=
        judgeWith_of_bounds_eq hsm _
      refine ⟨run.binding.convertibleApplications, accounts_of_demand call ?_ ?_ ?_ ?_⟩
      · rw [hjd]
        exact hfk
      · rw [hjd, hsm]
        exact hbds
      · rw [hjd]
        intro converting hcv
        have hasked : (run.demand lattice tolerant (.call call)).converts = some converting := hcv
        rw [mem_convertibleCalls_applyAll hlater hrs, convertibleCalls_meet, record, hasked, Option.elim_some,
          mem_recordCall, if_pos rfl]
      · rw [hjd]
        have hnoted := failures_subset_applyAll hrs
        rw [failures_meet] at hnoted
        exact List.Subset.trans (List.subset_append_right _ _) hnoted

theorem IsFixpoint.accounts (h : run.IsFixpoint lattice tolerant rules) (hcl : (id, Rule.call call) ∈ rules) :
    run.Accounts lattice tolerant id (run.judge lattice call) := by
  have hmet := h.met _ hcl
  refine accounts_of_demand call hmet.fork hmet.bounds hmet.converts fun failure hfailure => ?_
  rw [h.failures]
  exact List.mem_flatMap.mpr ⟨_, hcl, hfailure⟩

end Run

/-! ## All runs of a body -/

/-- What a binding has recorded: each call once, and only calls of the body that have converted an argument in some run. -/
structure Binding.Records (plan : Plan) (lattice : Lattice) (binding : Binding) : Prop where
  nodup : binding.convertibleCalls.Nodup
  converted : ∀ id ∈ binding.convertibleCalls, ∃ call, (id, Rule.call call) ∈ plan.rules ∧
    ∃ (run : Run) (result : Union), run.judge lattice call = .chosen result true

namespace Binding.Records

variable {plan : Plan} {lattice : Lattice} {binding binding' : Binding} {id : TypeVarId}

theorem congr (h : binding.Records plan lattice) (hcs : binding'.convertibleCalls = binding.convertibleCalls) :
    binding'.Records plan lattice :=
  ⟨hcs ▸ h.nodup, fun id hid => h.converted id (hcs ▸ hid)⟩

theorem recordCall {converting : Bool} (h : binding.Records plan lattice)
    (hid : converting = true → ∃ call, (id, Rule.call call) ∈ plan.rules ∧
      ∃ (run : Run) (result : Union), run.judge lattice call = .chosen result true) :
    (binding.recordCall id converting).Records plan lattice := by
  constructor
  · unfold Binding.recordCall
    cases converting with
    | false => exact h.nodup.filter _
    | true =>
      by_cases hmem : id ∈ binding.convertibleCalls
      · simpa [hmem] using h.nodup
      · simpa [hmem] using List.nodup_append.mpr
          ⟨h.nodup, List.nodup_singleton id, fun other hoth _ heq => by
            rintro rfl
            exact hmem (List.mem_singleton.mp heq ▸ hoth)⟩
  · intro other hoth
    rw [Run.mem_recordCall] at hoth
    split at hoth
    case isTrue heq => exact heq ▸ hid hoth
    case isFalse => exact h.converted other hoth

theorem invariant (plan : Plan) (lattice : Lattice) : plan.Invariant lattice (Binding.Records plan lattice) where
  start := ⟨List.nodup_nil, nofun⟩
  apply {run id rule} tolerant hrl hrun := by
    rw [Run.apply_eq]
    cases Run.fork? lattice run rule with
    | some fork => exact hrun
    | none =>
      refine congr ?_ (Run.convertibleCalls_meet run id rule _)
      unfold Run.record
      cases hcv : (run.demand lattice tolerant rule).converts with
      | none => exact hrun
      | some converting =>
        refine hrun.recordCall fun htrue => ?_
        subst htrue
        obtain ⟨call, result, rfl, hjd⟩ := Run.converts_demandWith_eq_some hcv
        exact ⟨call, hrl, run, result, hjd⟩
  close hrun := hrun.congr (Plan.convertibleCalls_close plan lattice _)
  fork {run fork candidate} _ _ hrun := by
    refine hrun.congr ?_
    simp only [Run.bindParameter]
    split
    · unfold Binding.recordParameter
      split <;> rfl
    · rfl

end Binding.Records

namespace SolveContext

variable {context : SolveContext} {entry : Body} {plan : Plan} {run : Run}

/-- Every call of a run that ends within the limit on passes is decided under its bounds, and where an overload gives the
call its result, the run has recorded it exactly if this overload converts an argument. Nothing else is recorded but calls
that have converted one before. How many conversions count for these decisions is what the run itself has recorded, where
the constraints of the body are as they are made. -/
theorem conversions_of_mem_solve (hplan : context.plan entry = .ok plan)
    (hrun : run ∈ (plan.solve context.lattice context.limits).1) (hcapped : run.capped = false) :
    run.binding.Records plan context.lattice ∧
      ∃ tolerant, ∀ id call, (id, Rule.call call) ∈ plan.rules →
        ∃ conversions, run.Accounts context.lattice tolerant id (run.judgeWith context.lattice conversions call) ∧
          (plan.Regular → context.lattice.KeepsTypes → conversions = run.binding.convertibleApplications) := by
  obtain ⟨tolerant, hends⟩ := Plan.ends_of_mem_solve hrun
  refine ⟨(Binding.Records.invariant plan context.lattice).ends hends, tolerant, fun id call hcall => ?_⟩
  obtain ⟨start, changed, hstart, hsettle⟩ := hends
  by_cases hregular : plan.Regular ∧ context.lattice.KeepsTypes
  · obtain ⟨hblank, hready⟩ := hstart.ready hregular.1 hregular.2
    have hfixpoint := Plan.isFixpoint_settle hregular.1 hregular.2 hblank hready hsettle hcapped
    exact ⟨run.binding.convertibleApplications, hfixpoint.accounts hcall, fun _ _ => rfl⟩
  · obtain ⟨last, hlast⟩ := Plan.exists_last_pass hsettle hcapped
    have hunique : ∀ {id rule rule'}, (id, rule) ∈ plan.rules → (id, rule') ∈ plan.rules → rule = rule' :=
      fun hfirst hsecond => Except.ok.inj ((mem_rules hplan hfirst).2.symm.trans (mem_rules hplan hsecond).2)
    obtain ⟨conversions, haccounts⟩ := Run.exists_accounts_of_unchanged hunique hlast hcall
    exact ⟨conversions, haccounts, fun hplanned hlattice => absurd ⟨hplanned, hlattice⟩ hregular⟩

end SolveContext

namespace Workspace

/-- What is echoed can be converted when the loop is entered, and not when it is entered again. -/
def echoingProgram : List SourceTree :=
  [.node .assign "" ⟨1, 1⟩ [.node .variableRef "$a" ⟨1, 2⟩ [], .node (.literal .int) "1" ⟨1, 3⟩ []],
    .node .whileStmt "" ⟨2, 1⟩ [.node (.literal .bool) "true" ⟨2, 2⟩ [], .node .block "" ⟨2, 3⟩ [
      .node .echoStmt "" ⟨3, 1⟩ [.node .variableRef "$a" ⟨3, 2⟩ []],
      .node .assign "" ⟨4, 1⟩ [.node .variableRef "$a" ⟨4, 2⟩ [], .node (.literal .array) "[]" ⟨4, 3⟩ []]]]]

def echoingStart : Workspace where
  tree := .ofProgram echoingProgram
  table := (SymbolTable.withLibraries 0 [Library.standardTypes ++ Library.standardConversions ++
    [.method .operator echoName ["\x7bas string\x7d -> null"]]]).toOption.getD default
  flow := .empty
  issues := {}

def echoingTyped : Workspace :=
  left (typeAll (left (referAll ⟨Resolver.standard, true⟩ (left (declareAll echoingStart)))))

def echoingContext : SolveContext := (echoingTyped.problem {}).withRegistry ∅

/-- The plan of the statements outside of functions. -/
def echoingPlan : Plan := (echoingContext.plan (echoingTyped.flow.body .global)).toOption.getD ⟨.global, [], none, []⟩

theorem plan_echoing : echoingContext.plan (echoingTyped.flow.body .global) = .ok echoingPlan :=
  Refusal.eq_ok_getD _ (by decide +kernel)

/-- Whether a rule is that of a call that a run refuses. -/
def refusesBy (run : Run) : Rule → Bool
  | .call call => (run.judge echoingContext.lattice call matches .refused _)
  | _ => false

/-- A run of the echoing program that ends within the limit, with a call that is refused and yet recorded as converting. -/
theorem exists_run_echoing : ∃ run ∈ (echoingPlan.solve echoingContext.lattice echoingContext.limits).1,
    run.capped = false ∧ ∃ call, (⟨5⟩, Rule.call call) ∈ echoingPlan.rules ∧
      (∃ arguments, run.judge echoingContext.lattice call = .refused arguments) ∧
      (⟨5⟩ : TypeVarId) ∈ run.binding.convertibleCalls := by
  have hruns : ((echoingPlan.solve echoingContext.lattice echoingContext.limits).1.any fun run =>
      !run.capped && run.binding.convertibleCalls.contains ⟨5⟩ && echoingPlan.rules.any fun entry =>
        entry.1 == ⟨5⟩ && refusesBy run entry.2) = true := by decide +kernel
  obtain ⟨run, hrun, hruns⟩ := List.any_eq_true.mp hruns
  simp only [Bool.and_eq_true, Bool.not_eq_true', List.contains_eq_mem, decide_eq_true_eq] at hruns
  obtain ⟨⟨hcap, hrcd⟩, hrls⟩ := hruns
  obtain ⟨⟨id, rule⟩, hmem, hrl⟩ := List.any_eq_true.mp hrls
  obtain ⟨hid, hrl⟩ := Bool.and_eq_true_iff.mp hrl
  obtain rfl : id = ⟨5⟩ := eq_of_beq hid
  cases rule with
  | call call =>
    rw [refusesBy] at hrl
    cases hjd : run.judge echoingContext.lattice call with
    | refused arguments => exact ⟨run, hrun, hcap, call, hmem, ⟨arguments, hjd⟩, hrcd⟩
    | _ => rw [hjd] at hrl; cases hrl
  | _ => cases hrl

/-- All calls of the echoing program are accounted for, the one that is refused as well. -/
theorem conversions_of_mem_solve_echoing :
    ∃ run ∈ (echoingPlan.solve echoingContext.lattice echoingContext.limits).1, run.capped = false ∧
      run.binding.Records echoingPlan echoingContext.lattice ∧
      ∃ tolerant call conversions, (⟨5⟩, Rule.call call) ∈ echoingPlan.rules ∧
        run.Accounts echoingContext.lattice tolerant ⟨5⟩ (run.judgeWith echoingContext.lattice conversions call) := by
  obtain ⟨run, hrun, hcapped, call, hcall, _⟩ := exists_run_echoing
  obtain ⟨hrecords, tolerant, haccounts⟩ := SolveContext.conversions_of_mem_solve plan_echoing hrun hcapped
  obtain ⟨conversions, haccount, _⟩ := haccounts ⟨5⟩ call hcall
  exact ⟨run, hrun, hcapped, hrecords, tolerant, call, conversions, hcall, haccount⟩

/-- What is recorded is not what the run performs: a call that converted an argument before it failed stays recorded. -/
theorem conversions_not_withdrawn : ¬ ∀ (context : SolveContext) (entry : Body) (plan : Plan) (run : Run),
    context.plan entry = .ok plan → run ∈ (plan.solve context.lattice context.limits).1 → run.capped = false →
      ∀ id ∈ run.binding.convertibleCalls, ∃ call, (id, Rule.call call) ∈ plan.rules ∧
        ∃ result, run.judge context.lattice call = .chosen result true := by
  intro h
  obtain ⟨run, hrun, hcapped, call, hcall, ⟨arguments, hrefused⟩, hrecorded⟩ := exists_run_echoing
  obtain ⟨call', hcall', result, hchosen⟩ := h _ _ _ run plan_echoing hrun hcapped _ hrecorded
  have hsame := (SolveContext.mem_rules plan_echoing hcall).2.symm.trans (SolveContext.mem_rules plan_echoing hcall').2
  cases hsame
  rw [hrefused] at hchosen
  nomatch hchosen

end Workspace

end SoftTyping
