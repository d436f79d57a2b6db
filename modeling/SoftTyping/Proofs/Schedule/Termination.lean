import SoftTyping.Proofs.Schedule.Solved
import SoftTyping.Proofs.Solver.Stable

/-!
# The solver ends within its limits

Three loops are bounded here by a number of steps, and none of them is cut short by it. Passes are started again at most
once, since closing the parameters leaves none without a type (`Plan.settleWithin_eq`). The search over forks leaves no
run waiting, so more steps change nothing (`Plan.runs_searchBound_add`). The schedule makes a step for each round and two
more, since functions are released at most once (`Schedule.Reached.proceed_add`). Main statement:
`Solver.solve_terminates`.
-/

namespace SoftTyping

open Step

/-! ## Passes that are started again -/

/-- A rule gives a type variable its type or keeps it. -/
def Rule.GivesOrKeeps (rule : Rule) : Prop := rule = .kept ∨ ∃ union, rule = .given union

namespace Run

variable {lattice : Lattice} {tolerant : Bool} {run : Run} {id other : TypeVarId} {rules : List (TypeVarId × Rule)}

theorem isFixed_set_ofGiven (run : Run) (id : TypeVarId) (union : Union) :
    (run.set id (.ofGiven union)).1.isFixed id = true := by
  cases hsm : run.binding.bounds.get? id == some (Bounds.ofGiven union) with
  | false =>
    rw [set_of_ne hsm]
    simp [isFixed, Binding.boundsOf, Bounds.ofGiven]
  | true =>
    rw [set_of_eq hsm]
    cases hbds : run.binding.bounds.get? id with
    | none =>
      rw [hbds] at hsm
      cases hsm
    | some bounds =>
      rw [hbds, Option.some_beq_some] at hsm
      obtain ⟨lower, upper, fixed⟩ := bounds
      change (lower == union && (upper == union && fixed == true)) = true at hsm
      simp only [Bool.and_eq_true, beq_iff_eq] at hsm
      simp [isFixed, Binding.boundsOf, hbds, hsm.2.2]

theorem isFixed_apply (lattice : Lattice) (tolerant : Bool) (id : TypeVarId) (rule : Rule)
    (hrl : other = id → rule.GivesOrKeeps) (h : run.isFixed other = true) :
    (run.apply lattice tolerant id rule).run.isFixed other = true := by
  by_cases hid : other = id
  · subst hid
    rcases hrl rfl with rfl | ⟨union, rfl⟩
    · exact h
    · exact isFixed_set_ofGiven run other union
  · rw [isFixed, Binding.boundsOf, get?_apply_of_ne hid]
    exact h

theorem isFixed_passes {limit : Nat} (hrls : ∀ rule, (id, rule) ∈ rules → rule.GivesOrKeeps) (h : run.isFixed id = true) :
    (run.passes lattice tolerant rules limit).run.isFixed id = true :=
  passes_keeps (fun r => r.isFixed id = true) (fun hr heq => by rwa [isFixed, heq])
    (fun {_ other rule} hrl hr => isFixed_apply lattice tolerant other rule (fun heq => hrls rule (heq ▸ hrl)) hr) h limit

end Run

namespace Plan

variable {plan : Plan} {lattice : Lattice} {limits : Limits} {tolerant : Bool} {run run' : Run} {limit : Nat}

/-- Passes that are started again, at most `starts` times in all, as long as a parameter without a type is left. -/
def settleWithin (plan : Plan) (lattice : Lattice) (limit : Nat) (tolerant : Bool) :
    (starts : Nat) → Run → Option Progress
  | 0, _ => none
  | starts + 1, run =>
    match run.passes lattice tolerant plan.rules limit with
    | .finished run changed =>
      if (plan.openParameters run).isEmpty then some (.finished run changed)
      else plan.settleWithin lattice limit tolerant starts (plan.close lattice run)
    | .forked run fork => some (.forked run fork)

section

variable (hpars : ∀ parameter ∈ plan.parameters, ∀ rule, (parameter.id, rule) ∈ plan.rules → rule.GivesOrKeeps)

include hpars

theorem openParameters_passes_close {changed : Bool}
    (h : (plan.close lattice run).passes lattice tolerant plan.rules limit = .finished run' changed) :
    plan.openParameters run' = [] := by
  rw [List.eq_nil_iff_forall_not_mem]
  intro parameter hop
  obtain ⟨hmem, hfe⟩ := mem_openParameters.mp hop
  have hcld : (plan.close lattice run).isFixed parameter.id = true := by
    by_cases hfx : run.isFixed parameter.id = true
    · exact isFixed_close hfx
    · have hop : parameter ∈ plan.openParameters run := mem_openParameters.mpr ⟨hmem, by simpa using hfx⟩
      rw [Run.isFixed, boundsOf_close, if_pos ⟨parameter, hop, rfl⟩]
      rfl
  have hfx : ((plan.close lattice run).passes lattice tolerant plan.rules limit).run.isFixed parameter.id = true :=
    Run.isFixed_passes (hpars parameter hmem) hcld
  rw [h, Progress.run, hfe] at hfx
  cases hfx

theorem settleWithin_eq (lattice : Lattice) (limit : Nat) (tolerant : Bool) (starts : Nat) (run : Run) :
    plan.settleWithin lattice limit tolerant (starts + 2) run = some (plan.settle lattice limit tolerant run) := by
  rw [settleWithin, settle]
  cases hfst : run.passes lattice tolerant plan.rules limit with
  | forked run₁ fork => rfl
  | finished run₁ changed =>
    dsimp only
    split
    · rfl
    · rw [settleWithin]
      cases hsnd : (plan.close lattice run₁).passes lattice tolerant plan.rules limit with
      | forked run₂ fork => rfl
      | finished run₂ changed =>
        dsimp only
        rw [openParameters_passes_close hpars hsnd]
        rfl

end

/-! ## The search over forks -/

/-- A search ends by itself: further steps change nothing. -/
theorem runs_searchBound_add (hkp : plan.KeepsForkable) (lattice : Lattice) (limits : Limits) (tolerant : Bool)
    (run : Run) (extra : Nat) :
    Search.runs plan lattice limits tolerant (plan.searchBound limits + extra) { waiting := [run] } =
      plan.search lattice limits tolerant run := by
  rw [Search.runs_add]
  exact Search.runs_of_waiting_nil (waiting_search lattice limits tolerant run hkp) extra

/-! ## Runs without passes -/

theorem settle_of_no_passes (plan : Plan) (lattice : Lattice) (tolerant : Bool) (run : Run) :
    ∃ run', plan.settle lattice 0 tolerant run = .finished run' true ∧ run'.pending = run.pending ∧
      run'.capped = true := by
  have hclose : ∀ run : Run, (plan.close lattice run).pending = run.pending := by
    exact fun run => close_keeps (fun r => r.pending = run.pending) (fun _ _ _ hr => hr) rfl
  rw [settle, Run.passes]
  dsimp only
  split
  · exact ⟨_, rfl, rfl, rfl⟩
  · exact ⟨_, rfl, hclose _, rfl⟩

theorem Starts.pending_of_no_passes (hps : limits.passes = 0) (h : plan.Starts lattice limits tolerant run) :
    run.pending = false := by
  induction h with
  | start => rfl
  | @branch tolerant run _ _ _ _ hforked _ _ =>
    obtain ⟨_, hfinished, _⟩ := settle_of_no_passes plan lattice tolerant run
    rw [hps, hfinished] at hforked
    nomatch hforked
  | @retry run _ _ _ hstl _ ih =>
    obtain ⟨_, hfinished, hpen, _⟩ := settle_of_no_passes plan lattice false run
    rw [hps, hfinished] at hstl
    cases hstl
    exact hpen.trans ih

theorem Ends.pending_of_no_passes (hps : limits.passes = 0) (h : plan.Ends lattice limits tolerant run) :
    run.pending = false := by
  obtain ⟨start, changed, hst, hstl⟩ := h
  obtain ⟨_, hfinished, hpen, _⟩ := settle_of_no_passes plan lattice tolerant start
  rw [hps, hfinished] at hstl
  cases hstl
  exact hpen.trans (hst.pending_of_no_passes hps)

theorem Ends.capped_of_no_passes (hps : limits.passes = 0) (h : plan.Ends lattice limits tolerant run) :
    run.capped = true := by
  obtain ⟨start, changed, _, hstl⟩ := h
  obtain ⟨_, hfinished, _, hcap⟩ := settle_of_no_passes plan lattice tolerant start
  rw [hps, hfinished] at hstl
  cases hstl
  exact hcap

end Plan

namespace SolveContext

variable {context : SolveContext} {body : Body} {plan : Plan}

/-- A parameter that has a place is given its type or kept. -/
theorem givesOrKeeps_of_parameter
    (hindexed : ∀ id ∈ body.parameters, ∀ var, context.flow.typeVar? id = some var → var.parameterIndex.isSome = true)
    (h : context.plan body = .ok plan) :
    ∀ parameter ∈ plan.parameters, ∀ rule, (parameter.id, rule) ∈ plan.rules → rule.GivesOrKeeps := by
  intro parameter hpar rule hrl
  obtain ⟨_, _, hpars, _⟩ := plan_eq_ok h
  obtain ⟨id, hid, hpld⟩ := Refusal.exists_left_of_forall₂ hpars hpar
  obtain ⟨var, hvar, hpld⟩ := Refusal.bind_eq_ok.mp hpld
  cases hpld
  have hix := hindexed id hid var (Flow.find_eq_ok.mp hvar)
  have hrl := (mem_rules h hrl).2
  simp only [SolveContext.rule, Refusal.bind_eq_ok] at hrl
  obtain ⟨var', hvar', hrl⟩ := hrl
  cases hvar.symm.trans hvar'
  split at hrl
  · cases hrl
    exact .inr ⟨_, rfl⟩
  · cases hrl
    exact .inl rfl
  · next hno =>
    rw [hno] at hix
    cases hix

theorem pending_of_no_passes {context : SolveContext} {body : Body} {outcome : Outcome}
    (hps : context.limits.passes = 0) (h : context.outcome body = .ok outcome) : outcome.pending = false := by
  obtain ⟨plan, hpl⟩ := outcome_eq_ok h
  rw [hpl.pending, List.any_eq_false]
  intro run hrun
  obtain ⟨tolerant, hens⟩ := Plan.ends_of_mem_solve hrun
  rw [hens.pending_of_no_passes hps]
  exact Bool.false_ne_true

end SolveContext

/-! ## The schedule -/

namespace Problem

variable {problem : Problem} {registry : Registry} {body : BodyId} {outcome : Outcome}

theorem pending_of_callees_final (hfin : ∀ callee, problem.Calls body callee → registry.IsFinal callee)
    (h : (problem.withRegistry registry).outcome (problem.flow.body body) = .ok outcome) : outcome.pending = false := by
  by_cases hps : problem.limits.passes = 0
  · exact SolveContext.pending_of_no_passes hps h
  · rw [← Bool.not_eq_true, pending_outcome_iff hps h]
    rintro ⟨callee, hcs, hop⟩
    exact hop (hfin callee hcs)

end Problem

namespace Schedule

variable {problem : Problem} {calls : CallGraph} {history : List RoundRecord} {schedule next : Schedule}

theorem Reached.rounds_le (h : Reached problem calls history schedule) :
    schedule.rounds = history.length ∧ schedule.rounds ≤ problem.limits.rounds := by
  induction h with
  | start => exact ⟨rfl, Nat.zero_le _⟩
  | round hrch _ hrds hrd ih =>
    obtain ⟨outcomes, hrd⟩ := round_eq_ok hrd
    rw [hrd.rounds_eq hrch.wellFormed, List.length_cons]
    omega
  | release _ _ _ ih => rwa [(forces_release problem _).rounds]
  | exhaust _ _ _ ih => rwa [(forces_exhaust problem _).rounds]

/-- How many steps the schedule has still to make at most: one for each round that is left, one to release functions if
there is one to release, and one to see that nothing is left. -/
def todo (problem : Problem) (schedule : Schedule) : Nat :=
  problem.limits.rounds - schedule.rounds + (if schedule.registry.unfinished.isEmpty then 0 else 1) + 1

theorem unfinished_eq_nil {registry : Registry} :
    registry.unfinished = [] ↔ ∀ id known, registry.get? id = some known → known.final = true := by
  rw [List.eq_nil_iff_forall_not_mem]
  constructor
  · intro hno id known hkn
    by_contra hop
    exact hno id (Registry.mem_unfinished.mpr ⟨known, hkn, by simpa using hop⟩)
  · rintro hall id hid
    obtain ⟨known, hkn, hop⟩ := Registry.mem_unfinished.mp hid
    rw [hall id known hkn] at hop
    nomatch hop

theorem IsRound.unfinished {outcomes : List Outcome} (h : IsRound problem schedule outcomes next)
    (hfm : schedule.WellFormed problem) (hno : schedule.registry.unfinished = []) :
    next.registry.unfinished = [] := by
  rw [unfinished_eq_nil] at hno ⊢
  intro id known hkn
  have hso := h.isSome_get? hfm id
  rw [hkn, Option.isSome_some, eq_comm, Option.isSome_iff_exists] at hso
  obtain ⟨before, hbef⟩ := hso
  have hfin := h.isFinal hfm ((Registry.isFinal_of_get? hbef).mpr (hno id before hbef))
  exact (Registry.isFinal_of_get? hkn).mp hfin

theorem todo_round (h : Reached problem calls history schedule) (hrds : schedule.rounds < problem.limits.rounds)
    (hrd : round problem schedule = .ok () next) : todo problem next < todo problem schedule := by
  obtain ⟨outcomes, hrd⟩ := round_eq_ok hrd
  have hunfinished := hrd.unfinished h.wellFormed
  unfold todo
  rw [hrd.rounds_eq h.wellFormed]
  simp only [List.isEmpty_iff]
  split <;> split <;> first | omega | simp_all

theorem todo_release (problem : Problem) (hop : schedule.registry.unfinished ≠ []) :
    todo problem (schedule.released problem) < todo problem schedule := by
  have hfcs := forces_release problem schedule
  have hno : (schedule.released problem).registry.unfinished = [] := unfinished_eq_nil.mpr hfcs.allFinal
  unfold todo
  rw [hfcs.rounds, hno]
  simp [hop]

/-- With as many steps as it has to make the schedule ends by itself: further steps change nothing, whether it is refused
or not. -/
theorem Reached.proceed_add {steps : Nat} (h : Reached problem calls history schedule)
    (hsteps : todo problem schedule ≤ steps) (extra : Nat) :
    Schedule.proceed problem (steps + extra) schedule = Schedule.proceed problem steps schedule := by
  induction steps generalizing history schedule with
  | zero => exact absurd hsteps (by unfold todo; omega)
  | succ steps ih =>
    rw [Nat.add_right_comm, h.proceed_succ, h.proceed_succ]
    split
    · next hqu =>
      split
      · rfl
      · next hop =>
        have hless := todo_release problem hop
        split
        · exact ih (h.released hqu hop) (by omega)
        · rfl
    · next hqu =>
      split
      · next hrds =>
        change EStateM.bind _ _ _ = EStateM.bind _ _ _
        unfold EStateM.bind
        cases hrd : Schedule.round problem schedule with
        | error fault mid => rfl
        | ok u mid =>
          have hless := todo_round h hrds hrd
          exact ih (h.round hqu hrds hrd) (by omega)
      · rfl

/-! ### What a refusal leaves -/

/-- Two states after the same number of rounds. -/
def SameRounds (schedule next : Schedule) : Prop := next.rounds = schedule.rounds

theorem sameRounds_isOrder : IsOrder SameRounds := ⟨fun _ => rfl, fun h h' => h'.trans h⟩

theorem rounds_solveOne (problem : Problem) (registry : Registry) (body : BodyId) (schedule : Schedule) :
    Leads SameRounds (solveOne problem registry body) schedule :=
  .onPart (show Leads (fun _ _ => True) _ _ from trivial) fun _ _ => rfl

theorem rounds_absorb (schedule : Schedule) (outcome : Outcome) : (schedule.absorb outcome).rounds = schedule.rounds := by
  unfold absorb
  split
  · rfl
  · split
    · rfl
    · dsimp only
      split
      · rfl
      · split <;> rfl

theorem rounds_foldl_absorb (outcomes : List Outcome) (schedule : Schedule) :
    (outcomes.foldl absorb schedule).rounds = schedule.rounds := by
  induction outcomes generalizing schedule with
  | nil => rfl
  | cons outcome rest ih => rw [List.foldl_cons, ih, rounds_absorb]

theorem rounds_round (problem : Problem) (schedule : Schedule) :
    ((round problem).leaves schedule).rounds = schedule.rounds + 1 := by
  let started : Schedule :=
    { schedule with
      rounds := schedule.rounds + 1
      queue := schedule.batch
      calls := schedule.batch.foldl CallGraph.forgetCalls schedule.calls }
  change Leads SameRounds (schedule.batch.mapM (solveOne problem schedule.registry) >>= fun outcomes =>
    modify fun now => outcomes.foldl absorb { now with queue := [] } : Step Schedule Unit) started
  refine .bind sameRounds_isOrder (.mapM sameRounds_isOrder (fun body now => rounds_solveOne problem _ body now) _) ?_
  exact fun outcomes now _ => rounds_foldl_absorb outcomes { now with queue := [] }

/-- No more rounds are made than allowed, also when one of them is refused. -/
theorem Reached.rounds_proceed (h : Reached problem calls history schedule) (steps : Nat) :
    ((Schedule.proceed problem steps).leaves schedule).rounds ≤ problem.limits.rounds := by
  induction steps generalizing history schedule with
  | zero => exact h.rounds_le.2
  | succ steps ih =>
    have hstp := h.proceed_succ steps
    split at hstp
    · next hqu =>
      split at hstp
      · rw [leaves_of_eq_ok hstp]
        exact h.rounds_le.2
      · next hop =>
        split at hstp
        · rw [leaves, hstp]
          exact ih (h.released hqu hop)
        · rw [leaves_of_eq_ok hstp]
          exact (h.released hqu hop).rounds_le.2
    · next hqu =>
      split at hstp
      · next hrds =>
        have hone := rounds_round problem schedule
        rw [leaves, hstp]
        change ((Schedule.round problem >>= fun _ => Schedule.proceed problem steps).leaves schedule).rounds ≤ _
        rw [leaves_bind]
        cases hrd : Schedule.round problem schedule with
        | error fault mid =>
          rw [leaves, hrd] at hone
          dsimp only at hone ⊢
          omega
        | ok u mid => exact ih (h.round hqu hrds hrd)
      · next hrds =>
        rw [leaves_of_eq_ok hstp]
        exact (h.exhausted hqu (Nat.le_of_not_lt hrds)).rounds_le.2

theorem rounds_complete (problem : Problem) (calls : CallGraph) :
    ((complete problem).leaves (.start problem calls)).rounds ≤ problem.limits.rounds := by
  have hstart : Reached problem calls [] (.start problem calls) := .start
  refine Nat.le_trans (Nat.le_of_eq ?_) (hstart.rounds_proceed (problem.limits.rounds + 2))
  unfold complete
  rw [leaves_bind, leaves]
  cases Schedule.proceed problem (problem.limits.rounds + 2) (.start problem calls) with
  | error fault last => rfl
  | ok u last =>
    refine Leads.get_bind (R := SameRounds) (.bind sameRounds_isOrder (rounds_solveOne problem _ .global last) ?_)
    exact fun outcome now _ => rfl

end Schedule

namespace Solver

variable {solver : Solver} {table : SymbolTable} {flow : Flow} {pool : WorkerPool} {log : IssueLog}

theorem rounds_solve (hidl : solver.phase = .idle) :
    ((solve pool flow).leaves ⟨solver, table, log⟩).solver.rounds ≤
      if (engage pool solver).isOk then solver.limits.rounds else solver.rounds := by
  have hcmp := Schedule.rounds_complete (solver.problem table flow) solver.calls
  unfold leaves solve at *
  rw [solveBy_of_idle hidl fun _ => publish_of_complete]
  cases engage pool solver with
  | error fault => exact Nat.le_refl _
  | ok _ =>
    cases hone : Schedule.complete (solver.problem table flow) (.start (solver.problem table flow) solver.calls) with
    | ok u last =>
      rw [hone] at hcmp
      exact hcmp
    | error fault last =>
      rw [hone] at hcmp
      exact hcmp

/-- The solver ends within its limits, whatever they are: the schedule, the search over forks and the passes that are
started again end by themselves, since more steps than they are allowed change nothing; no more rounds are made than
allowed, also when the solver is refused, and none when it gets no workers; and a solver that is not refused has solved the
global body when every function of the program was final, so that this body waits for nothing. -/
theorem solve_terminates (hidle : solver.phase = .idle)
    (hindexed : ∀ body, ∀ id ∈ (flow.body body).parameters, ∀ var, flow.typeVar? id = some var →
      var.parameterIndex.isSome = true) :
    (∀ extra, Schedule.proceed (solver.problem table flow) (solver.limits.rounds + 2 + extra)
        (.start (solver.problem table flow) solver.calls) =
      Schedule.proceed (solver.problem table flow) (solver.limits.rounds + 2)
        (.start (solver.problem table flow) solver.calls)) ∧
    (∀ registry body plan, ((solver.problem table flow).withRegistry registry).plan (flow.body body) = .ok plan →
      ∀ tolerant run,
        (plan.search (.ofTable table) solver.limits tolerant run).waiting = [] ∧
        (∀ extra, Search.runs plan (.ofTable table) solver.limits tolerant (plan.searchBound solver.limits + extra)
          { waiting := [run] } = plan.search (.ofTable table) solver.limits tolerant run) ∧
        ∀ starts, plan.settleWithin (.ofTable table) solver.limits.passes tolerant (starts + 2) run =
          some (plan.settle (.ofTable table) solver.limits.passes tolerant run)) ∧
    (∀ history schedule, Schedule.Reached (solver.problem table flow) solver.calls history schedule →
      schedule.rounds = history.length ∧ schedule.rounds ≤ solver.limits.rounds) ∧
    ((solve pool flow).leaves ⟨solver, table, log⟩).solver.rounds ≤
      (if (engage pool solver).isOk then solver.limits.rounds else solver.rounds) ∧
    ∀ solver' table' issues, solve pool flow ⟨solver, table, log⟩ = .ok () ⟨solver', table', log.reportAll issues⟩ →
      solver'.phase = .solved ∧ ∃ history last outcome,
        Schedule.Reached (solver.problem table flow) solver.calls history last ∧
        (∀ id, (solver.problem table flow).IsFunction id → last.registry.IsFinal id) ∧
        ((solver.problem table flow).withRegistry last.registry).outcome (flow.body .global) = .ok outcome ∧
        solver'.outcome? .global = some outcome ∧ outcome.pending = false := by
  refine ⟨fun extra => ?_, fun registry body plan hplan tolerant run => ⟨?_, fun extra => ?_, fun starts => ?_⟩,
    fun history schedule h => h.rounds_le, ?_, fun solver' table' issues hsolve => ?_⟩
  · refine Schedule.Reached.start.proceed_add ?_ extra
    unfold Schedule.todo
    change solver.limits.rounds - 0 + _ + 1 ≤ _
    split <;> omega
  · exact Plan.waiting_search _ _ tolerant run (SolveContext.plan_keepsForkable hplan)
  · exact Plan.runs_searchBound_add (SolveContext.plan_keepsForkable hplan) _ _ tolerant run extra
  · exact Plan.settleWithin_eq (SolveContext.givesOrKeeps_of_parameter (hindexed body) hplan) _ _ tolerant starts run
  · exact rounds_solve hidle
  · obtain ⟨last, outcome, hfinishes⟩ := finishes_of_solve hidle hsolve
    obtain ⟨history, hreached⟩ := hfinishes.reached
    refine ⟨hfinishes.phase, history, last, outcome, hreached, hfinishes.allFinal, hfinishes.global, ?_, ?_⟩
    · rw [outcome?, hfinishes.results, OrderedMap.get?_insert, if_pos rfl]
    · exact Problem.pending_of_callees_final (fun callee hcalls => hfinishes.allFinal callee hcalls.1) hfinishes.global

/-- A table with a function that calls itself. -/
def loopTable : SymbolTable :=
  { SymbolTable.new 0 with symbols := (SymbolTable.new 0).symbols ++ #[
    { name := "loop", position := .origin, data := .method { kind := .function, isBuiltin := false } }] }

/-- The flow of the function: it calls itself with its parameter. -/
def loopFlow : Flow :=
  let flow := (Flow.empty.add "x" .origin (.function ⟨0, 1⟩) (.join [])).2
  let flow := flow.updateVariable ⟨0⟩ fun var => { var with parameterIndex := some 0 }
  let flow := flow.updateBody (.function ⟨0, 1⟩) fun body => { body with parameters := [⟨0⟩] }
  let flow := (flow.add "x" .origin (.function ⟨0, 1⟩) (.copy ⟨0⟩)).2
  (flow.add "loop" .origin (.function ⟨0, 1⟩) (.call ⟨0, 1⟩ [⟨1⟩] 0)).2

/-- Without any rounds, passes and bindings the function is still made final and the program solved. -/
theorem solve_terminates_loop :
    ∃ solver' table' issues,
      solve .ready loopFlow ⟨{ limits := { rounds := 0, passes := 0, bindings := 0 } }, loopTable, {}⟩ =
        .ok () ⟨solver', table', ({} : IssueLog).reportAll issues⟩ ∧ solver'.phase = .solved ∧ solver'.rounds = 0 ∧
      ∃ outcome, solver'.outcome? .global = some outcome ∧ outcome.pending = false := by
  let solver : Solver := { limits := { rounds := 0, passes := 0, bindings := 0 } }
  have hanswer : ((solve .ready loopFlow).answer ⟨solver, loopTable, {}⟩).isOk = true := by decide +kernel
  have hindexed : ∀ body, ∀ id ∈ (loopFlow.body body).parameters, ∀ var, loopFlow.typeVar? id = some var →
      var.parameterIndex.isSome = true := by
    intro body id hid var hvar
    have hbodies : ∀ entry ∈ loopFlow.bodies.entries, ∀ id ∈ entry.2.parameters, id = ⟨0⟩ := by decide
    have hid : id = ⟨0⟩ := by
      unfold Flow.body Flow.body? at hid
      cases hbody : loopFlow.bodies.get? body with
      | none =>
        rw [hbody] at hid
        cases hid
      | some found =>
        rw [hbody] at hid
        exact hbodies _ (OrderedMap.get?_eq_some_iff.mp hbody) id hid
    subst hid
    cases hvar
    rfl
  obtain ⟨solver', table', issues, hsolve⟩ := exists_issues_of_isOk rfl hanswer
  obtain ⟨_, _, _, hrounds, hsolved⟩ := @solve_terminates solver loopTable loopFlow .ready {} rfl hindexed
  obtain ⟨hphase, _, _, outcome, _, _, _, houtcome, hpending⟩ := hsolved solver' table' issues hsolve
  rw [leaves_of_eq_ok hsolve] at hrounds
  exact ⟨solver', table', issues, hsolve, hphase, Nat.le_zero.mp hrounds, outcome, houtcome, hpending⟩

end Solver

end SoftTyping
