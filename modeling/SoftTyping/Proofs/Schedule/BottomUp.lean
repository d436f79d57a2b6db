import SoftTyping.Proofs.Schedule.Solved
import SoftTyping.Proofs.Schedule.WakeUp

/-!
# Rounds refine bottom-up evaluation

When all chains of calls from a function are bounded, the functions it reaches do not call each other in a circle, and it
could be solved bottom-up: once, after all that it calls. The rounds come to the same result, whatever else the program
holds: after `n` rounds every function whose chains have at most `n` functions is final
(`Reached.isFinal_of_chainsWithin`), such functions are never among those that are made final by force, and the outcome
of each is that of solving it against the final overloads of what it calls. Main statement: `Solver.solve_bottomUp`.
-/

namespace SoftTyping

open Refusal

namespace Problem

variable {problem : Problem} {bound : Nat} {id : SymbolId}

/-- Every chain of calls that starts at a function has at most `bound` functions, the first included. Such a bound exists
only if no function that can be reached calls itself through others, and then the least one is the length of a longest
chain. -/
def ChainsWithin (problem : Problem) (bound : Nat) (id : SymbolId) : Prop :=
  ∀ chain, (id :: chain).IsChain (fun caller callee => problem.Calls (.function caller) callee) →
    (id :: chain).length ≤ bound

theorem ChainsWithin.pos (h : problem.ChainsWithin bound id) : 0 < bound := h [] (List.IsChain.singleton id)

theorem ChainsWithin.mono (h : problem.ChainsWithin bound id) {bound' : Nat} (hle : bound ≤ bound') :
    problem.ChainsWithin bound' id :=
  fun chain hchain => (h chain hchain).trans hle

theorem ChainsWithin.of_calls (h : problem.ChainsWithin (bound + 1) id) {callee : SymbolId}
    (hcs : problem.Calls (.function id) callee) : problem.ChainsWithin bound callee := by
  intro chain hchain
  have hlen := h (callee :: chain) (List.isChain_cons_cons.mpr ⟨hcs, hchain⟩)
  rw [List.length_cons] at hlen
  omega

theorem closedUnderCalls_chainsWithin (problem : Problem) (bound : Nat) :
    Schedule.ClosedUnderCalls problem (problem.ChainsWithin bound) := by
  intro id callee hid hcs
  obtain ⟨bound', rfl⟩ := Nat.exists_eq_succ_of_ne_zero hid.pos.ne'
  exact (hid.of_calls hcs).mono (Nat.le_succ bound')

end Problem

namespace Schedule

variable {problem : Problem} {calls : CallGraph} {history : List RoundRecord} {schedule next : Schedule} {bound : Nat}
  {id : SymbolId}

/-- A queued function that calls final functions only is final after the round. -/
theorem IsRound.isFinal_of_callees {outcomes : List Outcome} (hrd : IsRound problem schedule outcomes next)
    (hfm : schedule.WellFormed problem) (hps : problem.limits.passes ≠ 0) (hqu : .function id ∈ schedule.queue)
    (hces : ∀ callee, problem.Calls (.function id) callee → schedule.registry.IsFinal callee) :
    next.registry.IsFinal id := by
  obtain ⟨outcome, _, hf⟩ := exists_right_of_forall₂ hrd.found (mem_batch.mpr hqu)
  refine hrd.isFinal_of_queued hfm hqu hf ?_
  by_contra hpen
  rw [Bool.not_eq_false, Problem.pending_outcome_iff hps hf] at hpen
  obtain ⟨callee, hcs, hop⟩ := hpen
  exact hop (hces callee hcs)

section

variable (hps : problem.limits.passes ≠ 0)

include hps

/-- After as many rounds as its chains have functions, a function is final. -/
theorem Reached.isFinal_of_chainsWithin (h : Reached problem calls history schedule)
    (hid : problem.IsFunction id) (hchs : problem.ChainsWithin schedule.rounds id) : schedule.registry.IsFinal id := by
  induction h generalizing id with
  | start => exact absurd hchs.pos (Nat.lt_irrefl 0)
  | @round _ schedule _ hrch _ _ hrd ih =>
    obtain ⟨outcomes, hrd⟩ := round_eq_ok hrd
    rw [hrd.rounds_eq hrch.wellFormed] at hchs
    have hces : ∀ callee, problem.Calls (.function id) callee → schedule.registry.IsFinal callee :=
      fun callee hcs => ih hcs.1 (hchs.of_calls hcs)
    by_cases hfin : schedule.registry.IsFinal id
    · exact hrd.isFinal hrch.wellFormed hfin
    · by_cases hqu : .function id ∈ schedule.queue
      · exact hrd.isFinal_of_callees hrch.wellFormed hps hqu hces
      · obtain ⟨callee, hcs, hop⟩ := hrch.exists_open_callee hps hid hfin hqu
        exact absurd (hces callee hcs) hop
  | release hrch _ _ _ => exact hrch.allFinal_of_forces (forces_release problem _) id hid
  | exhaust hrch _ _ _ => exact hrch.allFinal_of_forces (forces_exhaust problem _) id hid

theorem Reached.isFinal_of_idle (h : Reached problem calls history schedule)
    (hidl : schedule.queue = []) (hid : problem.IsFunction id) (hchs : problem.ChainsWithin bound id) :
    schedule.registry.IsFinal id := by
  induction bound generalizing id with
  | zero => exact absurd hchs.pos (Nat.lt_irrefl 0)
  | succ bound ih =>
    by_contra hop
    obtain ⟨callee, hcs, hce⟩ := h.exists_open_callee hps hid hop (by rw [hidl]; exact List.not_mem_nil)
    exact hce (ih hcs.1 (hchs.of_calls hcs))

theorem Reached.isFinal_of_forced (h : Reached problem calls history schedule)
    (hfcd : schedule.queue = [] ∨ problem.limits.rounds ≤ schedule.rounds) (hid : problem.IsFunction id)
    (hchs : problem.ChainsWithin problem.limits.rounds id) : schedule.registry.IsFinal id := by
  rcases hfcd with hidl | hrds
  · exact h.isFinal_of_idle hps hidl hid hchs
  · exact h.isFinal_of_chainsWithin hps hid (hchs.mono hrds)

/-- Making functions final by force leaves those steady whose chains are within the limit on rounds. -/
theorem Reached.steady_of_forces (h : Reached problem calls history schedule)
    (hfcd : schedule.queue = [] ∨ problem.limits.rounds ≤ schedule.rounds) (hfcs : Forces problem schedule next)
    (hsty : schedule.Steady problem (problem.ChainsWithin problem.limits.rounds)) :
    next.Steady problem (problem.ChainsWithin problem.limits.rounds) := by
  intro id hchs hfin hbdy
  have hid : problem.IsFunction id := by
    obtain ⟨known, hkn, _⟩ := hfin
    rw [← h.isSome_iff, ← hfcs.isSome, hkn]
    rfl
  have hbef := h.isFinal_of_forced hps hfcd hid hchs
  obtain ⟨outcome, hof⟩ := hsty id hchs hbef hbdy
  refine ⟨outcome, hof.congr ?_ (hfcs.kept id hbef) fun callee hcs =>
    hfcs.kept callee (hof.callees callee hcs)⟩
  rw [hfcs.outcomes, hof.stored]

theorem Reached.steady (h : Reached problem calls history schedule) :
    schedule.Steady problem (problem.ChainsWithin problem.limits.rounds) := by
  induction h with
  | start =>
    intro id _ hfin hbdy
    obtain ⟨known, hkn, hfin⟩ := hfin
    rw [(start_open hkn).mpr hbdy] at hfin
    nomatch hfin
  | round hrch _ _ hrd ih =>
    obtain ⟨outcomes, hrd⟩ := round_eq_ok hrd
    exact hrd.steady hrch.wellFormed hps (problem.closedUnderCalls_chainsWithin _) ih
  | release hrch hidl _ ih => exact hrch.steady_of_forces hps (.inl hidl) (forces_release problem _) ih
  | exhaust hrch _ hrds ih => exact hrch.steady_of_forces hps (.inr hrds) (forces_exhaust problem _) ih

theorem Reached.recursionIssue (h : Reached problem calls history schedule)
    {issue : Issue} (his : issue ∈ schedule.issues) (hk : issue.kind = .unresolvableRecursion) :
    ∃ id, ¬ problem.ChainsWithin problem.limits.rounds id ∧ IsRecursionIssueOf problem id issue := by
  have hfcd : ∀ {history schedule next}, Reached problem calls history schedule → Forces problem schedule next →
      (schedule.queue = [] ∨ problem.limits.rounds ≤ schedule.rounds) → issue ∈ next.issues →
      issue ∈ schedule.issues ∨
        ∃ id, ¬ problem.ChainsWithin problem.limits.rounds id ∧ IsRecursionIssueOf problem id issue := by
    intro history schedule next hrch hfcs hfcd his
    refine (hfcs.issues issue his hk).imp_right ?_
    rintro ⟨id, hid, hof⟩
    obtain ⟨known, hkn, hop⟩ := Registry.mem_unfinished.mp hid
    refine ⟨id, fun hchs => ?_, hof⟩
    have hfn : problem.IsFunction id := by
      rw [← hrch.isSome_iff, hkn]
      rfl
    have hfin := hrch.isFinal_of_forced hps hfcd hfn hchs
    rw [Registry.isFinal_of_get? hkn, hop] at hfin
    exact Bool.false_ne_true hfin
  induction h with
  | start => nomatch his
  | round hrch _ _ hrd ih =>
    obtain ⟨outcomes, hrd⟩ := round_eq_ok hrd
    rw [hrd.issues_eq hrch.wellFormed] at his
    exact ih his
  | release hrch hidl _ ih => exact (hfcd hrch (forces_release problem _) (.inl hidl) his).elim ih id
  | exhaust hrch _ hrds ih =>
    exact (hfcd hrch (forces_exhaust problem _) (.inr hrds) his).elim ih id

end

end Schedule

namespace Solver

variable {solver solver' : Solver} {table table' : SymbolTable} {flow : Flow} {issues : List Issue} {id : SymbolId}
  {pool : WorkerPool} {log : IssueLog}
  {height : Nat}

/-- What the table holds of a function in the end is what is published of it. -/
theorem overloadsOf?_of_reached {history : List Schedule.RoundRecord} {last : Schedule} {known : Published}
    (h : Schedule.Reached (solver.problem table flow) solver.calls history last)
    (hkn : last.registry.get? id = some known) :
    (table.publishAll last.registry).overloadsOf? id = some known.overloads := by
  have hfn : ∀ {id known}, last.registry.get? id = some known → (solver.problem table flow).IsFunction id := by
    intro id known hkn
    rw [← h.isSome_iff, hkn]
    rfl
  refine SymbolTable.overloadsOf?_publishAll (fun entry he => ?_) hkn ?_
  · obtain ⟨symbol, _, hsym, _⟩ := hfn (OrderedMap.get?_eq_some_iff.mpr he)
    have hsym : table.symbol? entry.1 = some symbol := hsym
    by_contra hstale
    rw [SymbolTable.symbol?, if_neg hstale] at hsym
    cases hsym
  · obtain ⟨symbol, data, hsym, hdt, _⟩ := hfn hkn
    have hsym : table.symbol? id = some symbol := hsym
    rw [SymbolTable.overloadsOf?, hsym, Option.bind_some, hdt]
    rfl

/-- A function of the program that has a body, and whose chains of calls have at most `height` functions with `height`
within the limit on rounds, is solved bottom-up, whatever the other functions do: it is final by the end of round `height`;
it is final whenever functions are made final by force, and every issue about recursion is reported for another function;
and its outcome, whose overloads the table holds in the end, is that of solving its body once against any registry that
holds the final overloads of the functions it calls and has them final. -/
theorem solve_bottomUp (hpasses : 1 ≤ solver.limits.passes) (hidle : solver.phase = .idle)
    (hsolve : solve pool flow ⟨solver, table, log⟩ = .ok () ⟨solver', table', log.reportAll issues⟩)
    (hid : (solver.problem table flow).IsFunction id) (hbody : (flow.body? (.function id)).isSome)
    (hchains : (solver.problem table flow).ChainsWithin height id) (hheight : height ≤ solver.limits.rounds) :
    (∀ history schedule, Schedule.Reached (solver.problem table flow) solver.calls history schedule →
      height ≤ schedule.rounds → schedule.registry.IsFinal id) ∧
    (∀ history schedule, Schedule.Reached (solver.problem table flow) solver.calls history schedule →
      schedule.queue = [] ∨ solver.limits.rounds ≤ schedule.rounds → id ∉ schedule.registry.unfinished) ∧
    (∀ issue ∈ issues, issue.kind = .unresolvableRecursion →
      ∃ other, other ≠ id ∧ Schedule.IsRecursionIssueOf (solver.problem table flow) other issue) ∧
    ∃ outcome, solver'.outcome? (.function id) = some outcome ∧
      table'.overloadsOf? id = some outcome.finalOverloads ∧
      (∀ callee, (solver.problem table flow).Calls (.function id) callee → (table'.overloadsOf? callee).isSome) ∧
      ∀ registry : Registry,
        (∀ callee overloads, (solver.problem table flow).Calls (.function id) callee →
          table'.overloadsOf? callee = some overloads → registry.get? callee = some { overloads, final := true }) →
        ((solver.problem table flow).withRegistry registry).outcome (flow.body (.function id)) = .ok outcome := by
  have hpasses : (solver.problem table flow).limits.passes ≠ 0 := Nat.one_le_iff_ne_zero.mp hpasses
  have hchainsLimit : (solver.problem table flow).ChainsWithin (solver.problem table flow).limits.rounds id :=
    hchains.mono hheight
  obtain ⟨last, _, hfinishes⟩ := finishes_of_solve hidle hsolve
  obtain ⟨history, hreached⟩ := hfinishes.reached
  obtain ⟨outcome, hsteady⟩ := hreached.steady hpasses id hchainsLimit (hfinishes.allFinal id hid) hbody
  have hcallees : ∀ callee, (solver.problem table flow).Calls (.function id) callee →
      ∃ overloads, table'.overloadsOf? callee = some overloads ∧
        last.registry.get? callee = some { overloads, final := true } := by
    intro callee hcalls
    obtain ⟨known, hknown, hfinal⟩ := hsteady.callees callee hcalls
    refine ⟨known.overloads, hfinishes.published ▸ overloadsOf?_of_reached hreached hknown, ?_⟩
    rw [hknown, ← hfinal]
  refine ⟨fun history schedule h hrounds => h.isFinal_of_chainsWithin hpasses hid (hchains.mono hrounds),
    fun history schedule h hforced hopen => ?_, fun issue hissue hkind => ?_, outcome, ?_, ?_, ?_, ?_⟩
  · obtain ⟨known, hknown, hopen⟩ := Registry.mem_unfinished.mp hopen
    have hfinal := h.isFinal_of_forced hpasses hforced hid hchainsLimit
    rw [Registry.isFinal_of_get? hknown, hopen] at hfinal
    exact Bool.false_ne_true hfinal
  · obtain ⟨other, hother, hof⟩ := hreached.recursionIssue hpasses (hfinishes.mem_issues_of_kind hissue hkind) hkind
    refine ⟨other, ?_, hof⟩
    rintro rfl
    exact hother hchainsLimit
  · rw [hfinishes.outcome?_function, hsteady.stored]
  · rw [hfinishes.published, overloadsOf?_of_reached hreached hsteady.published]
  · intro callee hcalls
    obtain ⟨overloads, hoverloads, _⟩ := hcallees callee hcalls
    rw [hoverloads]
    rfl
  · intro registry hregistry
    have hagree : (solver.problem table flow).Agree (.function id) registry last.registry := by
      intro callee hcalls
      obtain ⟨overloads, hoverloads, hlast⟩ := hcallees callee hcalls
      rw [hregistry callee overloads hcalls hoverloads, hlast]
    exact (Problem.outcome_congr hagree).trans hsteady.found

/-- A table with three functions: one that calls the second, the second, and one that calls itself. -/
def callerTable : SymbolTable :=
  { SymbolTable.new 0 with symbols := (SymbolTable.new 0).symbols ++ #[
    { name := "caller", position := .origin, data := .method { kind := .function, isBuiltin := false } },
    { name := "callee", position := .origin, data := .method { kind := .function, isBuiltin := false } },
    { name := "loop", position := .origin, data := .method { kind := .function, isBuiltin := false } }] }

/-- The flow of the three functions. -/
def callerFlow : Flow :=
  let flow := (Flow.empty.add "callee()" .origin (.function ⟨0, 1⟩) (.call ⟨0, 2⟩ [] 0)).2
  let flow := flow.updateBody (.function ⟨0, 2⟩) fun body => body
  (flow.add "loop()" .origin (.function ⟨0, 3⟩) (.call ⟨0, 3⟩ [] 0)).2

/-- The caller is solved bottom-up next to a function that calls itself. -/
theorem solve_bottomUp_caller :
    ∃ solver' table' issues outcome,
      solve .ready callerFlow ⟨{ limits := {} }, callerTable, {}⟩ =
        .ok () ⟨solver', table', ({} : IssueLog).reportAll issues⟩ ∧
      solver'.outcome? (.function ⟨0, 1⟩) = some outcome ∧
      table'.overloadsOf? ⟨0, 1⟩ = some outcome.finalOverloads := by
  have hanswer : ((solve .ready callerFlow).answer ⟨{ limits := {} }, callerTable, {}⟩).isOk = true := by decide +kernel
  have hcallee : ∀ {caller callee},
      (problem { limits := {} } callerTable callerFlow).Calls (.function caller) callee →
      caller = ⟨0, 1⟩ ∨ caller = ⟨0, 2⟩ → caller = ⟨0, 1⟩ ∧ callee = ⟨0, 2⟩ := by
    rintro caller callee ⟨_, id, hid, var, arguments, site, hvar, _, _, hconstraint⟩ (rfl | rfl)
    · have hid : id ∈ [(⟨0⟩ : TypeVarId)] := hid
      cases List.mem_singleton.mp hid
      cases hvar
      cases hconstraint
      exact ⟨rfl, rfl⟩
    · cases hid
  have hchains : (problem { limits := {} } callerTable callerFlow).ChainsWithin 2 ⟨0, 1⟩ := by
    rintro (_ | ⟨first, _ | ⟨second, rest⟩⟩) hchain
    · decide
    · simp
    · rw [List.isChain_cons_cons, List.isChain_cons_cons] at hchain
      obtain ⟨_, rfl⟩ := hcallee hchain.1 (.inl rfl)
      exact absurd (hcallee hchain.2.1 (.inr rfl)).1 (by decide)
  obtain ⟨solver', table', issues, hsolve⟩ := exists_issues_of_isOk rfl hanswer
  obtain ⟨_, _, _, outcome, houtcome, hoverloads, _⟩ := solve_bottomUp (by decide) rfl hsolve ⟨_, _, rfl, rfl, rfl⟩ rfl
    hchains (by decide)
  exact ⟨solver', table', issues, outcome, hsolve, houtcome, hoverloads⟩

end Solver

end SoftTyping
