import Mathlib.Data.Fintype.Card
import Mathlib.Data.Set.Finite.Basic
import SoftTyping.Proofs.Schedule.Consistent

/-!
# Who is blamed for recursion

When nothing is queued, the functions that are still open are made final as they are, and those whose result is unknown
are reported. An open function that is not queued calls another open function (`Reached.exists_open_callee_of_idle`), and
there are finitely many of them, so following such calls runs into a circle (`exists_cycle_of_successors`). A function that
is reported therefore calls itself, or calls directly or through others a function that does. Main statement:
`Solver.solve_blames_recursion`. The second case cannot be excluded: `Solver.solve_blames_caller` is a function that calls
a recursive one and is reported with it.
-/

namespace SoftTyping

open Refusal Relation

/-- Where every item of a list has a successor in the list, following successors from any of them runs into a circle. -/
theorem exists_cycle_of_successors {α : Type} {next : α → α → Prop} {items : List α}
    (hnx : ∀ item ∈ items, ∃ successor ∈ items, next item successor) {first : α} (hfst : first ∈ items) :
    ∃ item, ReflTransGen next first item ∧ TransGen next item item := by
  by_contra hno
  push Not at hno
  let Visited := { item // item ∈ items ∧ ReflTransGen next first item }
  let later : Visited → Visited → Prop := fun second first => TransGen next first.1 second.1
  have : Finite Visited := (List.finite_toSet items).subset (fun _ h => h.1) |>.to_subtype
  have : IsTrans Visited later := ⟨fun _ _ _ h h' => h'.trans h⟩
  have : Std.Irrefl later := ⟨fun item => hno item.1 item.2.2⟩
  -- Without a circle the visited items have a last one, but that has a successor.
  obtain ⟨last, _, hls⟩ := (Finite.wellFounded_of_trans_of_irrefl later).has_min Set.univ ⟨⟨first, hfst, .refl⟩, trivial⟩
  obtain ⟨successor, hmem, hstp⟩ := hnx last.1 last.2.1
  exact hls ⟨successor, hmem, last.2.2.tail hstp⟩ trivial (.single hstp)

/-- A function that calls itself, directly or through others, or that calls such a function, directly or through others. -/
def Problem.ReachesCycle (problem : Problem) (id : SymbolId) : Prop :=
  ∃ member, ReflTransGen (fun caller callee => problem.Calls (.function caller) callee) id member ∧
    TransGen (fun caller callee => problem.Calls (.function caller) callee) member member

namespace Schedule

variable {problem : Problem} {calls : CallGraph} {history : List RoundRecord} {schedule next : Schedule} {id : SymbolId}

section

variable (h : Reached problem calls history schedule)

include h

theorem Reached.exists_lastSolved (hid : problem.IsFunction id)
    (hop : ¬ schedule.registry.IsFinal id) (hqu : .function id ∉ schedule.queue) :
    ∃ record, lastSolved history (.function id) = some record := by
  induction h with
  | start =>
    obtain ⟨known, hkn, hfin⟩ := Reached.start.open_of_not_isFinal hid hop
    refine absurd (List.mem_filter.mpr ⟨?_, Registry.isOpen_function.mpr ⟨known, hkn, hfin⟩⟩) hqu
    exact OrderedMap.contains_iff_mem_keys.mp ((start_open hkn).mp hfin)
  | @round _ schedule _ hrch _ _ hrd ih =>
    by_cases hsvd : .function id ∈ schedule.queue
    · exact ⟨_, lastSolved_cons_of_mem (mem_batch.mpr hsvd)⟩
    · obtain ⟨outcomes, hrd⟩ := round_eq_ok hrd
      rw [lastSolved_cons_of_not_mem fun hmem => hsvd (mem_batch.mp hmem)]
      exact ih (fun hfin => hop (hrd.isFinal hrch.wellFormed hfin)) hsvd
  | release hrch _ _ _ => exact absurd (hrch.allFinal_of_forces (forces_release problem _) id hid) hop
  | exhaust hrch _ _ _ => exact absurd (hrch.allFinal_of_forces (forces_exhaust problem _) id hid) hop

/-- When nothing is queued, every open function calls an open function. -/
theorem Reached.exists_open_callee_of_idle (hidl : schedule.queue = []) (hid : id ∈ schedule.registry.unfinished) :
    ∃ callee ∈ schedule.registry.unfinished, problem.Calls (.function id) callee := by
  obtain ⟨known, hkn, hop⟩ := Registry.mem_unfinished.mp hid
  have hfn : problem.IsFunction id := by
    rw [← h.isSome_iff, hkn]
    rfl
  have hnotFinal : ¬ schedule.registry.IsFinal id := by
    rw [Registry.isFinal_of_get? hkn, hop]
    exact Bool.false_ne_true
  have hqu : .function id ∉ schedule.queue := hidl ▸ List.not_mem_nil
  by_cases hps : problem.limits.passes = 0
  · -- Without passes a function is final as soon as it has been solved.
    obtain ⟨record, hls⟩ := h.exists_lastSolved hfn hnotFinal hqu
    obtain ⟨outcome, hf, _⟩ := h.outcome_of_lastSolved hls
    have hpen := h.pending_of_lastSolved hls hf hfn hnotFinal
    rw [SolveContext.pending_of_no_passes hps hf] at hpen
    nomatch hpen
  · obtain ⟨callee, hcs, hce⟩ := h.exists_open_callee hps hfn hnotFinal hqu
    exact ⟨callee, Registry.mem_unfinished.mpr (h.open_of_not_isFinal hcs.1 hce), hcs⟩

theorem Reached.reachesCycle_of_idle (hidl : schedule.queue = [])
    (hid : id ∈ schedule.registry.unfinished) : problem.ReachesCycle id :=
  exists_cycle_of_successors (fun _ hid => h.exists_open_callee_of_idle hidl hid) hid

/-- Until the rounds are used up, an issue about recursion is reported for a function that reaches a circle of calls. -/
theorem Reached.reachesCycle_of_issue {issue : Issue}
    (his : issue ∈ schedule.issues) (hk : issue.kind = .unresolvableRecursion)
    (hlimit : limitIssue .origin "rounds" problem.limits.rounds ∉ schedule.issues) :
    ∃ id, problem.IsFunction id ∧ IsRecursionIssueOf problem id issue ∧ problem.ReachesCycle id := by
  induction h with
  | start => nomatch his
  | round hrch _ _ hrd ih =>
    obtain ⟨outcomes, hrd⟩ := round_eq_ok hrd
    rw [hrd.issues_eq hrch.wellFormed] at his hlimit
    exact ih his hlimit
  | @release _ schedule hrch hidl _ ih =>
    rcases (forces_release problem schedule).issues issue his hk with hold | ⟨id, hid, hof⟩
    · exact ih hold fun hmem => hlimit (issues_subset_release problem schedule hmem)
    · obtain ⟨known, hkn, _⟩ := Registry.mem_unfinished.mp hid
      exact ⟨id, hrch.isSome_iff.mp (Option.isSome_of_mem hkn), hof, hrch.reachesCycle_of_idle hidl hid⟩
  | exhaust => exact absurd (limitIssue_mem_exhaust problem _) hlimit

end

end Schedule

namespace Solver

variable {solver solver' : Solver} {table table' : SymbolTable} {flow : Flow} {issues : List Issue} {pool : WorkerPool}
  {log : IssueLog}

/-- When the limit on rounds is not reached, only functions are blamed for recursion that reach a circle of calls: every
issue about recursion is reported for such a function, and whenever open functions are made final as they are, all of them
are such functions. -/
theorem solve_blames_recursion (hidle : solver.phase = .idle)
    (hsolve : solve pool flow ⟨solver, table, log⟩ = .ok () ⟨solver', table', log.reportAll issues⟩)
    (hlimit : limitIssue .origin "rounds" solver.limits.rounds ∉ issues) :
    (∀ issue ∈ issues, issue.kind = .unresolvableRecursion → ∃ id, (solver.problem table flow).IsFunction id ∧
      Schedule.IsRecursionIssueOf (solver.problem table flow) id issue ∧ (solver.problem table flow).ReachesCycle id) ∧
    ∀ history schedule, Schedule.Reached (solver.problem table flow) solver.calls history schedule →
      schedule.queue = [] → ∀ id ∈ schedule.registry.unfinished, (solver.problem table flow).ReachesCycle id := by
  obtain ⟨last, _, hfinishes⟩ := finishes_of_solve hidle hsolve
  obtain ⟨_, hreached⟩ := hfinishes.reached
  refine ⟨fun issue hissue hkind => ?_, fun history schedule h hqueue id hid => h.reachesCycle_of_idle hqueue hid⟩
  exact hreached.reachesCycle_of_issue (hfinishes.mem_issues_of_kind hissue hkind) hkind fun hmem =>
    hlimit (hfinishes.issues_subset hmem)

/-- A table with a function that calls itself and one that calls it. -/
def countdownTable : SymbolTable :=
  { SymbolTable.new 0 with symbols := (SymbolTable.new 0).symbols ++ #[
    { name := "countdown", position := .origin, data := .method { kind := .function, isBuiltin := false } },
    { name := "launch", position := .origin, data := .method { kind := .function, isBuiltin := false } }] }

/-- The flow of the two functions: each returns what `countdown` returns. -/
def countdownFlow : Flow :=
  let flow := (Flow.empty.add "countdown()" .origin (.function ⟨0, 1⟩) (.call ⟨0, 1⟩ [] 0)).2
  let flow := flow.updateBody (.function ⟨0, 1⟩) fun body => { body with returns := some ⟨0⟩ }
  let flow := (flow.add "countdown()" .origin (.function ⟨0, 2⟩) (.call ⟨0, 1⟩ [] 0)).2
  flow.updateBody (.function ⟨0, 2⟩) fun body => { body with returns := some ⟨1⟩ }

/-- The two issues that solving the functions reports. -/
def countdownIssues : List Issue :=
  ["countdown", "launch"].map fun name =>
    ((Issue.ofKind .unresolvableRecursion .origin).withParameter "function" name).withParameter "group" name

theorem solve_countdown :
    ∃ solver' table', solve .ready countdownFlow ⟨{ limits := {} }, countdownTable, {}⟩ =
      .ok () ⟨solver', table', ({} : IssueLog).reportAll countdownIssues⟩ := by
  have hans : ((solve .ready countdownFlow).answer ⟨{ limits := {} }, countdownTable, {}⟩).isOk = true := by decide +kernel
  have hiss : ((solve .ready countdownFlow).leaves ⟨{ limits := {} }, countdownTable, {}⟩).issues.issues =
      countdownIssues := by decide +kernel
  obtain ⟨solver', table', issues, hsol⟩ := exists_issues_of_isOk rfl hans
  rw [Step.leaves_of_eq_ok hsol, IssueLog.issues_reportAll] at hiss
  cases hiss
  exact ⟨solver', table', hsol⟩

/-- Both functions are reported, and each reaches a circle of calls. -/
theorem solve_blames_recursion_countdown :
    ∃ solver' table', solve .ready countdownFlow ⟨{ limits := {} }, countdownTable, {}⟩ =
        .ok () ⟨solver', table', ({} : IssueLog).reportAll countdownIssues⟩ ∧
      ∀ issue ∈ countdownIssues, ∃ id, (problem { limits := {} } countdownTable countdownFlow).IsFunction id ∧
        Schedule.IsRecursionIssueOf (problem { limits := {} } countdownTable countdownFlow) id issue ∧
        (problem { limits := {} } countdownTable countdownFlow).ReachesCycle id := by
  obtain ⟨solver', table', hsolve⟩ := solve_countdown
  have hkind : ∀ issue ∈ countdownIssues, issue.kind = .unresolvableRecursion := by decide
  refine ⟨solver', table', hsolve, fun issue hissue => ?_⟩
  exact (solve_blames_recursion rfl hsolve (by decide)).1 issue hissue (hkind issue hissue)

/-- The second function calls itself neither directly nor through others, and is reported though no limit is reached. -/
theorem solve_blames_caller :
    ∃ solver' table', solve .ready countdownFlow ⟨{ limits := {} }, countdownTable, {}⟩ =
        .ok () ⟨solver', table', ({} : IssueLog).reportAll countdownIssues⟩ ∧
      limitIssue .origin "rounds" 32 ∉ countdownIssues ∧
      (∃ issue ∈ countdownIssues, issue.kind = .unresolvableRecursion ∧
        issue.parameters.get? "function" = some "launch") ∧
      (countdownTable.symbol? ⟨0, 2⟩).map (·.name) = some "launch" ∧
      ¬ TransGen (fun caller callee =>
        (problem { limits := {} } countdownTable countdownFlow).Calls (.function caller) callee) ⟨0, 2⟩ ⟨0, 2⟩ := by
  obtain ⟨solver', table', hsolve⟩ := solve_countdown
  refine ⟨solver', table', hsolve, by decide, by decide, rfl, fun hcycle => ?_⟩
  -- Every call that the program makes is one of the first function.
  obtain ⟨_, _, _, id, _, var, arguments, site, hvar, _, _, hconstraint⟩ := TransGen.tail'_iff.mp hcycle
  obtain ⟨_ | _ | index⟩ := id
  · cases hvar
    nomatch hconstraint
  · cases hvar
    nomatch hconstraint
  · nomatch hvar

end Solver

end SoftTyping
