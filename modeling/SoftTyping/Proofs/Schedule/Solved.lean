import SoftTyping.Proofs.Schedule.Reached
import SoftTyping.Solver

/-!
# What a solver leaves behind

A solver publishes what it finds only when its schedule has come to a state in which every function is final, and then
publishing is not refused (`Solver.solve_of_idle`). The table then holds what is published of each function
(`overloadsOf?_publishAll`).
-/

namespace SoftTyping

open Refusal Schedule

variable {table : SymbolTable}

/-! ## Publishing -/

namespace SymbolTable

variable {id : SymbolId}

/-- The overloads of a function or operator. -/
def overloadsOf? (table : SymbolTable) (id : SymbolId) : Option (List Overload) :=
  ((table.symbol? id).bind (·.method?)).map (·.overloads)

/-- The table with the overloads of one function. -/
def publishOne (table : SymbolTable) (entry : SymbolId × Published) : SymbolTable :=
  { table with
    symbols := table.symbols.modify entry.1.index fun symbol =>
      symbol.mapMethod fun data => { data with overloads := entry.2.overloads } }

/-- The table with the overloads of all functions of a registry. -/
def publishAll (table : SymbolTable) (registry : Registry) : SymbolTable := registry.entries.foldl publishOne table

theorem isSome_symbol?_publishOne {entry : SymbolId × Published} {other : SymbolId} :
    ((table.publishOne entry).symbol? other).isSome ↔ (table.symbol? other).isSome := by
  unfold symbol? publishOne
  dsimp only
  split
  · rw [Array.getElem?_modify]
    split <;> simp
  · rfl

/-- Publishing is refused only when a function of the registry is not in the table. -/
theorem publish_eq_ok {registry : Registry} {table' : SymbolTable} {u : Unit} : publish registry table = .ok u table' ↔
    (∀ entry ∈ registry.entries, (table.symbol? entry.1).isSome) ∧ table' = table.publishAll registry := by
  refine Step.forM_eq_ok (fun table entry => (table.symbol? entry.1).isSome) publishOne ?_ isSome_symbol?_publishOne
  rintro table ⟨id, known⟩ u table'
  simp only [updateSymbol, Step.bind_eq_ok, Step.query_eq_ok, Step.modify_eq_ok, symbol_eq_ok, Option.isSome_iff_exists]
  constructor
  · rintro ⟨symbol, _, ⟨hsym, rfl⟩, rfl⟩
    exact ⟨⟨symbol, hsym⟩, rfl⟩
  · rintro ⟨⟨symbol, hsym⟩, rfl⟩
    exact ⟨symbol, _, ⟨hsym, rfl⟩, rfl⟩

theorem overloadsOf?_publishOne (known : Published) (other : SymbolId) (hid : id.generation = table.generation) :
    (table.publishOne (id, known)).overloadsOf? other =
      if id = other then (table.overloadsOf? other).map (fun _ => known.overloads) else table.overloadsOf? other := by
  unfold overloadsOf? symbol? publishOne
  dsimp only
  by_cases hoth : other.generation = table.generation
  · rw [if_pos hoth, if_pos hoth, Array.getElem?_modify]
    by_cases heq : id = other
    · subst heq
      rw [if_pos rfl, if_pos rfl]
      cases table.symbols[id.index]? with
      | none => rfl
      | some symbol => simp [Function.comp_def]
    · rw [if_neg heq, if_neg fun hix => heq (SymbolId.ext (hid.trans hoth.symm) hix)]
  · rw [if_neg hoth, if_neg hoth]
    have heq : id ≠ other := by
      rintro rfl
      exact hoth hid
    rw [if_neg heq]

theorem overloadsOf?_foldl_publishOne {entries : List (SymbolId × Published)}
    (hgen : ∀ entry ∈ entries, entry.1.generation = table.generation) (hid : id ∉ entries.map Prod.fst) :
    (entries.foldl publishOne table).overloadsOf? id = table.overloadsOf? id := by
  induction entries generalizing table with
  | nil => rfl
  | cons entry rest ih =>
    rw [List.map_cons, List.mem_cons, not_or] at hid
    have hrs : ∀ other ∈ rest, other.1.generation = (table.publishOne entry).generation := fun other hoth =>
      hgen other (List.mem_cons_of_mem _ hoth)
    rw [List.foldl_cons, ih hrs hid.2, overloadsOf?_publishOne entry.2 id (hgen entry List.mem_cons_self),
      if_neg (Ne.symm hid.1)]

/-- After publishing, a function has the overloads that are known of it. -/
theorem overloadsOf?_publishAll {registry : Registry} {known : Published}
    (hgen : ∀ entry ∈ registry.entries, entry.1.generation = table.generation)
    (hkn : registry.get? id = some known) (hmth : (table.overloadsOf? id).isSome) :
    (table.publishAll registry).overloadsOf? id = some known.overloads := by
  unfold publishAll
  rw [OrderedMap.get?_eq_some_iff] at hkn
  have hndp := registry.nodup
  generalize registry.entries = entries at hkn hgen hndp
  induction entries generalizing table with
  | nil => nomatch hkn
  | cons entry rest ih =>
    obtain ⟨first, known'⟩ := entry
    rw [List.map_cons, List.nodup_cons] at hndp
    have hfst := overloadsOf?_publishOne known' id (hgen _ List.mem_cons_self)
    have hrs : ∀ entry ∈ rest, entry.1.generation = (table.publishOne (first, known')).generation :=
      fun entry he => hgen entry (List.mem_cons_of_mem _ he)
    rw [List.foldl_cons]
    rcases List.mem_cons.mp hkn with heq | hkn
    · cases heq
      rw [overloadsOf?_foldl_publishOne hrs hndp.1, hfst, if_pos rfl]
      obtain ⟨overloads, hovs⟩ := Option.isSome_iff_exists.mp hmth
      rw [hovs, Option.map_some]
    · have hne : first ≠ id := by
        rintro rfl
        exact hndp.1 (List.mem_map.mpr ⟨_, hkn, rfl⟩)
      rw [if_neg hne] at hfst
      exact ih (by rw [hfst]; exact hmth) hkn hrs hndp.2

end SymbolTable

/-! ## Outcomes and issues -/

theorem SolveContext.kind_ne_of_mem_issues {context : SolveContext} {body : Body} {outcome : Outcome}
    (h : context.outcome body = .ok outcome) {issue : Issue} (his : issue ∈ outcome.issues) :
    issue.kind ≠ .unresolvableRecursion := by
  obtain ⟨plan, hpl⟩ := outcome_eq_ok h
  obtain ⟨position, hiss⟩ := hpl.issues
  rw [hiss, issuesOf, List.mem_append, List.mem_append, List.mem_eraseDups, List.mem_flatMap] at his
  rcases his with (⟨run, _, hfailure⟩ | hps) | hbindings
  · obtain ⟨failure, _, rfl⟩ := List.mem_map.mp hfailure
    unfold Failure.issue
    cases failure.kind <;> nofun
  · split at hps
    · rw [List.mem_singleton.mp hps]
      nofun
    · nomatch hps
  · split at hbindings
    · rw [List.mem_singleton.mp hbindings]
      nofun
    · nomatch hbindings

namespace Schedule

variable {problem : Problem} {calls : CallGraph} {history : List RoundRecord} {schedule next : Schedule}

theorem Reached.exists_outcome (h : Reached problem calls history schedule) {body : BodyId} {outcome : Outcome}
    (hstd : schedule.outcomes.get? body = some outcome) :
    ∃ registry, (problem.withRegistry registry).outcome (problem.flow.body body) = .ok outcome := by
  induction h with
  | start => nomatch hstd
  | @round _ schedule _ hrch _ _ hrd ih =>
    obtain ⟨outcomes, hrd⟩ := round_eq_ok hrd
    by_cases hbdy : body ∈ schedule.queue
    · obtain ⟨outcome', hf, hstd'⟩ := hrd.outcome_of_queued hrch.wellFormed hbdy
      rw [hstd'] at hstd
      cases hstd
      exact ⟨_, hf⟩
    · rw [hrd.outcome_of_not_queued hrch.wellFormed hbdy] at hstd
      exact ih hstd
  | release _ _ _ ih =>
    rw [(forces_release problem _).outcomes] at hstd
    exact ih hstd
  | exhaust _ _ _ ih =>
    rw [(forces_exhaust problem _).outcomes] at hstd
    exact ih hstd

/-- What a schedule comes to: the state to which it proceeds, with the outcome of the global body against it. -/
theorem complete_eq_ok (h : complete problem (.start problem calls) = .ok () next) :
    ∃ last outcome, proceed problem (problem.limits.rounds + 2) (.start problem calls) = .ok () last ∧
      (problem.withRegistry last.registry).outcome (problem.flow.body .global) = .ok outcome ∧
      next.registry = last.registry ∧ next.issues = last.issues ∧
      next.outcomes = last.outcomes.insert .global outcome := by
  unfold complete at h
  obtain ⟨_, last, hprc, h⟩ := Step.bind_eq_ok.mp h
  obtain ⟨_, _, hget, h⟩ := Step.bind_eq_ok.mp h
  cases hget
  obtain ⟨outcome, solved, hsol, h⟩ := Step.bind_eq_ok.mp h
  cases h
  obtain ⟨hoc, rfl⟩ := solveOne_eq_ok hsol
  exact ⟨last, outcome, hprc, hoc, rfl, rfl, rfl⟩

end Schedule

/-! ## The solver -/

/-- A system that always has workers. -/
def WorkerPool.ready : WorkerPool := fun _ => .ok ()

theorem IssueLog.eq_of_reportAll {log : IssueLog} {issues issues' : List Issue}
    (h : log.reportAll issues = log.reportAll issues') : issues = issues' := by
  have hiss := congrArg IssueLog.issues h
  rwa [issues_reportAll, issues_reportAll, List.append_cancel_left_eq] at hiss

namespace Solver

variable {solver solver' : Solver} {flow : Flow} {pool : WorkerPool} {log : IssueLog} {issues : List Issue}
  {table' : SymbolTable} {complete : Problem → Step Schedule Unit} {last : Schedule} {history : List RoundRecord}

/-- The solver that has found what a schedule has come to. -/
def settled (solver : Solver) (problem : Problem) (last : Schedule) : Solver :=
  { solver with
    phase := .solved
    calls := last.calls
    results := last.outcomes
    lattice := some problem.lattice
    rounds := last.rounds }

theorem solveBy_of_solved (hph : solver.phase = .solved) :
    solveBy complete pool flow ⟨solver, table, log⟩ = .ok () ⟨solver, table, log⟩ := by
  cases solver
  cases hph
  rfl

theorem solveBy_of_solving (hph : solver.phase = .solving) :
    solveBy complete pool flow ⟨solver, table, log⟩ =
      .error (.invalidSolverState "solve" SolverPhase.solving.render) ⟨solver, table, log⟩ := by
  cases solver
  cases hph
  rfl

/-- All that can become of solving with an idle solver, as long as it is not refused to publish what it finds: it is refused
workers, its schedule is refused, or it publishes and reports. Before it publishes it has changed nothing but itself. -/
theorem solveBy_of_idle (hidl : solver.phase = .idle)
    (hpub : ∀ last, complete (solver.problem table flow) (.start (solver.problem table flow) solver.calls) = .ok () last →
      SymbolTable.publish last.registry table = .ok () (table.publishAll last.registry)) :
    solveBy complete pool flow ⟨solver, table, log⟩ =
      match engage pool solver with
      | .error fault => .error fault ⟨{ solver with phase := .solving }, table, log⟩
      | .ok _ =>
        match complete (solver.problem table flow) (.start (solver.problem table flow) solver.calls) with
        | .error fault last =>
          .error fault ⟨{ solver with phase := .solving, calls := last.calls, rounds := last.rounds }, table, log⟩
        | .ok _ last => .ok () ⟨solver.settled (solver.problem table flow) last, table.publishAll last.registry,
            log.reportAll (last.allIssues (solver.problem table flow))⟩ := by
  have hsame : solver = { solver with phase := .idle } := by
    cases solver
    cases hidl
    rfl
  have hstart : solveBy complete pool flow ⟨solver, table, log⟩ =
      solveBy complete pool flow ⟨{ solver with phase := .idle }, table, log⟩ := by rw [← hsame]
  rw [hstart]
  change EStateM.bind (onSolver (Step.query (engage pool))) _ ⟨{ solver with phase := .solving }, table, log⟩ = _
  unfold EStateM.bind onSolver Step.onPart Step.query
  dsimp only
  have heng : engage pool { solver with phase := .solving } = engage pool solver := rfl
  rw [heng]
  cases engage pool solver with
  | error fault => rfl
  | ok _ =>
    change EStateM.bind (onSolver (goThrough complete (solver.problem table flow))) _
      ⟨{ solver with phase := .solving }, table, log⟩ = _
    unfold EStateM.bind onSolver Step.onPart goThrough
    dsimp only
    cases hcmp : complete (solver.problem table flow) (.start (solver.problem table flow) solver.calls) with
    | error fault last => rfl
    | ok u last =>
      dsimp only
      change EStateM.bind (Step.onPart Solving.table (fun table solving => { solving with table })
        (SymbolTable.publish last.registry)) _
          ⟨{ solver with phase := .solving, calls := last.calls, rounds := last.rounds }, table, log⟩ = _
      unfold EStateM.bind Step.onPart
      dsimp only
      rw [hpub last hcmp]
      rfl

/-- No solver is refused to publish what its schedule has come to, since all functions of the registry are in the table. -/
theorem publish_of_complete {problem : Problem} {calls : CallGraph}
    (h : Schedule.complete problem (.start problem calls) = .ok () last) :
    SymbolTable.publish last.registry problem.table = .ok () (problem.table.publishAll last.registry) := by
  obtain ⟨before, outcome, hprc, _, hreg, _⟩ := complete_eq_ok h
  obtain ⟨history, hrch⟩ := Reached.start.proceed hprc
  refine SymbolTable.publish_eq_ok.mpr ⟨?_, rfl⟩
  rintro ⟨id, known⟩ hen
  rw [hreg, ← OrderedMap.get?_eq_some_iff] at hen
  obtain ⟨symbol, _, hsym, _⟩ := hrch.isSome_iff.mp (Option.isSome_of_mem hen)
  exact Option.isSome_of_mem hsym

/-- What an idle solver has done that is not refused: it has gone through its schedule to the end, has solved the global
body against what is final then, has published all of it and reports the issues of all bodies and of the schedule. -/
structure Finishes (solver : Solver) (table : SymbolTable) (flow : Flow) (last : Schedule) (outcome : Outcome)
    (solver' : Solver) (table' : SymbolTable) (issues : List Issue) : Prop where
  proceeds : Schedule.proceed (solver.problem table flow) (solver.limits.rounds + 2)
    (.start (solver.problem table flow) solver.calls) = .ok () last
  global : ((solver.problem table flow).withRegistry last.registry).outcome (flow.body .global) = .ok outcome
  published : table' = table.publishAll last.registry
  results : solver'.results = last.outcomes.insert .global outcome
  phase : solver'.phase = .solved
  issues : ∀ issue, issue ∈ issues ↔ issue ∈ last.issues ∨
    ∃ body outcome, body ∈ flow.bodies.keys ∧ solver'.results.get? body = some outcome ∧ issue ∈ outcome.issues

theorem solve_eq_ok {after : Solving} (hidl : solver.phase = .idle)
    (h : solve pool flow ⟨solver, table, log⟩ = .ok () after) :
    ∃ last outcome issues, Finishes solver table flow last outcome after.solver after.table issues ∧
      after.issues = log.reportAll issues := by
  unfold solve at h
  rw [solveBy_of_idle hidl fun _ => publish_of_complete] at h
  split at h
  · nomatch h
  · split at h
    · nomatch h
    · next next hcmp =>
      cases h
      obtain ⟨last, outcome, hprc, hoc, hreg, hiss, hocs⟩ := complete_eq_ok hcmp
      refine ⟨last, outcome, _, ⟨hprc, hoc, by rw [hreg], hocs, rfl, fun issue => ?_⟩, rfl⟩
      rw [allIssues, List.mem_append, List.mem_flatMap, hiss, or_comm]
      refine or_congr_right ⟨?_, ?_⟩
      · rintro ⟨body, hbdy, his⟩
        split at his
        · next outcome' hstd => exact ⟨body, outcome', hbdy, hstd, his⟩
        · nomatch his
      · rintro ⟨body, outcome', hbdy, hstd, his⟩
        have hstd : next.outcomes.get? body = some outcome' := hstd
        exact ⟨body, hbdy, by rwa [hstd]⟩

theorem finishes_of_solve (hidl : solver.phase = .idle)
    (h : solve pool flow ⟨solver, table, log⟩ = .ok () ⟨solver', table', log.reportAll issues⟩) :
    ∃ last outcome, Finishes solver table flow last outcome solver' table' issues := by
  obtain ⟨last, outcome, issues', hfin, hiss⟩ := solve_eq_ok hidl h
  cases IssueLog.eq_of_reportAll hiss
  exact ⟨last, outcome, hfin⟩

/-- A solver that answers reports issues. -/
theorem exists_issues_of_isOk (hidl : solver.phase = .idle)
    (h : ((solve pool flow).answer ⟨solver, table, log⟩).isOk = true) :
    ∃ solver' table' issues, solve pool flow ⟨solver, table, log⟩ = .ok () ⟨solver', table', log.reportAll issues⟩ := by
  unfold Step.answer at h
  split at h
  · next after hsol =>
    obtain ⟨_, _, issues, _, hiss⟩ := solve_eq_ok hidl hsol
    exact ⟨after.solver, after.table, issues, by rw [hsol, ← hiss]⟩
  · nomatch h

namespace Finishes

variable {outcome : Outcome} (h : Finishes solver table flow last outcome solver' table' issues)
include h

theorem reached : ∃ history, Reached (solver.problem table flow) solver.calls history last := Reached.start.proceed h.proceeds

theorem allFinal : last.AllFinal (solver.problem table flow) :=
  Reached.start.allFinal_proceed (.inr (show solver.limits.rounds - 0 < solver.limits.rounds + 2 by omega)) h.proceeds

theorem issues_subset : last.issues ⊆ issues := fun issue his => (h.issues issue).mpr (.inl his)

theorem outcome?_function (id : SymbolId) : solver'.outcome? (.function id) = last.outcomes.get? (.function id) := by
  rw [outcome?, h.results, OrderedMap.get?_insert, if_neg nofun]

/-- The issues about recursion are those of the schedule: the issues of a body are about its calls and the limits. -/
theorem mem_issues_of_kind {issue : Issue} (his : issue ∈ issues) (hk : issue.kind = .unresolvableRecursion) :
    issue ∈ last.issues := by
  rcases (h.issues issue).mp his with his | ⟨body, outcome', _, hstd, his⟩
  · exact his
  · refine absurd hk ?_
    rw [h.results, OrderedMap.get?_insert] at hstd
    split at hstd
    · cases hstd
      exact SolveContext.kind_ne_of_mem_issues h.global his
    · obtain ⟨history, hrch⟩ := h.reached
      obtain ⟨registry, hfnd⟩ := hrch.exists_outcome hstd
      exact SolveContext.kind_ne_of_mem_issues hfnd his

end Finishes

end Solver

end SoftTyping
