import SoftTyping.Proofs.Schedule.BottomUp
import SoftTyping.Proofs.Schedule.Termination

/-!
# Which published overloads hold together

What is published of a function in the end should be what its body gives against what is published of the functions it
calls. This is so for every function that waits for nothing (`Reached.wakes`). Functions that wait for each other are made
final as they are and solved once more, all of them against what they were made final with, so that one of them may rest on
overloads of another that the same round replaces: `solve_not_consistent` is such a program. Main statement:
`Solver.solve_consistent`, which says of every function that this is the only way in which it can come to that.
-/

namespace SoftTyping

open Refusal OrderedMap SolveContext Schedule

theorem SolveContext.finalOverloads_ne_nil {context : SolveContext} {body : Body} {outcome : Outcome} {id : SymbolId}
    (hbdy : body.id = .function id) (h : context.outcome body = .ok outcome) : outcome.finalOverloads ≠ [] := by
  unfold SolveContext.outcome at h
  obtain ⟨plan, hpl, h⟩ := bind_eq_ok.mp h
  obtain ⟨position, _, h⟩ := bind_eq_ok.mp h
  simp only [hbdy] at h
  obtain ⟨modifiers, _, h⟩ := bind_eq_ok.mp h
  cases h
  have hfold : ∀ (overloads found : List Overload), found ≠ [] ∨ overloads ≠ [] →
      overloads.foldl includeOnce found ≠ [] := by
    intro overloads
    induction overloads with
    | nil => intro found hso; exact hso.resolve_right (absurd rfl)
    | cons overload rest ih => intro found _; exact ih _ (.inl (includeOnce_ne_nil found overload))
  refine hfold _ _ (.inr ?_)
  rw [List.map_map, Ne, List.map_eq_nil_iff]
  exact Plan.solve_ne_nil (plan_keepsForkable hpl)

theorem SolveContext.limitIssue_of_no_passes {context : SolveContext} {body : Body} {outcome : Outcome}
    (hps : context.limits.passes = 0) (h : context.outcome body = .ok outcome) :
    ∃ issue ∈ outcome.issues, issue.kind = .iterationCapReached := by
  obtain ⟨plan, hpl⟩ := outcome_eq_ok h
  obtain ⟨position, hiss⟩ := hpl.issues
  obtain ⟨run, hrun⟩ := List.exists_mem_of_ne_nil _ (Plan.solve_ne_nil (plan_keepsForkable hpl.planned))
  obtain ⟨tolerant, hens⟩ := Plan.ends_of_mem_solve hrun
  refine ⟨limitIssue position "passes" context.limits.passes, ?_, rfl⟩
  have hcap : ((plan.solve context.lattice context.limits).1.any (·.capped)) = true :=
    List.any_eq_true.mpr ⟨run, hrun, hens.capped_of_no_passes hps⟩
  rw [hiss, issuesOf, if_pos hcap]
  simp

namespace Schedule

variable {problem : Problem} {calls : CallGraph} {history : List RoundRecord} {schedule next before last after : Schedule}
  {id : SymbolId} {outcome : Outcome} {outcomes : List Outcome}

/-! ## How a schedule ends -/

/-- The states in which a schedule ends: nothing is left to do, or the rounds are used up, either when functions that wait
for each other have just been released or when some are still queued. -/
inductive Ended (problem : Problem) (calls : CallGraph) : Schedule → Prop where
  | done {history : List RoundRecord} {schedule : Schedule} :
    Reached problem calls history schedule → schedule.queue = [] → schedule.registry.unfinished = [] →
      Ended problem calls schedule
  | released {history : List RoundRecord} {schedule : Schedule} :
    Reached problem calls history schedule → schedule.queue = [] → schedule.registry.unfinished ≠ [] →
      problem.limits.rounds ≤ schedule.rounds → Ended problem calls (schedule.released problem)
  | exhausted {history : List RoundRecord} {schedule : Schedule} :
    Reached problem calls history schedule → schedule.queue ≠ [] → problem.limits.rounds ≤ schedule.rounds →
      Ended problem calls (schedule.exhausted problem)

theorem Reached.ended_proceed {steps : Nat} (h : Reached problem calls history schedule)
    (hsteps : todo problem schedule ≤ steps) (hprc : Schedule.proceed problem steps schedule = .ok () next) :
    Ended problem calls next := by
  induction steps generalizing history schedule with
  | zero => exact absurd hsteps (by unfold todo; omega)
  | succ steps ih =>
    rcases h.proceed_succ_eq_ok hprc with ⟨hqu, hno, rfl⟩ | ⟨hqu, hop, hnx⟩ |
      ⟨hqu, hrds, mid, hrd, hnx⟩ | ⟨hqu, hrds, rfl⟩
    · exact .done h hqu hno
    · have hless := todo_release problem hop
      split at hnx
      · exact ih (h.released hqu hop) (by omega) hnx
      · next hrds => exact hnx ▸ .released h hqu hop (by omega)
    · have hless := todo_round h hrds hrd
      exact ih (h.round hqu hrds hrd) (by omega) hnx
    · exact .exhausted h hqu hrds

/-! ## The round after a release -/

theorem mem_queue_release (hqu : schedule.queue = []) {body : BodyId} :
    body ∈ (schedule.released problem).queue ↔ ∃ id ∈ schedule.registry.unfinished, body = .function id := by
  unfold released
  rw [List.mem_append, List.mem_map]
  constructor
  · rintro (⟨id, hid, rfl⟩ | hwoken)
    · exact ⟨id, hid, rfl⟩
    · obtain ⟨_, _, _, _, hframe⟩ := foldl_wake_frame schedule.registry.unfinished (schedule.allForced problem)
      rcases hframe body hwoken with hold | hop
      · rw [allForced, (foldl_forced_frame problem _ _ _).2.2.1, hqu] at hold
        cases hold
      · cases body with
        | global => cases hop
        | function id =>
          obtain ⟨known, hkn, hop⟩ := Registry.isOpen_function.mp hop
          rw [(forces_allForced problem schedule).allFinal id known hkn] at hop
          cases hop
  · rintro ⟨id, hid, rfl⟩
    exact .inl ⟨id, hid, rfl⟩

theorem IsRound.queue_eq_nil (h : IsRound problem schedule outcomes next) (hfm : schedule.WellFormed problem)
    (hall : schedule.registry.unfinished = []) : next.queue = [] := by
  rw [unfinished_eq_nil] at hall
  refine h.induction hfm (fun _ now => now.queue = []) rfl ?_
  intro todo now outcome id known woken after htk _ habs hnow
  rw [List.eq_nil_iff_forall_not_mem]
  intro body hbdy
  rcases (habs.queue body).mp hbdy with hold | ⟨hwoken, _⟩
  · rw [hnow] at hold
    nomatch hold
  · have hop := habs.awake hwoken
    rw [hall id known htk.known] at hop
    nomatch hop

theorem issues_subset_foldl_forced (problem : Problem) (report : RecursionReport) (ids : List SymbolId)
    (schedule : Schedule) : schedule.issues ⊆ (ids.foldl (forced problem report) schedule).issues := by
  induction ids generalizing schedule with
  | nil => exact List.Subset.refl _
  | cons first rest ih =>
    intro issue his
    exact ih (schedule.forced problem report first) (List.mem_append_left _ his)

theorem issues_subset_release (problem : Problem) (schedule : Schedule) :
    schedule.issues ⊆ (schedule.released problem).issues := by
  intro issue his
  change issue ∈ (schedule.registry.unfinished.foldl wake (schedule.allForced problem)).issues
  rw [(foldl_wake_frame _ _).2.2.2.1]
  exact issues_subset_foldl_forced problem _ _ schedule his

theorem limitIssue_mem_exhaust (problem : Problem) (schedule : Schedule) :
    limitIssue .origin "rounds" problem.limits.rounds ∈ (schedule.exhausted problem).issues :=
  issues_subset_foldl_forced problem _ _ _ (List.mem_append_right _ (List.mem_singleton_self _))

theorem get?_allForced (hop : id ∈ schedule.registry.unfinished) :
    (schedule.allForced problem).registry.get? id = some { overloads := schedule.finalNow problem id, final := true } := by
  have hfcd : ∀ (ids : List SymbolId) (now : Schedule), now.outcomes = schedule.outcomes → id ∈ ids →
      (ids.foldl (forced problem schedule.calls.recursion) now).registry.get? id =
        some { overloads := schedule.finalNow problem id, final := true } := by
    intro ids
    induction ids with
    | nil => intro now _ hid; nomatch hid
    | cons first rest ih =>
      intro now hocs hid
      rw [List.foldl_cons]
      by_cases hrs : id ∈ rest
      · exact ih _ hocs hrs
      · obtain rfl : id = first := (List.mem_cons.mp hid).resolve_right hrs
        rw [get?_foldl_forced _ _ _ _ hrs, forced, get?_insert, if_pos rfl, finalNow, hocs,
          ← finalNow]
  exact hfcd _ schedule rfl hop

theorem get?_release (hop : id ∈ schedule.registry.unfinished) :
    (schedule.released problem).registry.get? id =
      some { overloads := schedule.finalNow problem id, final := true } := by
  change (schedule.registry.unfinished.foldl wake (schedule.allForced problem)).registry.get? id = _
  rw [(foldl_wake_frame _ _).1, get?_allForced hop]

/-- One state comes from another by releasing the functions that wait for each other and solving them once more. -/
structure Refreshes (problem : Problem) (before after : Schedule) : Prop where
  idle : before.queue = []
  opened : before.registry.unfinished ≠ []
  refreshed : round problem (before.released problem) = .ok () after
  settled : after.queue = []

/-- What a reached state is: one in which the final functions are steady, one in which functions have just been released,
one after the round that follows, or one in which the rounds have been used up. -/
theorem Reached.origin (hps : problem.limits.passes ≠ 0) (h : Reached problem calls history schedule) :
    (schedule.Steady problem fun _ => True) ∨
    (∃ history before, Reached problem calls history before ∧ before.queue = [] ∧ before.registry.unfinished ≠ [] ∧
      schedule = before.released problem) ∨
    (∃ history before, Reached problem calls history before ∧ Refreshes problem before schedule) ∨
    limitIssue .origin "rounds" problem.limits.rounds ∈ schedule.issues := by
  induction h with
  | start =>
    refine .inl fun id _ hfin hbdy => ?_
    obtain ⟨known, hkn, hfin⟩ := hfin
    rw [(start_open hkn).mpr hbdy] at hfin
    nomatch hfin
  | round hrch hqu _ hrd ih =>
    obtain ⟨outcomes, hisRound⟩ := round_eq_ok hrd
    rcases ih with hsty | ⟨history, before, hbef, hidl, hop, rfl⟩ | ⟨_, _, _, hrfs⟩ | hlimit
    · exact .inl (hisRound.steady hrch.wellFormed hps (fun _ _ _ _ => trivial) hsty)
    · refine .inr (.inr (.inl ⟨history, before, hbef, hidl, hop, hrd, ?_⟩))
      refine hisRound.queue_eq_nil hrch.wellFormed (unfinished_eq_nil.mpr ?_)
      exact (forces_release problem before).allFinal
    · exact absurd hrfs.settled hqu
    · rw [hisRound.issues_eq hrch.wellFormed]
      exact .inr (.inr (.inr hlimit))
  | @release history schedule hrch hidl hop _ => exact .inr (.inl ⟨history, schedule, hrch, hidl, hop, rfl⟩)
  | @exhaust _ schedule _ _ _ _ => exact .inr (.inr (.inr (limitIssue_mem_exhaust problem schedule)))

/-! ## Functions that stay steady -/

theorem Reached.steady_of_open (hps : problem.limits.passes ≠ 0) (h : Reached problem calls history schedule)
    (hop : schedule.registry.unfinished ≠ []) : schedule.Steady problem fun _ => True := by
  rcases h.wakes hps with hall | ⟨hsty, _⟩
  · obtain ⟨id, hid⟩ := List.exists_mem_of_ne_nil _ hop
    obtain ⟨known, hkn, hfin⟩ := Registry.mem_unfinished.mp hid
    have hfn : problem.IsFunction id := by
      rw [← h.isSome_iff, hkn]
      rfl
    have := (Registry.isFinal_of_get? hkn).mp (hall id hfn)
    rw [hfin] at this
    nomatch this
  · exact hsty

theorem IsSteady.forces (h : IsSteady problem schedule id outcome) (hfcs : Forces problem schedule next) :
    IsSteady problem next id outcome := by
  refine h.congr ?_ (hfcs.kept id ⟨_, h.published, rfl⟩) fun callee hcs =>
    hfcs.kept callee (h.callees callee hcs)
  rw [hfcs.outcomes, h.stored]

theorem get?_of_refreshes (h : Reached problem calls history before)
    (hrfs : Refreshes problem before after) (hfin : before.registry.IsFinal id) :
    after.registry.get? id = before.registry.get? id ∧
      after.outcomes.get? (.function id) = before.outcomes.get? (.function id) := by
  have hfcs := forces_release problem before
  obtain ⟨outcomes, hrd⟩ := round_eq_ok hrfs.refreshed
  have hfm := wellFormed_release h.wellFormed
  have hqu : .function id ∉ (before.released problem).queue := by
    rw [mem_queue_release hrfs.idle]
    rintro ⟨other, hoth, heq⟩
    cases heq
    obtain ⟨known, hkn, hop⟩ := Registry.mem_unfinished.mp hoth
    rw [Registry.isFinal_of_get? hkn, hop] at hfin
    exact Bool.false_ne_true hfin
  rw [hrd.get?_of_not_queued hfm hqu, hrd.outcome_of_not_queued hfm hqu, hfcs.outcomes]
  exact ⟨hfcs.kept id hfin, rfl⟩

theorem IsSteady.refreshes (hsty : IsSteady problem before id outcome)
    (h : Reached problem calls history before) (hrfs : Refreshes problem before after) :
    IsSteady problem after id outcome := by
  obtain ⟨hself, hstd⟩ := get?_of_refreshes h hrfs ⟨_, hsty.published, rfl⟩
  refine hsty.congr (hstd.trans hsty.stored) hself fun callee hcs => ?_
  exact (get?_of_refreshes h hrfs (hsty.callees callee hcs)).1

/-- A function that was released and solved once more is steady if what is published of the functions it calls is what they
were released with. -/
theorem isSteady_of_refreshes (h : Reached problem calls history before)
    (hrfs : Refreshes problem before after) (hop : id ∈ before.registry.unfinished)
    (hces : ∀ callee, problem.Calls (.function id) callee →
      after.registry.get? callee = (before.released problem).registry.get? callee) :
    ∃ outcome, IsSteady problem after id outcome := by
  have hfcs := forces_release problem before
  have hfm := wellFormed_release h.wellFormed
  obtain ⟨outcomes, hrd⟩ := round_eq_ok hrfs.refreshed
  have hqu : .function id ∈ (before.released problem).queue :=
    (mem_queue_release hrfs.idle).mpr ⟨id, hop, rfl⟩
  have hkn : (before.released problem).registry.get? id = some ⟨before.finalNow problem id, true⟩ :=
    get?_release hop
  obtain ⟨known, outcome, htk, hstd, hget⟩ := hrd.takes_of_queued hfm hqu
  cases htk.known.symm.trans hkn
  refine ⟨outcome, hstd, (Problem.outcome_congr hces).trans htk.found, ?_, fun callee hcs => ?_⟩
  · have hso : outcome.finalOverloads.isEmpty = false := by
      rw [List.isEmpty_eq_false_iff]
      exact finalOverloads_ne_nil (Flow.id_body _ _) htk.found
    rw [hget]
    simp [Published.revised, hso]
  · have hfn : (before.released problem).registry.IsFinal callee :=
      h.allFinal_of_forces hfcs callee hcs.1
    exact hfn.congr (hces callee hcs)

/-! ## What the end of a schedule says -/

/-- Until the rounds are used up, a function with a body is queued or has an outcome. -/
theorem Reached.queued_or_stored (h : Reached problem calls history schedule) (hid : problem.IsFunction id)
    (hbdy : (problem.flow.body? (.function id)).isSome) :
    .function id ∈ schedule.queue ∨ (∃ outcome, schedule.outcomes.get? (.function id) = some outcome) ∨
      limitIssue .origin "rounds" problem.limits.rounds ∈ schedule.issues := by
  induction h with
  | start =>
    obtain ⟨known, hkn⟩ := Option.isSome_iff_exists.mp ((@Reached.start problem calls).isSome_iff.mpr hid)
    refine .inl (List.mem_filter.mpr ⟨contains_iff_mem_keys.mp hbdy, ?_⟩)
    exact Registry.isOpen_function.mpr ⟨known, hkn, (start_open hkn).mpr hbdy⟩
  | @round _ schedule _ hrch _ _ hrd ih =>
    obtain ⟨outcomes, hrd⟩ := round_eq_ok hrd
    by_cases hqueued : .function id ∈ schedule.queue
    · obtain ⟨outcome, _, hstd⟩ := hrd.outcome_of_queued hrch.wellFormed hqueued
      exact .inr (.inl ⟨outcome, hstd⟩)
    · rw [hrd.outcome_of_not_queued hrch.wellFormed hqueued, hrd.issues_eq hrch.wellFormed]
      exact .inr (ih.resolve_left hqueued)
  | @release _ schedule _ hidl _ ih =>
    rw [hidl] at ih
    rw [(forces_release problem schedule).outcomes]
    exact .inr ((ih.resolve_left nofun).imp_right fun hlimit => issues_subset_release problem schedule hlimit)
  | @exhaust _ schedule _ _ _ _ => exact .inr (.inr (limitIssue_mem_exhaust problem schedule))

theorem Ended.stored (h : Ended problem calls last) (hid : problem.IsFunction id)
    (hbdy : (problem.flow.body? (.function id)).isSome) :
    (∃ outcome, last.outcomes.get? (.function id) = some outcome) ∨
      limitIssue .origin "rounds" problem.limits.rounds ∈ last.issues := by
  cases h with
  | done h hqu _ =>
    have hstd := h.queued_or_stored hid hbdy
    rw [hqu] at hstd
    exact hstd.resolve_left nofun
  | @released _ before h hqu _ _ =>
    have hstd := h.queued_or_stored hid hbdy
    rw [hqu] at hstd
    rw [(forces_release problem before).outcomes]
    exact (hstd.resolve_left nofun).imp_right fun hmem => issues_subset_release problem before hmem
  | exhausted => exact .inr (limitIssue_mem_exhaust problem _)

/-- The functions called by a function that had to be made final as they were have been solved once more, which has left
their overloads as they were. -/
def RefreshKeeps (problem : Problem) (calls : CallGraph) (overloadsOf? : SymbolId → Option (List Overload))
    (id : SymbolId) : Prop :=
  ∀ history before, Reached problem calls history before → before.queue = [] →
    ∀ callee ∈ before.registry.unfinished, problem.Calls (.function id) callee →
      before.rounds < problem.limits.rounds ∧ overloadsOf? callee = some (before.finalNow problem callee)

theorem Reached.isFinal_of_unfinished (h : Reached problem calls history schedule) (hid : problem.IsFunction id)
    (hop : id ∉ schedule.registry.unfinished) : schedule.registry.IsFinal id := by
  by_contra hfin
  exact hop (Registry.mem_unfinished.mpr (h.open_of_not_isFinal hid hfin))

/-- Where a schedule ends with rounds left, a function is steady if the refreshed functions that it calls are as before. -/
theorem Ended.exists_isSteady (hps : problem.limits.passes ≠ 0) (h : Ended problem calls last)
    (hlimit : limitIssue .origin "rounds" problem.limits.rounds ∉ last.issues) (hid : problem.IsFunction id)
    (hbdy : (problem.flow.body? (.function id)).isSome)
    (hkp : RefreshKeeps problem calls (fun callee => (last.registry.get? callee).map (·.overloads)) id) :
    ∃ outcome, IsSteady problem last id outcome := by
  cases h with
  | exhausted => exact absurd (limitIssue_mem_exhaust problem _) hlimit
  | @released _ before hbef hqu hop hrds =>
    by_cases hfin : before.registry.IsFinal id
    · obtain ⟨outcome, hsty⟩ := hbef.steady_of_open hps hop id trivial hfin hbdy
      exact ⟨outcome, hsty.forces (forces_release problem before)⟩
    · -- A function that waits calls an open one, which is not solved once more.
      obtain ⟨callee, hcs, hce⟩ := hbef.exists_open_callee hps hid hfin (by rw [hqu]; nofun)
      have hmem := Registry.mem_unfinished.mpr (hbef.open_of_not_isFinal hcs.1 hce)
      have hleft := (hkp _ before hbef hqu callee hmem hcs).1
      omega
  | done hls hqu hno =>
    rcases hls.origin hps with hsty | ⟨_, before, _, hidl, hop, rfl⟩ | ⟨_, before, hbef, hrfs⟩ |
      hmem
    · exact hsty id trivial (hls.isFinal_of_unfinished hid (by rw [hno]; nofun)) hbdy
    · obtain ⟨first, hfst⟩ := List.exists_mem_of_ne_nil _ hop
      have hqueued : .function first ∈ (before.released problem).queue :=
        (mem_queue_release hidl).mpr ⟨first, hfst, rfl⟩
      rw [hqu] at hqueued
      nomatch hqueued
    · by_cases hfin : before.registry.IsFinal id
      · obtain ⟨outcome, hsty⟩ := hbef.steady_of_open hps hrfs.opened id trivial hfin hbdy
        exact ⟨outcome, hsty.refreshes hbef hrfs⟩
      · refine isSteady_of_refreshes hbef hrfs
          (Registry.mem_unfinished.mpr (hbef.open_of_not_isFinal hid hfin)) fun callee hcs => ?_
        by_cases hce : callee ∈ before.registry.unfinished
        · obtain ⟨_, hkt⟩ := hkp _ before hbef hrfs.idle callee hce hcs
          obtain ⟨known, hkn, hovs⟩ := Option.map_eq_some_iff.mp hkt
          obtain ⟨known', hkn', hisFinal⟩ := hls.isFinal_of_unfinished hcs.1 (by rw [hno]; nofun)
          cases hkn'.symm.trans hkn
          rw [get?_release hce, hkn, ← hovs, ← hisFinal]
        · have hce := hbef.isFinal_of_unfinished hcs.1 hce
          rw [(get?_of_refreshes hbef hrfs hce).1, (forces_release problem before).kept callee hce]
    · exact absurd hmem hlimit

end Schedule

namespace Solver

variable {solver solver' : Solver} {table table' : SymbolTable} {flow : Flow} {issues : List Issue} {id : SymbolId}
  {history : List Schedule.RoundRecord} {pool : WorkerPool} {log : IssueLog}

theorem Finishes.ended {last : Schedule} {outcome : Outcome}
    (h : Finishes solver table flow last outcome solver' table' issues) :
    Ended (solver.problem table flow) solver.calls last := by
  refine Schedule.Reached.start.ended_proceed ?_ h.proceeds
  unfold Schedule.todo
  change solver.limits.rounds - 0 + _ + 1 ≤ solver.limits.rounds + 2
  split <;> omega

/-- What a steady function is found to be against any registry that holds what the table publishes in the end. -/
theorem outcome_of_isSteady {last : Schedule} {outcome : Outcome}
    (h : Reached (solver.problem table flow) solver.calls history last)
    (hsty : IsSteady (solver.problem table flow) last id outcome) {registry : Registry}
    (hreg : ∀ callee overloads, (solver.problem table flow).Calls (.function id) callee →
      (table.publishAll last.registry).overloadsOf? callee = some overloads →
        registry.get? callee = some { overloads, final := true }) :
    ((solver.problem table flow).withRegistry registry).outcome (flow.body (.function id)) = .ok outcome := by
  have hagree : (solver.problem table flow).Agree (.function id) registry last.registry := by
    intro callee hcs
    obtain ⟨known, hkn, hfin⟩ := hsty.callees callee hcs
    rw [hreg callee known.overloads hcs (overloadsOf?_of_reached h hkn), hkn, ← hfin]
  exact (Problem.outcome_congr hagree).trans hsty.found

/-- When no limit was reached, a function of the program that has a body is published with what its body gives against
what is published in the end, its issues included, as long as the functions that it calls and that had to be made final as
they were have been solved once more, and have been left as they were by that. -/
theorem solve_consistent (hidle : solver.phase = .idle)
    (hsolve : solve pool flow ⟨solver, table, log⟩ = .ok () ⟨solver', table', log.reportAll issues⟩)
    (hlimits : ∀ issue ∈ issues, issue.kind ≠ .iterationCapReached)
    (hid : (solver.problem table flow).IsFunction id) (hbody : (flow.body? (.function id)).isSome)
    (hkeeps : Schedule.RefreshKeeps (solver.problem table flow) solver.calls table'.overloadsOf? id) :
    ∃ outcome, solver'.outcome? (.function id) = some outcome ∧
      table'.overloadsOf? id = some outcome.finalOverloads ∧ outcome.issues ⊆ issues ∧
      (∀ callee, (solver.problem table flow).Calls (.function id) callee → (table'.overloadsOf? callee).isSome) ∧
      ∀ registry : Registry,
        (∀ callee overloads, (solver.problem table flow).Calls (.function id) callee →
          table'.overloadsOf? callee = some overloads → registry.get? callee = some { overloads, final := true }) →
        ((solver.problem table flow).withRegistry registry).outcome (flow.body (.function id)) = .ok outcome := by
  obtain ⟨last, _, hfinishes⟩ := finishes_of_solve hidle hsolve
  obtain ⟨history, hreached⟩ := hfinishes.reached
  have hreported : ∀ outcome, last.outcomes.get? (.function id) = some outcome → outcome.issues ⊆ issues := by
    intro outcome hstored issue hissue
    have hresult := (hfinishes.outcome?_function id).trans hstored
    exact (hfinishes.issues issue).mpr (.inr ⟨_, outcome, contains_iff_mem_keys.mp hbody, hresult, hissue⟩)
  have hrounds : limitIssue .origin "rounds" solver.limits.rounds ∉ last.issues := fun hmem =>
    hlimits _ (hfinishes.issues_subset hmem) rfl
  have hpublished : ∀ {callee known}, last.registry.get? callee = some known →
      table'.overloadsOf? callee = some known.overloads := fun hknown =>
    hfinishes.published ▸ overloadsOf?_of_reached hreached hknown
  have hpasses : (solver.problem table flow).limits.passes ≠ 0 := by
    intro hnone
    rcases hfinishes.ended.stored hid hbody with ⟨outcome, hstored⟩ | hmem
    · obtain ⟨registry, hfound⟩ := hreached.exists_outcome hstored
      obtain ⟨issue, hissue, hkind⟩ := SolveContext.limitIssue_of_no_passes hnone hfound
      exact hlimits issue (hreported outcome hstored hissue) hkind
    · exact hrounds hmem
  have hlastKeeps : Schedule.RefreshKeeps (solver.problem table flow) solver.calls
      (fun callee => (last.registry.get? callee).map (·.overloads)) id := by
    intro history before hbefore hqueue callee hopen hcalls
    obtain ⟨hleft, hkept⟩ := hkeeps history before hbefore hqueue callee hopen hcalls
    obtain ⟨known, hknown⟩ := Option.isSome_iff_exists.mp (hreached.isSome_iff.mpr hcalls.1)
    rw [hpublished hknown] at hkept
    refine ⟨hleft, ?_⟩
    dsimp only
    rw [hknown, Option.map_some, hkept]
  obtain ⟨outcome, hsteady⟩ := hfinishes.ended.exists_isSteady hpasses hrounds hid hbody hlastKeeps
  refine ⟨outcome, (hfinishes.outcome?_function id).trans hsteady.stored, hpublished hsteady.published,
    hreported outcome hsteady.stored, fun callee hcalls => ?_, fun registry hregistry => ?_⟩
  · obtain ⟨known, hknown, _⟩ := hsteady.callees callee hcalls
    rw [hpublished hknown]
    rfl
  · exact outcome_of_isSteady hreached hsteady (hfinishes.published ▸ hregistry)

/-- A table with the types `mixed` and `bool`, a built-in `isInt`, and two functions. -/
def knotTable : SymbolTable :=
  let table := SymbolTable.new 0
  { table with
    scopes := table.scopes.modify 1 fun core => { core with symbols := fileUnder core.symbols "mixed" ⟨0, 1⟩ }
    symbols := table.symbols ++ #[
      { name := "mixed", position := .origin, data := .type { kind := .primitive, absoluteName := "mixed" } },
      { name := "bool", position := .origin,
        data := .type { kind := .primitive, absoluteName := "bool", parents := [⟨0, 1⟩] } },
      { name := "isInt", position := .origin, data := .method {
          kind := .function
          overloads := [{
            method := ⟨0, 3⟩, parameters := [{ bound := .single "mixed" ⟨0, 1⟩ }], result := .single "bool" ⟨0, 2⟩ }]
          isBuiltin := true } },
      { name := "first", position := .origin, data := .method { kind := .function, isBuiltin := false } },
      { name := "second", position := .origin, data := .method { kind := .function, isBuiltin := false } }] }

/-- The flow of two functions that call each other: the first returns what the second returns, and the second returns
whether what the first returns is an integer. -/
def knotFlow : Flow :=
  let flow := (Flow.empty.add "second()" .origin (.function ⟨0, 4⟩) (.call ⟨0, 5⟩ [] 0)).2
  let flow := flow.updateBody (.function ⟨0, 4⟩) fun body => { body with returns := some ⟨0⟩ }
  let flow := (flow.add "first()" .origin (.function ⟨0, 5⟩) (.call ⟨0, 4⟩ [] 0)).2
  let flow := (flow.add "isInt()" .origin (.function ⟨0, 5⟩) (.call ⟨0, 3⟩ [⟨1⟩] 1)).2
  flow.updateBody (.function ⟨0, 5⟩) fun body => { body with returns := some ⟨2⟩ }

deriving instance DecidableEq for OrderedMap, Union, ParameterType, Overload

/-- What solving the two functions gives. -/
def knotSolved : Solving := (solve .ready knotFlow).leaves ⟨{ limits := {} }, knotTable, {}⟩

/-- What is published of the two functions in the end, both final. -/
def knotRegistry : Registry :=
  [⟨0, 4⟩, ⟨0, 5⟩].foldl
    (fun registry id => registry.insert id { overloads := (knotSolved.table.overloadsOf? id).getD [], final := true }) ∅

/-- The state of the schedule of the two functions when both wait for each other. -/
def knotWaiting : Schedule :=
  (Schedule.round (problem { limits := {} } knotTable knotFlow)).leaves
    (.start (problem { limits := {} } knotTable knotFlow) ∅)

/-- The states that the schedule of the two functions goes through: they are solved, released and solved once more. -/
theorem knot_reached {before : Schedule} (h : Reached (problem { limits := {} } knotTable knotFlow) ∅ history before) :
    (before.queue ≠ [] ∧ before.rounds = 0 ∧ before = .start (problem { limits := {} } knotTable knotFlow) ∅) ∨
    before = knotWaiting ∨
    (before.queue ≠ [] ∧ before.rounds = 1 ∧ before = knotWaiting.released (problem { limits := {} } knotTable knotFlow)) ∨
    (before.queue = [] ∧ before.registry.unfinished = []) := by
  have hwt : knotWaiting.queue = [] := by decide +kernel
  induction h with
  | start => exact .inl ⟨by decide, rfl, rfl⟩
  | round _ hqu _ hrd ih =>
    have hleaves := Step.leaves_of_eq_ok hrd
    rcases ih with ⟨_, _, rfl⟩ | rfl | ⟨_, _, rfl⟩ | ⟨hidl, _⟩
    · exact .inr (.inl hleaves.symm)
    · exact absurd hwt hqu
    · refine .inr (.inr (.inr ?_))
      rw [← hleaves]
      exact ⟨by decide +kernel, by decide +kernel⟩
    · exact absurd hidl hqu
  | release _ hidl hop ih =>
    rcases ih with ⟨hqu, _⟩ | rfl | ⟨hqu, _⟩ | ⟨_, hno⟩
    · exact absurd hidl hqu
    · refine .inr (.inr (.inl ⟨?_, by decide +kernel, rfl⟩))
      have hso : (knotWaiting.released (problem { limits := {} } knotTable knotFlow)).queue.isEmpty = false := by decide +kernel
      exact List.isEmpty_eq_false_iff.mp hso
    · exact absurd hidl hqu
    · exact absurd hno hop
  | exhaust _ hqu hrds ih =>
    have hlimit : (problem { limits := {} } knotTable knotFlow).limits.rounds = 32 := rfl
    rcases ih with ⟨_, hzero, _⟩ | rfl | ⟨_, hone, _⟩ | ⟨hidl, _⟩
    · omega
    · exact absurd hwt hqu
    · omega
    · exact absurd hidl hqu

/-- The second of the two functions is published with what its body gives, though it had to be made final as it was. -/
theorem solve_consistent_knot :
    ∃ solver' table' issues outcome,
      solve .ready knotFlow ⟨{ limits := {} }, knotTable, {}⟩ =
        .ok () ⟨solver', table', ({} : IssueLog).reportAll issues⟩ ∧
      solver'.outcome? (.function ⟨0, 5⟩) = some outcome ∧
      table'.overloadsOf? ⟨0, 5⟩ = some outcome.finalOverloads ∧
      ((problem { limits := {} } knotTable knotFlow).withRegistry knotRegistry).outcome
        (knotFlow.body (.function ⟨0, 5⟩)) = .ok outcome := by
  have hanswer : ((solve .ready knotFlow).answer ⟨{ limits := {} }, knotTable, {}⟩).isOk = true := by decide +kernel
  obtain ⟨solver', table', issues, hsolve⟩ := exists_issues_of_isOk rfl hanswer
  have hsolved : knotSolved = ⟨solver', table', ({} : IssueLog).reportAll issues⟩ := Step.leaves_of_eq_ok hsolve
  have hissues : knotSolved.issues.issues = issues := by
    rw [hsolved, IssueLog.issues_reportAll]
    rfl
  obtain rfl : knotSolved.table = table' := by rw [hsolved]
  have hkinds : (knotSolved.issues.issues.all fun issue => decide (issue.kind ≠ .iterationCapReached)) = true := by
    decide +kernel
  rw [hissues] at hkinds
  have hcallee : ∀ {callee}, (problem { limits := {} } knotTable knotFlow).Calls (.function ⟨0, 5⟩) callee →
      callee = ⟨0, 4⟩ := by
    rintro callee ⟨⟨symbol, data, hsymbol, hdata, hbuiltin⟩, id, hid, var, arguments, site, hvar, _, _, hconstraint⟩
    have hid : id ∈ [(⟨1⟩ : TypeVarId), ⟨2⟩] := hid
    rcases List.mem_cons.mp hid with rfl | hid
    · cases hvar
      cases hconstraint
      rfl
    · -- The other call is that of a built-in, which is no function of the program.
      cases List.mem_singleton.mp hid
      cases hvar
      cases hconstraint
      cases hsymbol
      cases hdata
      cases hbuiltin
  have hkeeps : Schedule.RefreshKeeps (problem { limits := {} } knotTable knotFlow) ∅ knotSolved.table.overloadsOf? ⟨0, 5⟩ := by
    intro history before hbefore hqueue callee hopen hcalls
    obtain rfl := hcallee hcalls
    rcases knot_reached hbefore with ⟨hsome, _⟩ | rfl | ⟨hsome, _⟩ | ⟨_, hnone⟩
    · exact absurd hqueue hsome
    · exact ⟨by decide +kernel, by decide +kernel⟩
    · exact absurd hqueue hsome
    · rw [hnone] at hopen
      cases hopen
  obtain ⟨outcome, houtcome, hoverloads, _, _, hfound⟩ := solve_consistent rfl hsolve
    (fun issue hissue => of_decide_eq_true (List.all_eq_true.mp hkinds issue hissue)) ⟨_, _, rfl, rfl, rfl⟩ rfl hkeeps
  refine ⟨_, _, _, outcome, hsolve, houtcome, hoverloads, hfound knotRegistry fun callee overloads hcalls hheld => ?_⟩
  obtain rfl := hcallee hcalls
  have hregistry : knotRegistry.get? ⟨0, 4⟩ =
      some { overloads := (knotSolved.table.overloadsOf? ⟨0, 4⟩).getD [], final := true } := by
    unfold knotRegistry
    simp [OrderedMap.get?_insert]
  rw [hregistry, hheld, Option.getD_some]

/-- The first function is published with the result `mixed`, since this is what the second was made final with. Against
what is published of the second its body gives `bool`. No limit was reached. -/
theorem solve_not_consistent :
    solve .ready knotFlow ⟨{ limits := {} }, knotTable, {}⟩ = .ok () knotSolved ∧
      (∀ issue ∈ knotSolved.issues.issues, issue.kind ≠ .iterationCapReached) ∧
      (knotSolved.table.overloadsOf? ⟨0, 4⟩).map (·.map Overload.render) = some ["() -> \x7bmixed\x7d"] ∧
      (((problem { limits := {} } knotTable knotFlow).withRegistry knotRegistry).outcome
        (knotFlow.body (.function ⟨0, 4⟩))).map (·.finalOverloads.map Overload.render) =
          .ok ["() -> \x7bbool\x7d"] := by
  have hanswer : ((solve .ready knotFlow).answer ⟨{ limits := {} }, knotTable, {}⟩).isOk = true := by decide +kernel
  obtain ⟨_, _, _, hsolve⟩ := exists_issues_of_isOk rfl hanswer
  have hsolved : knotSolved = _ := Step.leaves_of_eq_ok hsolve
  have hkinds : (knotSolved.issues.issues.all fun issue => decide (issue.kind ≠ .iterationCapReached)) = true := by
    decide +kernel
  refine ⟨hsolved ▸ hsolve, fun issue hissue => ?_, by decide +kernel, by decide +kernel⟩
  exact of_decide_eq_true (List.all_eq_true.mp hkinds issue hissue)

end Solver

end SoftTyping
