import SoftTyping.Proofs.CallGraph
import SoftTyping.Proofs.Schedule.Order
import SoftTyping.Proofs.Schedule.BottomUp

/-!
# Workers are not observed

The bodies of a round can be solved by several workers at once. A worker solves some of the bodies one after another, and
registers a call by updating three maps, so between any two of its updates others may make theirs (`IsInterleaving`). What
the workers leave is a call graph like the one that is left when the bodies are solved in order, so nothing that a schedule
does with the graph tells the difference (`Schedule.Alike`). Main statement: `Solver.solveWith_eq`, for any number of
workers and any timing.
-/

namespace SoftTyping

open Refusal Step Schedule

/-! ## Steps that end alike -/

namespace Step

variable {σ α β : Type} {R : σ → σ → Prop}

/-- Two steps end alike: with the same answer and in related states, or both refused. -/
def EndAlike (R : σ → σ → Prop) : EStateM.Result Fault σ α → EStateM.Result Fault σ α → Prop
  | .ok a s, .ok b t => a = b ∧ R s t
  | .error _ _, .error _ _ => True
  | _, _ => False

theorem EndAlike.bind {first second : Step σ α} {after after' : α → Step σ β} {s t : σ}
    (h : EndAlike R (first s) (second t))
    (haf : ∀ a s t, R s t → EndAlike R (after a s) (after' a t)) :
    EndAlike R ((first >>= after) s) ((second >>= after') t) := by
  change EndAlike R (EStateM.bind first after s) (EStateM.bind second after' t)
  unfold EStateM.bind
  cases hfst : first s <;> cases hsnd : second t <;> rw [hfst, hsnd] at h
  · obtain ⟨rfl, hstates⟩ := h
    exact haf _ _ _ hstates
  · exact False.elim h
  · exact False.elim h
  · exact h

/-- Steps that are refused in the same cases, and otherwise lead to related states. -/
theorem EndAlike.of_eq_ok {first second : Step σ Unit} {s t s' t' : σ} {Allowed : Prop} (h : R s' t')
    (hfst : ∀ {u next}, first s = .ok u next ↔ Allowed ∧ next = s')
    (hsnd : ∀ {u next}, second t = .ok u next ↔ Allowed ∧ next = t') : EndAlike R (first s) (second t) := by
  cases hf : first s with
  | ok u next =>
    obtain ⟨hal, rfl⟩ := hfst.mp hf
    rw [(hsnd (u := ())).mpr ⟨hal, rfl⟩]
    exact ⟨rfl, h⟩
  | error fault next =>
    cases hs : second t with
    | ok u next' => nomatch hf.symm.trans ((hfst (u := ())).mpr ⟨(hsnd.mp hs).1, rfl⟩)
    | error fault' next' => trivial

end Step

namespace Schedule

variable {problem : Problem} {first second : Schedule}

/-! ## Workers -/

/-- What a body may register while it is solved: the calls that wait for overloads, in order, and any of them once more
later on. -/
def MayRegister (problem : Problem) (registry : Registry) (body : BodyId) (calls : List (SymbolId × Nat)) : Prop :=
  calls.eraseDups = ((problem.withRegistry registry).waits (problem.flow.body body)).eraseDups

/-- Updates that workers may make in a round. Each body of the round is solved by one of the workers, and the updates of
the workers are interleaved in some way. -/
def IsInterleaving (problem : Problem) (schedule : Schedule) (updates : List CallGraph.Update) : Prop :=
  ∃ (workers : List (List BodyId)) (registered : BodyId → List (SymbolId × Nat)),
    workers.flatten.Perm schedule.batch ∧ (∀ body, MayRegister problem schedule.registry body (registered body)) ∧
      Interleaves (workers.map fun bodies => bodies.flatMap fun body => (registered body).flatMap (CallGraph.updatesOf body))
        updates

/-- Workers whose updates in every round are some interleaving. -/
structure Workers (problem : Problem) where
  updates : Schedule → List CallGraph.Update
  interleaving : ∀ schedule, IsInterleaving problem schedule (updates schedule)

theorem IsInterleaving.alike {schedule : Schedule} {updates : List CallGraph.Update}
    (h : IsInterleaving problem schedule updates) (calls : CallGraph) :
    (updates.foldl CallGraph.update calls).Alike
      (registerBatch problem schedule.registry schedule.batch calls) := by
  obtain ⟨workers, registered, hworkers, hregistered, hinterleaves⟩ := h
  have hcaller : ∀ body, ∀ change ∈ (registered body).flatMap (CallGraph.updatesOf body), change.caller = body := by
    intro body change hchg
    obtain ⟨call, _, hchg⟩ := List.mem_flatMap.mp hchg
    exact CallGraph.caller_of_mem_updatesOf hchg
  have hndp : workers.flatten.Nodup := hworkers.nodup_iff.mpr (nodup_eraseDups _)
  have hap : (workers.map fun bodies => bodies.flatMap fun body => (registered body).flatMap (CallGraph.updatesOf body))
      |>.Pairwise fun first second => ∀ change ∈ first, ∀ other ∈ second, change.caller ≠ other.caller := by
    rw [List.pairwise_map]
    refine (List.nodup_flatten.mp hndp).2.imp fun hdj change hchg other hoth heq => ?_
    obtain ⟨body, hbdy, hchg⟩ := List.mem_flatMap.mp hchg
    obtain ⟨body', hbdy', hoth⟩ := List.mem_flatMap.mp hoth
    rw [hcaller body change hchg, hcaller body' other hoth] at heq
    exact hdj hbdy (heq ▸ hbdy')
  have hbatch : registerBatch problem schedule.registry schedule.batch calls =
      (schedule.batch.flatMap fun body => (registered body).flatMap (CallGraph.updatesOf body)).foldl
        CallGraph.update calls := by
    rw [List.foldl_flatMap, registerBatch]
    congr 1
    funext calls body
    rw [← CallGraph.registerAll_eq, ← CallGraph.registerAll_eraseDups, ← hregistered body, CallGraph.registerAll_eraseDups]
  refine (CallGraph.alike_of_interleaves hinterleaves hap calls).trans ?_
  have hflatten : workers.flatMap (fun bodies => bodies) = workers.flatten := List.flatten_eq_flatMap.symm
  rw [hbatch, ← List.flatMap_def, ← List.flatMap_assoc, hflatten]
  exact CallGraph.alike_of_perm _ hcaller hworkers hndp calls

/-- The schedule when workers have solved the bodies of a round and nothing has been taken over. -/
def worked (workers : Workers problem) (schedule : Schedule) : Schedule :=
  { schedule with
    rounds := schedule.rounds + 1
    queue := []
    calls := (workers.updates schedule).foldl CallGraph.update
      (schedule.batch.foldl CallGraph.forgetCalls schedule.calls) }

/-- A round that workers do. -/
def workedRound (workers : Workers problem) : Step Schedule Unit := fun schedule =>
  match schedule.batch.mapM fun body => (problem.withRegistry schedule.registry).outcome (problem.flow.body body) with
  | .ok outcomes => .ok () (outcomes.foldl absorb (schedule.worked workers))
  | .error fault => .error fault schedule

/-- Go on with a schedule whose rounds workers do. -/
def proceedWith (workers : Workers problem) : (steps : Nat) → Step Schedule Unit
  | 0 => pure ()
  | steps + 1 => do
    let schedule ← get
    if schedule.queue.isEmpty then
      unless schedule.registry.unfinished.isEmpty do
        release problem
        if schedule.rounds < problem.limits.rounds then proceedWith workers steps
    else if schedule.rounds < problem.limits.rounds then
      workedRound workers
      proceedWith workers steps
    else
      exhaust problem

/-- Go through all rounds with workers, then solve the global body. -/
def completeWith (workers : Workers problem) : Step Schedule Unit := do
  proceedWith workers (problem.limits.rounds + 2)
  let outcome ← solveOne problem (← get).registry .global
  modify fun schedule => { schedule with outcomes := schedule.outcomes.insert .global outcome }

end Schedule

/-- Solve all bodies with workers. -/
def Solver.solveWith (workers : ∀ problem, Schedule.Workers problem) : (pool : WorkerPool) → (flow : Flow) →
    Step Solving Unit :=
  solveBy fun problem => Schedule.completeWith (workers problem)

namespace Schedule

variable {problem : Problem} {first second : Schedule}

/-! ## Schedules that are alike -/

/-- Two schedules are the same but for the order inside their call graphs. -/
structure Alike (first second : Schedule) : Prop where
  calls : first.calls.Alike second.calls
  same : first = { second with calls := first.calls }

section

variable (h : first.Alike second)

include h

theorem Alike.registry : first.registry = second.registry := by rw [h.same]

theorem Alike.queue : first.queue = second.queue := by rw [h.same]

theorem Alike.rounds : first.rounds = second.rounds := by rw [h.same]

theorem Alike.wake (id : SymbolId) : (first.wake id).Alike (second.wake id) := by
  obtain ⟨hcs, hsm⟩ := h
  refine ⟨hcs.release id, ?_⟩
  rw [hsm]
  simp only [Schedule.wake, hcs.waitingFor]

theorem Alike.absorb (outcome : Outcome) : (first.absorb outcome).Alike (second.absorb outcome) := by
  obtain ⟨hcs, hsm⟩ := h
  generalize first.calls = calls at hcs hsm
  subst hsm
  unfold absorb
  cases outcome.body with
  | global => exact ⟨hcs, rfl⟩
  | function id =>
    cases hkn : second.registry.get? id with
    | none =>
      simp only [hkn]
      exact ⟨hcs, rfl⟩
    | some known =>
      simp only [hkn]
      split
      · exact ⟨hcs, rfl⟩
      · split
        · exact Alike.wake ⟨hcs, rfl⟩ id
        · exact ⟨hcs, rfl⟩

theorem Alike.foldl_absorb (outcomes : List Outcome) :
    (outcomes.foldl Schedule.absorb first).Alike (outcomes.foldl Schedule.absorb second) := by
  induction outcomes generalizing first second with
  | nil => exact h
  | cons outcome rest ih => exact ih (h.absorb outcome)

theorem Alike.foldl_wake (ids : List SymbolId) : (ids.foldl Schedule.wake first).Alike (ids.foldl Schedule.wake second) := by
  induction ids generalizing first second with
  | nil => exact h
  | cons id rest ih => exact ih (h.wake id)

theorem Alike.foldl_forced (report : RecursionReport) (ids : List SymbolId) :
    (ids.foldl (forced problem report) first).Alike (ids.foldl (forced problem report) second) := by
  induction ids generalizing first second with
  | nil => exact h
  | cons id rest ih =>
    refine ih ⟨h.calls, ?_⟩
    rw [h.same]
    rfl

theorem Alike.allForced : (first.allForced problem).Alike (second.allForced problem) := by
  unfold Schedule.allForced
  rw [h.calls.recursion, h.registry]
  exact h.foldl_forced _ _

theorem Alike.knowsOpen : second.KnowsOpen problem = first.KnowsOpen problem := by
  rw [KnowsOpen, KnowsOpen, h.registry]

theorem Alike.release : EndAlike Alike (Schedule.release problem first) (Schedule.release problem second) := by
  have hforced : (first.allForced problem).Alike (second.allForced problem) := h.allForced
  have hwkn := hforced.foldl_wake second.registry.unfinished
  have hrel : (first.released problem).Alike (second.released problem) := by
    unfold released
    rw [h.registry]
    refine ⟨hwkn.calls, ?_⟩
    dsimp only
    rw [hwkn.same]
  exact .of_eq_ok hrel release_eq_ok (h.knowsOpen ▸ release_eq_ok)

theorem Alike.exhaust : EndAlike Alike (Schedule.exhaust problem first) (Schedule.exhaust problem second) := by
  have hexh : (first.exhausted problem).Alike (second.exhausted problem) := by
    refine Alike.allForced ⟨h.calls, ?_⟩
    rw [h.same]
  exact .of_eq_ok hexh exhaust_eq_ok (h.knowsOpen ▸ exhaust_eq_ok)

end

/-! ## Rounds that workers do -/

theorem round_eq_error {schedule next : Schedule} {fault : Fault} (h : round problem schedule = .error fault next) :
    ∃ body ∈ schedule.batch, (problem.withRegistry schedule.registry).outcome (problem.flow.body body) = .error fault := by
  unfold round at h
  rcases bind_eq_error.mp h with h | ⟨_, _, hmodify, h⟩
  · nomatch h
  · cases hmodify
    rcases bind_eq_error.mp h with h | ⟨_, _, hget, h⟩
    · nomatch h
    · cases hget
      rcases bind_eq_error.mp h with h | ⟨_, _, _, h⟩
      · obtain ⟨body, hbdy, _, _, hsol⟩ := mapM_eq_error h
        obtain ⟨_, hsol, _⟩ := onPart_eq_error.mp hsol
        rcases bind_eq_error.mp hsol with hsol | ⟨_, _, _, hsol⟩
        · nomatch hsol
        · exact ⟨body, hbdy, (query_eq_error.mp hsol).1⟩
      · nomatch h

section

variable (h : first.Alike second)

include h

theorem Alike.batch : first.batch = second.batch := by
  rw [Schedule.batch, Schedule.batch, h.queue]

theorem Alike.worked (workers : Workers problem) : (first.worked workers).Alike (second.solved problem) := by
  have hregister : ∀ (bodies : List BodyId) {calls calls' : CallGraph}, calls.Alike calls' →
      (registerBatch problem second.registry bodies calls).Alike
        (registerBatch problem second.registry bodies calls') := by
    intro bodies
    induction bodies with
    | nil => exact fun h => h
    | cons body rest ih => exact fun h => ih (h.registerAll body _)
  have hforget : ∀ (bodies : List BodyId) {calls calls' : CallGraph}, calls.Alike calls' →
      (bodies.foldl CallGraph.forgetCalls calls).Alike (bodies.foldl CallGraph.forgetCalls calls') := by
    intro bodies
    induction bodies with
    | nil => exact fun h => h
    | cons body rest ih => exact fun h => ih (h.forgetCalls body)
  refine ⟨((workers.interleaving first).alike _).trans ?_, ?_⟩
  · rw [h.batch, h.registry]
    exact hregister _ (hforget _ h.calls)
  · rw [h.same]
    rfl

theorem Alike.workedRound (workers : Workers problem) :
    EndAlike Alike (workedRound workers first) (round problem second) := by
  unfold Schedule.workedRound
  rw [h.batch, h.registry]
  cases hf : second.batch.mapM fun body =>
      (problem.withRegistry second.registry).outcome (problem.flow.body body) with
  | ok outcomes =>
    cases hrd : round problem second with
    | ok u next =>
      obtain ⟨outcomes', hrd⟩ := round_eq_ok hrd
      cases hf.symm.trans (mapM_eq_ok.mpr hrd.found)
      rw [hrd.taken]
      exact ⟨rfl, (h.worked workers).foldl_absorb outcomes⟩
    | error fault next =>
      obtain ⟨body, hbdy, hrfu⟩ := round_eq_error hrd
      obtain ⟨outcome, _, hoc⟩ := exists_right_of_forall₂ (mapM_eq_ok.mp hf) hbdy
      nomatch hrfu.symm.trans hoc
  | error fault =>
    cases hrd : round problem second with
    | ok u next =>
      obtain ⟨outcomes', hrd⟩ := round_eq_ok hrd
      nomatch hf.symm.trans (mapM_eq_ok.mpr hrd.found)
    | error fault next => trivial

theorem Alike.proceedWith (workers : Workers problem) (steps : Nat) :
    EndAlike Alike (proceedWith workers steps first) (proceed problem steps second) := by
  induction steps generalizing first second with
  | zero => exact ⟨rfl, h⟩
  | succ steps ih =>
    unfold proceedWith proceed
    change EndAlike Alike ((if first.queue.isEmpty then _ else _ : Step Schedule Unit) first)
      ((if second.queue.isEmpty then _ else _ : Step Schedule Unit) second)
    rw [h.queue]
    split
    · rw [h.registry]
      split
      · exact ⟨rfl, h⟩
      · rw [h.rounds]
        refine h.release.bind fun _ _ _ h => ?_
        split
        · exact ih h
        · exact ⟨rfl, h⟩
    · rw [h.rounds]
      split
      · exact (h.workedRound workers).bind fun _ _ _ h => ih h
      · exact h.exhaust

theorem Alike.solveOne (registry : Registry) (body : BodyId) :
    EndAlike Alike (solveOne problem registry body first) (solveOne problem registry body second) := by
  have hregistered := h.calls.registerAll (problem.flow.body body).id
    ((problem.withRegistry registry).waits (problem.flow.body body))
  have hsol : ∀ calls, (problem.withRegistry registry).solveBody (problem.flow.body body) calls =
      query (fun _ => (problem.withRegistry registry).outcome (problem.flow.body body))
        (calls.registerAll (problem.flow.body body).id ((problem.withRegistry registry).waits (problem.flow.body body))) :=
    fun _ => rfl
  rw [Schedule.solveOne, Step.onPart, Step.onPart, hsol, hsol, Step.query, Step.query]
  cases (problem.withRegistry registry).outcome (problem.flow.body body) with
  | error fault => trivial
  | ok outcome =>
    refine ⟨rfl, hregistered, ?_⟩
    rw [h.same]

theorem Alike.completeWith (workers : Workers problem) :
    EndAlike Alike (completeWith workers first) (complete problem second) := by
  refine (h.proceedWith workers _).bind fun _ first second h => ?_
  change Step.EndAlike Alike ((Schedule.solveOne problem first.registry .global >>= _) first)
    ((Schedule.solveOne problem second.registry .global >>= _) second)
  rw [h.registry]
  refine (h.solveOne second.registry .global).bind fun outcome first second h => ⟨rfl, h.calls, ?_⟩
  rw [h.same]

end

end Schedule

namespace Solver

/-- A solver with workers is refused when one without is, and otherwise finds the same: the same table, issues, outcomes
and number of rounds, and a call graph that answers alike. -/
theorem solveWith_eq (pool : WorkerPool) (solver : Solver) (table : SymbolTable) (flow : Flow) (log : IssueLog)
    (workers : ∀ problem, Workers problem) :
    ((solveWith workers pool flow).answer ⟨solver, table, log⟩).isOk =
      ((solve pool flow).answer ⟨solver, table, log⟩).isOk ∧
    ∀ after, solve pool flow ⟨solver, table, log⟩ = .ok () after →
      ∃ calls, solveWith workers pool flow ⟨solver, table, log⟩ =
          .ok () { after with solver := { after.solver with calls } } ∧
        calls.SameAnswers after.solver.calls := by
  unfold solveWith solve Step.answer
  cases hph : solver.phase with
  | solved =>
    rw [solveBy_of_solved hph, solveBy_of_solved hph]
    refine ⟨rfl, fun after h => ?_⟩
    cases h
    exact ⟨solver.calls, rfl, (CallGraph.Alike.refl _).sameAnswers⟩
  | solving =>
    rw [solveBy_of_solving hph, solveBy_of_solving hph]
    exact ⟨rfl, nofun⟩
  | idle =>
    have hst : (start (solver.problem table flow) solver.calls).Alike
        (.start (solver.problem table flow) solver.calls) := ⟨.refl _, rfl⟩
    have hcmp := hst.completeWith (workers (solver.problem table flow))
    have hpub : ∀ last, completeWith (workers (solver.problem table flow))
        (.start (solver.problem table flow) solver.calls) = .ok () last →
          SymbolTable.publish last.registry table = .ok () (table.publishAll last.registry) := by
      intro last hlst
      cases hsnd : complete (solver.problem table flow) (.start (solver.problem table flow) solver.calls) <;>
        rw [hlst, hsnd] at hcmp
      · rw [hcmp.2.registry]
        exact publish_of_complete hsnd
      · exact False.elim hcmp
    rw [solveBy_of_idle hph fun _ => publish_of_complete, solveBy_of_idle hph hpub]
    cases engage pool solver with
    | error fault => exact ⟨rfl, nofun⟩
    | ok _ =>
      cases hfst : completeWith (workers (solver.problem table flow)) (.start (solver.problem table flow) solver.calls) <;>
        cases hsnd : complete (solver.problem table flow) (.start (solver.problem table flow) solver.calls) <;>
        rw [hfst, hsnd] at hcmp
      · obtain ⟨_, hcs, hsm⟩ := hcmp
        refine ⟨rfl, fun after h => ?_⟩
        cases h
        rw [hsm]
        exact ⟨_, rfl, hcs.sameAnswers⟩
      · exact False.elim hcmp
      · exact False.elim hcmp
      · exact ⟨rfl, nofun⟩

/-- Nothing tells how many workers there were and how their updates were interleaved. In every round they leave a call
graph that answers as if the bodies had been solved in order, and the round ends with the same registry, queue, outcomes,
issues and number of rounds. A whole solve is refused or not as without them, and finds the same table, issues, outcomes
and number of rounds. Nor does the order in which the outcomes of a round are taken over change the registry or which
bodies are queued. -/
theorem workers_unobserved (pool : WorkerPool) (solver : Solver) (table : SymbolTable) (flow : Flow) (log : IssueLog) :
    (∀ (workers : Schedule.Workers (solver.problem table flow)) (schedule : Schedule),
      (schedule.worked workers).calls.SameAnswers (schedule.solved (solver.problem table flow)).calls ∧
      ∀ outcomes next, Schedule.IsRound (solver.problem table flow) schedule outcomes next →
        ∃ calls, outcomes.foldl Schedule.absorb (schedule.worked workers) = { next with calls } ∧
          calls.SameAnswers next.calls) ∧
    (∀ workers : (problem : Problem) → Schedule.Workers problem,
      ((solveWith workers pool flow).answer ⟨solver, table, log⟩).isOk =
        ((solve pool flow).answer ⟨solver, table, log⟩).isOk ∧
      ∀ after, solve pool flow ⟨solver, table, log⟩ = .ok () after →
        ∃ calls, solveWith workers pool flow ⟨solver, table, log⟩ =
            .ok () { after with solver := { after.solver with calls } } ∧
          calls.SameAnswers after.solver.calls) ∧
    ∀ history schedule outcomes next (order : List Outcome), Schedule.Reached (solver.problem table flow) ∅ history schedule →
      Schedule.IsRound (solver.problem table flow) schedule outcomes next → order.Perm outcomes →
      (order.foldl Schedule.absorb (schedule.solved (solver.problem table flow))).registry = next.registry ∧
        ∀ body, body ∈ (order.foldl Schedule.absorb (schedule.solved (solver.problem table flow))).queue ↔
          body ∈ next.queue := by
  refine ⟨fun workers schedule => ?_, solveWith_eq pool solver table flow log, ?_⟩
  · have hworked : (schedule.worked workers).Alike (schedule.solved (solver.problem table flow)) :=
      Schedule.Alike.worked ⟨.refl _, rfl⟩ workers
    refine ⟨hworked.calls.sameAnswers, fun outcomes next hround => ?_⟩
    have hnext := hworked.foldl_absorb outcomes
    rw [← hround.taken] at hnext
    exact ⟨_, hnext.same, hnext.calls.sameAnswers⟩
  · intro history schedule outcomes next order hreached hround hperm
    exact hround.any_order hreached hperm

end Solver

namespace Schedule

theorem interleaves_singleton {α : Type} (items : List α) : Interleaves [items] items := by
  induction items with
  | nil => exact .done (by simp)
  | cons item rest ih =>
    change Interleaves ([] ++ (item :: rest) :: []) (item :: rest)
    exact .take ih

/-- One worker that takes the bodies in the opposite order. -/
def Workers.backwards (problem : Problem) : Workers problem where
  updates := fun schedule => schedule.batch.reverse.flatMap fun body =>
    ((problem.withRegistry schedule.registry).waits (problem.flow.body body)).flatMap (CallGraph.updatesOf body)
  interleaving := fun schedule => ⟨[schedule.batch.reverse],
    fun body => (problem.withRegistry schedule.registry).waits (problem.flow.body body), by simp [List.reverse_perm],
    fun _ => rfl, interleaves_singleton _⟩

end Schedule

/-- A worker that takes the bodies in the opposite order, and outcomes that are taken over in the opposite order, change
nothing for a program with a function that calls another and one that calls itself. -/
theorem Solver.workers_unobserved_caller :
    ∃ after calls outcomes next, solve .ready callerFlow ⟨{ limits := {} }, callerTable, {}⟩ = .ok () after ∧
      solveWith Schedule.Workers.backwards .ready callerFlow ⟨{ limits := {} }, callerTable, {}⟩ =
        .ok () { after with solver := { after.solver with calls } } ∧
      Schedule.IsRound (problem { limits := {} } callerTable callerFlow)
        (.start (problem { limits := {} } callerTable callerFlow) ∅) outcomes next ∧
      (outcomes.reverse.foldl Schedule.absorb (Schedule.solved (problem { limits := {} } callerTable callerFlow)
        (.start (problem { limits := {} } callerTable callerFlow) ∅))).registry = next.registry := by
  have hanswer : ((solve .ready callerFlow).answer ⟨{ limits := {} }, callerTable, {}⟩).isOk = true := by decide +kernel
  have hround : Schedule.round (problem { limits := {} } callerTable callerFlow)
      (.start (problem { limits := {} } callerTable callerFlow) ∅) = .ok ()
        ((Schedule.round (problem { limits := {} } callerTable callerFlow)).leaves
          (.start (problem { limits := {} } callerTable callerFlow) ∅)) := rfl
  obtain ⟨_, hsolve, horder⟩ := workers_unobserved .ready { limits := {} } callerTable callerFlow {}
  obtain ⟨outcomes, hround⟩ := Schedule.round_eq_ok hround
  obtain ⟨_, _, _, hfound⟩ := exists_issues_of_isOk rfl hanswer
  obtain ⟨calls, hworked, _⟩ := (hsolve Schedule.Workers.backwards).2 _ hfound
  refine ⟨_, calls, outcomes, _, hfound, hworked, hround, ?_⟩
  exact (horder [] _ outcomes _ outcomes.reverse .start hround (List.reverse_perm outcomes)).1

end SoftTyping
