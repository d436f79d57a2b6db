import SoftTyping.Proofs.CallGraph
import SoftTyping.Proofs.Solver.Calls

/-!
# One round

A round solves all queued bodies against the same registry and then takes over their outcomes one by one. `absorbs` says
all that taking over one outcome does, and `round_eq_ok` what a round is made of; from them `IsRound.induction` gets what
a round keeps from what one outcome keeps.
-/

namespace SoftTyping

open Refusal Step OrderedMap SolveContext

variable {registry : Registry} {outcome : Outcome} {known : Published}

/-! ## Bodies that wait -/

namespace CallGraph

variable {graph : CallGraph} {caller body : BodyId} {callee other : SymbolId}

theorem mem_waitingFor : body ∈ graph.waitingFor callee ↔ body ∈ (graph.waiting.get? callee).getD [] := by
  unfold waitingFor
  rw [mem_sortBy]

theorem mem_waitingFor_register {site : Nat} :
    body ∈ (graph.register caller callee site).waitingFor other ↔
      body ∈ graph.waitingFor other ∨ body = caller ∧ callee = other := by
  rw [mem_waitingFor, mem_waitingFor, register]
  dsimp only
  rw [get?_insert]
  by_cases h : callee = other
  · subst h
    simp [mem_includeOnce_iff]
  · simp [h]

theorem mem_waitingFor_registerAll {calls : List (SymbolId × Nat)} :
    body ∈ (graph.registerAll caller calls).waitingFor other ↔
      body ∈ graph.waitingFor other ∨ body = caller ∧ ∃ site, (other, site) ∈ calls := by
  unfold registerAll
  induction calls generalizing graph with
  | nil => simp
  | cons call rest ih =>
    obtain ⟨callee, site⟩ := call
    rw [List.foldl_cons, ih, mem_waitingFor_register]
    constructor
    · rintro ((h | ⟨rfl, rfl⟩) | ⟨rfl, site', h⟩)
      · exact .inl h
      · exact .inr ⟨rfl, site, List.mem_cons_self⟩
      · exact .inr ⟨rfl, site', List.mem_cons_of_mem _ h⟩
    · rintro (h | ⟨rfl, site', h⟩)
      · exact .inl (.inl h)
      · rcases List.mem_cons.mp h with h | h
        · cases h
          exact .inl (.inr ⟨rfl, rfl⟩)
        · exact .inr ⟨rfl, site', h⟩

theorem waitingFor_release :
    (graph.release callee).waitingFor other = if callee = other then [] else graph.waitingFor other := by
  unfold waitingFor release
  dsimp only
  rw [get?_erase]
  split <;> rfl

end CallGraph

/-! ## Taking over one outcome -/

theorem Registry.isOpen_function {id : SymbolId} :
    registry.isOpen (.function id) = true ↔ ∃ known, registry.get? id = some known ∧ known.final = false := by
  unfold Registry.isOpen
  cases h : registry.get? id <;> simp [h]

/-- What is published of a function after an outcome. A function that is final has its overloads refreshed; any other
becomes final when its outcome waits for nothing, and otherwise takes over the overloads that are known. -/
def Published.revised (known : Published) (outcome : Outcome) : Published :=
  if known.final then
    { known with overloads := if outcome.finalOverloads.isEmpty then known.overloads else outcome.finalOverloads }
  else if !outcome.pending then { overloads := outcome.finalOverloads, final := true }
  else if !outcome.overloads.isEmpty && known.overloads != outcome.overloads then
    { known with overloads := outcome.overloads }
  else known

theorem Published.final_revised : (known.revised outcome).final = (known.final || !outcome.pending) := by
  unfold revised
  cases hfin : known.final <;> cases outcome.pending <;> simp
  split <;> simp [hfin]

/-- Whether an outcome gives those who wait for a function something new. -/
def Published.isNews (known : Published) (outcome : Outcome) : Bool :=
  !known.final && ((!outcome.overloads.isEmpty && known.overloads != outcome.overloads) || !outcome.pending)

namespace Schedule

variable {schedule next : Schedule} {problem : Problem} {outcomes : List Outcome} {body : BodyId} {bodies : List BodyId}
  {callee : SymbolId}

/-- What taking over the outcome of a function does. Those who wait for the function are woken, and wait no longer,
unless it is final already or nothing has changed. -/
structure Absorbs (schedule : Schedule) (id : SymbolId) (known : Published) (outcome : Outcome) (woken : Bool)
    (next : Schedule) : Prop where
  registry : ∀ other, next.registry.get? other =
    if id = other then some (known.revised outcome) else schedule.registry.get? other
  keys : next.registry.keys = schedule.registry.keys
  outcomes : ∀ other, next.outcomes.get? other =
    if .function id = other then some outcome else schedule.outcomes.get? other
  issues : next.issues = schedule.issues
  rounds : next.rounds = schedule.rounds
  news : woken = known.isNews outcome
  quiet : woken = false → known.final = true ∨ known.revised outcome = known
  awake : woken = true → known.final = false
  queue : ∀ body, body ∈ next.queue ↔ body ∈ schedule.queue ∨
    woken = true ∧ body ∈ schedule.calls.waitingFor id ∧ next.registry.isOpen body = true
  waiting : ∀ other, next.calls.waitingFor other =
    if woken = true ∧ id = other then [] else schedule.calls.waitingFor other

theorem absorbs {id : SymbolId} (hbdy : outcome.body = .function id) (hkn : schedule.registry.get? id = some known) :
    ∃ woken, Absorbs schedule id known outcome woken (schedule.absorb outcome) := by
  have hks : ∀ published, (schedule.registry.insert id published).keys = schedule.registry.keys := fun published => by
    rw [keys_insert, if_pos (contains_iff_mem_keys.mp (Option.isSome_of_mem hkn))]
  simp only [absorb, hbdy, hkn]
  split
  · next hfin =>
    refine ⟨false, ⟨fun other => ?_, hks _, fun other => ?_, rfl, rfl, by simp [Published.isNews, hfin],
      fun _ => .inl hfin, nofun, by simp, by simp⟩⟩
    · simp [get?_insert, Published.revised, hfin]
    · exact get?_insert _ _ _ _
  · next hfin =>
    simp only [Bool.not_eq_true] at hfin
    split
    · next hwakes =>
      refine ⟨true, ⟨fun other => ?_, hks _, fun other => ?_, rfl, rfl, by simpa [Published.isNews, hfin] using hwakes,
        nofun, fun _ => hfin, fun body => ?_, fun other => ?_⟩⟩
      · simp [wake, get?_insert, Published.revised, hfin]
      · exact get?_insert _ _ _ _
      · simp [wake, List.mem_filter]
      · simp [wake, CallGraph.waitingFor_release]
    · next hquiet =>
      have hnews : known.isNews outcome = false := by simpa [Published.isNews, hfin] using hquiet
      simp only [Bool.or_eq_true, not_or, Bool.not_eq_true, Bool.not_eq_false'] at hquiet
      have hsm : known.revised outcome = known := by
        simp [Published.revised, hfin, hquiet]
      refine ⟨false, ⟨fun other => ?_, hks _, fun other => ?_, rfl, rfl, hnews.symm, fun _ => .inr hsm, nofun, by simp,
        by simp⟩⟩
      · simp [get?_insert, Published.revised, hfin]
      · exact get?_insert _ _ _ _

/-! ## The batch of a round -/

/-- The bodies that the next round solves: the queued ones in order, each once. -/
def batch (schedule : Schedule) : List BodyId := (sortBy BodyId.le schedule.queue).eraseDups

theorem mem_batch : body ∈ schedule.batch ↔ body ∈ schedule.queue := by
  unfold batch
  rw [List.mem_eraseDups, mem_sortBy]

/-- The calls that bodies register when they are solved one after another. -/
def registerBatch (problem : Problem) (registry : Registry) (bodies : List BodyId) (calls : CallGraph) : CallGraph :=
  bodies.foldl
    (fun calls body => calls.registerAll body ((problem.withRegistry registry).waits (problem.flow.body body))) calls

/-- The schedule when the bodies of a round have been solved and nothing has been taken over. -/
def solved (problem : Problem) (schedule : Schedule) : Schedule :=
  { schedule with
    rounds := schedule.rounds + 1
    queue := []
    calls := registerBatch problem schedule.registry schedule.batch
      (schedule.batch.foldl CallGraph.forgetCalls schedule.calls) }

/-- A round solves its batch against what is published, and takes over the outcomes in order. -/
structure IsRound (problem : Problem) (schedule : Schedule) (outcomes : List Outcome) (next : Schedule) : Prop where
  found : List.Forall₂
    (fun body outcome => (problem.withRegistry schedule.registry).outcome (problem.flow.body body) = .ok outcome)
    schedule.batch outcomes
  taken : next = outcomes.foldl absorb (schedule.solved problem)

theorem solveOne_eq_ok (h : solveOne problem registry body schedule = .ok outcome next) :
    (problem.withRegistry registry).outcome (problem.flow.body body) = .ok outcome ∧
      next = { schedule with
        calls := schedule.calls.registerAll body ((problem.withRegistry registry).waits (problem.flow.body body)) } := by
  unfold solveOne at h
  obtain ⟨calls, hsol, rfl⟩ := onPart_eq_ok.mp h
  unfold solveBody at hsol
  obtain ⟨_, registered, hmodify, hquery⟩ := bind_eq_ok.mp hsol
  cases hmodify
  obtain ⟨hoc, rfl⟩ := query_eq_ok.mp hquery
  exact ⟨hoc, by rw [Flow.id_body]⟩

theorem mapM_solveOne_eq_ok (h : bodies.mapM (solveOne problem registry) schedule = .ok outcomes next) :
    List.Forall₂ (fun body outcome => (problem.withRegistry registry).outcome (problem.flow.body body) = .ok outcome)
        bodies outcomes ∧
      next = { schedule with calls := registerBatch problem registry bodies schedule.calls } := by
  induction bodies generalizing schedule outcomes with
  | nil =>
    cases h
    exact ⟨.nil, rfl⟩
  | cons body rest ih =>
    rw [List.mapM_cons] at h
    obtain ⟨outcome, mid, hone, h⟩ := bind_eq_ok.mp h
    obtain ⟨others, last, hrs, h⟩ := bind_eq_ok.mp h
    cases h
    obtain ⟨hoc, rfl⟩ := solveOne_eq_ok hone
    obtain ⟨hoths, rfl⟩ := ih hrs
    exact ⟨.cons hoc hoths, rfl⟩

theorem round_eq_ok (h : round problem schedule = .ok () next) : ∃ outcomes, IsRound problem schedule outcomes next := by
  unfold round at h
  obtain ⟨_, mid, hmodify, h⟩ := bind_eq_ok.mp h
  cases hmodify
  obtain ⟨state, _, hget, h⟩ := bind_eq_ok.mp h
  cases hget
  obtain ⟨outcomes, last, hsol, h⟩ := bind_eq_ok.mp h
  cases h
  obtain ⟨hocs, rfl⟩ := mapM_solveOne_eq_ok hsol
  exact ⟨outcomes, hocs, rfl⟩

/-- Solving a batch lets a body wait for what it waited for before and, if it is one of the batch, for what it calls. -/
theorem mem_waitingFor_registerBatch {calls : CallGraph} :
    body ∈ (registerBatch problem registry bodies calls).waitingFor callee ↔ body ∈ calls.waitingFor callee ∨
      body ∈ bodies ∧ ∃ site, (callee, site) ∈ (problem.withRegistry registry).waits (problem.flow.body body) := by
  unfold registerBatch
  induction bodies generalizing calls with
  | nil => simp
  | cons first rest ih =>
    rw [List.foldl_cons, ih, CallGraph.mem_waitingFor_registerAll, List.mem_cons]
    constructor
    · rintro ((h | ⟨rfl, h⟩) | ⟨hrs, h⟩)
      · exact .inl h
      · exact .inr ⟨.inl rfl, h⟩
      · exact .inr ⟨.inr hrs, h⟩
    · rintro (h | ⟨rfl | hrs, h⟩)
      · exact .inl (.inl h)
      · exact .inl (.inr ⟨rfl, h⟩)
      · exact .inr ⟨hrs, h⟩

theorem waitingFor_foldl_forgetCalls (bodies : List BodyId) (calls : CallGraph) (callee : SymbolId) :
    (bodies.foldl CallGraph.forgetCalls calls).waitingFor callee = calls.waitingFor callee := by
  induction bodies generalizing calls with
  | nil => rfl
  | cons body rest ih => rw [List.foldl_cons, ih, CallGraph.waitingFor, CallGraph.forgetCalls, CallGraph.waitingFor]

theorem mem_waitingFor_solved :
    body ∈ (schedule.solved problem).calls.waitingFor callee ↔ body ∈ schedule.calls.waitingFor callee ∨
      body ∈ schedule.queue ∧
        ∃ site, (callee, site) ∈ (problem.withRegistry schedule.registry).waits (problem.flow.body body) := by
  unfold solved
  rw [mem_waitingFor_registerBatch, waitingFor_foldl_forgetCalls, mem_batch]

/-! ## What a round keeps -/

/-- Functions that are open have a body, and only bodies of functions are queued. -/
structure WellFormed (problem : Problem) (schedule : Schedule) : Prop where
  bodies : ∀ id known, schedule.registry.get? id = some known → known.final = false →
    (problem.flow.body? (.function id)).isSome
  queue : ∀ body ∈ schedule.queue, ∃ id known, body = .function id ∧ schedule.registry.get? id = some known ∧
    (problem.flow.body? body).isSome

/-- An outcome that a round takes over. -/
structure Takes (problem : Problem) (schedule : Schedule) (id : SymbolId) (known : Published) (outcome : Outcome) :
    Prop where
  queued : .function id ∈ schedule.queue
  solvable : (problem.flow.body? (.function id)).isSome
  known : schedule.registry.get? id = some known
  body : outcome.body = .function id
  found : (problem.withRegistry schedule.registry).outcome (problem.flow.body (.function id)) = .ok outcome

theorem IsRound.map_body (h : IsRound problem schedule outcomes next) : outcomes.map (·.body) = schedule.batch := by
  have hbdys : List.Forall₂ (fun body (outcome : Outcome) => body = outcome.body) schedule.batch outcomes := by
    refine h.found.imp fun body outcome hoc => ?_
    obtain ⟨plan, hpl⟩ := outcome_eq_ok hoc
    rw [hpl.body, Flow.id_body]
  rw [← List.forall₂_eq_eq_eq, List.forall₂_map_left_iff]
  exact hbdys.flip.imp fun _ _ heq => heq.symm

/-- The outcomes of functions that a round solves, each with one outcome. -/
structure TakesAll (problem : Problem) (schedule : Schedule) (outcomes : List Outcome) : Prop where
  takes : ∀ outcome ∈ outcomes, ∃ id known, Takes problem schedule id known outcome
  nodup : (outcomes.map (·.body)).Nodup

theorem IsRound.takesAll (h : IsRound problem schedule outcomes next) (hfm : schedule.WellFormed problem) :
    TakesAll problem schedule outcomes where
  takes := by
    intro outcome hoc
    obtain ⟨body, hbdy, hf⟩ := exists_left_of_forall₂ h.found hoc
    obtain ⟨id, known, rfl, hkn, hsolvable⟩ := hfm.queue body (mem_batch.mp hbdy)
    obtain ⟨plan, hpl⟩ := outcome_eq_ok hf
    exact ⟨id, known, mem_batch.mp hbdy, hsolvable, hkn, by rw [hpl.body, Flow.id_body], hf⟩
  nodup := h.map_body ▸ nodup_eraseDups _

/-- What holds when the bodies of a round have been solved, and stays when one of the outcomes is taken over, holds when
all are taken over, in whatever order. A function has one outcome in a round, so until that is taken over it is known as it
was before the round. -/
theorem TakesAll.induction (h : TakesAll problem schedule outcomes) (Inv : List Outcome → Schedule → Prop)
    (hst : Inv outcomes (schedule.solved problem))
    (hstp : ∀ {todo now outcome id known woken after}, Takes problem schedule id known outcome →
      now.registry.get? id = some known → Absorbs now id known outcome woken after → Inv (outcome :: todo) now →
      Inv todo after) : Inv [] (outcomes.foldl absorb (schedule.solved problem)) := by
  obtain ⟨htk, hndp⟩ := h
  have hsm : ∀ outcome ∈ outcomes, ∀ id, outcome.body = .function id →
      (schedule.solved problem).registry.get? id = schedule.registry.get? id := fun _ _ _ _ => rfl
  generalize schedule.solved problem = now at hst hsm
  induction outcomes generalizing now with
  | nil => exact hst
  | cons outcome rest ih =>
    obtain ⟨id, known, htake⟩ := htk outcome List.mem_cons_self
    have hkn : now.registry.get? id = some known :=
      (hsm outcome List.mem_cons_self id htake.body).trans htake.known
    obtain ⟨woken, habs⟩ := absorbs htake.body hkn
    rw [List.map_cons, List.nodup_cons] at hndp
    refine ih (fun other hoth => htk other (List.mem_cons_of_mem _ hoth)) hndp.2 _
      (hstp htake hkn habs hst) fun other hoth id' hid' => ?_
    have hne : id ≠ id' := by
      rintro rfl
      exact hndp.1 (List.mem_map.mpr ⟨other, hoth, hid'.trans htake.body.symm⟩)
    rw [habs.registry, if_neg hne]
    exact hsm other (List.mem_cons_of_mem _ hoth) id' hid'

/-- What holds when the bodies of a round have been solved, and stays when one of the outcomes is taken over, holds after
the round. -/
theorem IsRound.induction (h : IsRound problem schedule outcomes next) (hfm : schedule.WellFormed problem)
    (Inv : List Outcome → Schedule → Prop) (hst : Inv outcomes (schedule.solved problem))
    (hstp : ∀ {todo now outcome id known woken after}, Takes problem schedule id known outcome →
      now.registry.get? id = some known → Absorbs now id known outcome woken after → Inv (outcome :: todo) now →
      Inv todo after) : Inv [] next := by
  rw [h.taken]
  exact (h.takesAll hfm).induction Inv hst hstp

end Schedule

end SoftTyping
