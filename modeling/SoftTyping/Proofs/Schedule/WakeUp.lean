import SoftTyping.Proofs.Schedule.Reached

/-!
# No function sleeps through a change

A function that is open and not queued was last solved against exactly what is published now of the functions it calls,
and it waits for each of them that is open. This is kept because an open function is only ever changed together with
waking those who wait for it, and a final one is never changed while others are open (`Schedule.Wakes.absorb`). Main
statement: `Schedule.Reached.no_lost_wakeUp`.
-/

namespace SoftTyping

open Refusal

namespace Schedule

variable {problem : Problem} {calls : CallGraph} {history : List RoundRecord} {schedule next now after : Schedule}
  {outcomes : List Outcome} {id : SymbolId} {known : Published} {outcome : Outcome} {woken : Bool} {record : RoundRecord}
  {body : BodyId}

/-! ## The last time a body was solved -/

theorem lastSolved_cons_of_mem (h : body ∈ record.bodies) : lastSolved (record :: history) body = some record := by
  unfold lastSolved
  rw [List.find?_cons_of_pos (by simpa using h)]

theorem lastSolved_cons_of_not_mem (h : body ∉ record.bodies) :
    lastSolved (record :: history) body = lastSolved history body := by
  unfold lastSolved
  rw [List.find?_cons_of_neg (by simpa using h)]

/-- The outcome that is kept of a body is the one of the last time it was solved. -/
theorem Reached.outcome_of_lastSolved (h : Reached problem calls history schedule)
    (hls : lastSolved history body = some record) :
    ∃ outcome, (problem.withRegistry record.registry).outcome (problem.flow.body body) = .ok outcome ∧
      schedule.outcomes.get? body = some outcome := by
  induction h with
  | start => nomatch hls
  | @round history schedule next hrch _ _ hrd ih =>
    obtain ⟨outcomes, hrd⟩ := round_eq_ok hrd
    by_cases hbdy : body ∈ schedule.queue
    · rw [lastSolved_cons_of_mem (mem_batch.mpr hbdy)] at hls
      cases hls
      exact hrd.outcome_of_queued hrch.wellFormed hbdy
    · rw [lastSolved_cons_of_not_mem (fun hmem => hbdy (mem_batch.mp hmem))] at hls
      rw [hrd.outcome_of_not_queued hrch.wellFormed hbdy]
      exact ih hls
  | release _ _ _ ih =>
    rw [(forces_release problem _).outcomes]
    exact ih hls
  | exhaust _ _ _ ih =>
    rw [(forces_exhaust problem _).outcomes]
    exact ih hls

/-- A function that is open was waiting when it was last solved. -/
theorem Reached.pending_of_lastSolved (h : Reached problem calls history schedule)
    (hls : lastSolved history (.function id) = some record)
    (hf : (problem.withRegistry record.registry).outcome (problem.flow.body (.function id)) = .ok outcome)
    (hid : problem.IsFunction id) (hop : ¬ schedule.registry.IsFinal id) : outcome.pending = true := by
  induction h with
  | start => nomatch hls
  | @round history schedule next hrch _ _ hrd ih =>
    obtain ⟨outcomes, hrd⟩ := round_eq_ok hrd
    by_cases hqu : .function id ∈ schedule.queue
    · rw [lastSolved_cons_of_mem (mem_batch.mpr hqu)] at hls
      cases hls
      by_contra hpen
      exact hop (hrd.isFinal_of_queued hrch.wellFormed hqu hf (by simpa using hpen))
    · rw [lastSolved_cons_of_not_mem (fun hmem => hqu (mem_batch.mp hmem))] at hls
      exact ih hls fun hfin => hop (hrd.isFinal hrch.wellFormed hfin)
  | release hrch _ _ _ => exact absurd (hrch.allFinal_of_forces (forces_release problem _) id hid) hop
  | exhaust hrch _ _ _ => exact absurd (hrch.allFinal_of_forces (forces_exhaust problem _) id hid) hop

/-! ## Waiting for a change -/

/-- A function waits for what it was last solved against to change: that is still what is published of the functions it
calls, and it is registered with each of them that is open. -/
structure Awaits (problem : Problem) (schedule : Schedule) (id : SymbolId) (solvedAgainst : Registry) : Prop where
  agree : problem.Agree (.function id) solvedAgainst schedule.registry
  registered : ∀ callee, problem.Calls (.function id) callee → ¬ schedule.registry.IsFinal callee →
    .function id ∈ schedule.calls.waitingFor callee

/-- Every open function that is not queued waits for a change. -/
def Wakes (problem : Problem) (history : List RoundRecord) (schedule : Schedule) : Prop :=
  ∀ id, schedule.registry.isOpen (.function id) = true → .function id ∉ schedule.queue →
    ∃ record, lastSolved history (.function id) = some record ∧ Awaits problem schedule id record.registry

theorem Wakes.solved (hps : problem.limits.passes ≠ 0) (h : schedule.Wakes problem history)
    (hrd : IsRound problem schedule outcomes next) :
    (schedule.solved problem).Wakes problem ({ registry := schedule.registry, bodies := schedule.batch } :: history) := by
  intro id hop _
  by_cases hqu : .function id ∈ schedule.queue
  · refine ⟨_, lastSolved_cons_of_mem (mem_batch.mpr hqu), fun callee _ => rfl, fun callee hcs hfin => ?_⟩
    obtain ⟨outcome, _, hf⟩ := exists_right_of_forall₂ hrd.found (mem_batch.mpr hqu)
    exact mem_waitingFor_solved.mpr (.inr ⟨hqu, Problem.mem_waits hps hf hcs hfin⟩)
  · obtain ⟨record, hls, haw⟩ := h id hop hqu
    refine ⟨record, ?_, haw.agree, fun callee hcs hfin => ?_⟩
    · rw [lastSolved_cons_of_not_mem fun hmem => hqu (mem_batch.mp hmem), hls]
    · exact mem_waitingFor_solved.mpr (.inl (haw.registered callee hcs hfin))

theorem Wakes.absorb_of_same (h : now.Wakes problem history) (habs : Absorbs now id known outcome woken after)
    (hsm : ∀ other, after.registry.get? other = now.registry.get? other) (hwoken : woken = false) :
    after.Wakes problem history := by
  intro other hop hqu
  have hop : now.registry.isOpen (.function other) = true := by
    rw [Registry.isOpen_function] at hop ⊢
    rwa [hsm] at hop
  have hqu : .function other ∉ now.queue := fun hmem => hqu ((habs.queue _).mpr (.inl hmem))
  obtain ⟨record, hls, haw⟩ := h other hop hqu
  refine ⟨record, hls, fun callee hcs => ?_, fun callee hcs hfin => ?_⟩
  · rw [hsm, haw.agree callee hcs]
  · rw [habs.waiting, hwoken, if_neg (by simp)]
    exact haw.registered callee hcs fun hfin' => hfin (hfin'.congr (hsm callee))

theorem Wakes.absorb_of_woken (h : now.Wakes problem history) (hkn : now.registry.get? id = some known)
    (habs : Absorbs now id known outcome woken after) (hwoken : woken = true) : after.Wakes problem history := by
  have hknOpen := habs.awake hwoken
  intro other hop hqu
  have hopNow : now.registry.isOpen (.function other) = true := by
    by_contra hcld
    by_cases hid : id = other
    · subst hid
      exact hcld (Registry.isOpen_function.mpr ⟨known, hkn, hknOpen⟩)
    · rw [Registry.isOpen_function, habs.get?_of_ne hid, ← Registry.isOpen_function] at hop
      exact hcld hop
  have hquNow : .function other ∉ now.queue := fun hmem => hqu ((habs.queue _).mpr (.inl hmem))
  obtain ⟨record, hls, haw⟩ := h other hopNow hquNow
  have hne : ∀ callee, problem.Calls (.function other) callee → id ≠ callee := by
    rintro callee hcs rfl
    have hfin : ¬ now.registry.IsFinal id := by
      rw [Registry.isFinal_of_get? hkn, hknOpen]
      exact Bool.false_ne_true
    exact hqu ((habs.queue _).mpr (.inr ⟨hwoken, haw.registered id hcs hfin, hop⟩))
  refine ⟨record, hls, fun callee hcs => ?_, fun callee hcs hfin => ?_⟩
  · rw [habs.get?_of_ne (hne callee hcs), haw.agree callee hcs]
  · rw [habs.waiting, if_neg fun hboth => hne callee hcs hboth.2]
    exact haw.registered callee hcs fun hfin' => hfin (hfin'.congr (habs.get?_of_ne (hne callee hcs)))

theorem Wakes.absorb (h : now.Wakes problem history) (hsty : schedule.Steady problem fun _ => True)
    (htk : Takes problem schedule id known outcome) (hkn : now.registry.get? id = some known)
    (habs : Absorbs now id known outcome woken after) : after.Wakes problem history := by
  cases hwoken : woken with
  | true => exact h.absorb_of_woken hkn habs hwoken
  | false =>
    have hsm : known.revised outcome = known := by
      rcases habs.quiet hwoken with hfin | hsm
      · exact (hsty.isSteady_of_takes trivial htk hfin).revised_eq htk.known
      · exact hsm
    exact h.absorb_of_same habs (habs.get?_of_revised hkn hsm) hwoken

theorem IsRound.wakes (hrd : IsRound problem schedule outcomes next) (hfm : schedule.WellFormed problem)
    (hps : problem.limits.passes ≠ 0) (hsty : schedule.Steady problem fun _ => True)
    (h : schedule.Wakes problem history) :
    next.Wakes problem ({ registry := schedule.registry, bodies := schedule.batch } :: history) := by
  refine hrd.induction hfm (fun _ now => now.Wakes problem _) (h.solved hps hrd) ?_
  intro todo now outcome id known woken after htk hkn habs hnow
  exact hnow.absorb hsty htk hkn habs

theorem Reached.wakes (hps : problem.limits.passes ≠ 0) (h : Reached problem calls history schedule) :
    schedule.AllFinal problem ∨ (schedule.Steady problem fun _ => True) ∧ schedule.Wakes problem history := by
  induction h with
  | start =>
    refine .inr ⟨fun id _ hfin hbdy => ?_, fun id hop hqu => ?_⟩
    · obtain ⟨known, hkn, hfin⟩ := hfin
      rw [(start_open hkn).mpr hbdy] at hfin
      nomatch hfin
    · obtain ⟨known, hkn, hfin⟩ := Registry.isOpen_function.mp hop
      refine absurd (List.mem_filter.mpr ⟨?_, hop⟩) hqu
      exact OrderedMap.contains_iff_mem_keys.mp ((start_open hkn).mp hfin)
  | round hrch _ _ hrd ih =>
    obtain ⟨outcomes, hrd⟩ := round_eq_ok hrd
    have hfm := hrch.wellFormed
    rcases ih with hall | ⟨hsty, hwakes⟩
    · exact .inl (hrd.allFinal hfm hall)
    · exact .inr ⟨hrd.steady hfm hps (fun _ _ _ _ => trivial) hsty,
        hrd.wakes hfm hps hsty hwakes⟩
  | release hrch _ _ _ => exact .inl (hrch.allFinal_of_forces (forces_release problem _))
  | exhaust hrch _ _ _ => exact .inl (hrch.allFinal_of_forces (forces_exhaust problem _))

/-- An open function that is not queued calls one that is open. -/
theorem Reached.exists_open_callee (hps : problem.limits.passes ≠ 0) (h : Reached problem calls history schedule)
    (hid : problem.IsFunction id) (hop : ¬ schedule.registry.IsFinal id) (hqu : .function id ∉ schedule.queue) :
    ∃ callee, problem.Calls (.function id) callee ∧ ¬ schedule.registry.IsFinal callee := by
  rcases h.wakes hps with hall | ⟨_, hwakes⟩
  · exact absurd (hall id hid) hop
  · have hisOpen := Registry.isOpen_function.mpr (h.open_of_not_isFinal hid hop)
    obtain ⟨record, hls, haw⟩ := hwakes id hisOpen hqu
    obtain ⟨outcome, hf, _⟩ := h.outcome_of_lastSolved hls
    have hpen := h.pending_of_lastSolved hls hf hid hop
    obtain ⟨callee, hcs, hce⟩ := (Problem.pending_outcome_iff hps hf).mp hpen
    exact ⟨callee, hcs, fun hfin => hce (hfin.congr (haw.agree callee hcs))⟩

/-! ## No lost wake-up -/

/-- A function of the program that is neither final nor queued was last solved against exactly what is published now of
the functions it calls; it was left waiting, since one of these is open; it is registered with each of them that is open;
and a round that changes what is published of one of them queues it. -/
theorem Reached.no_lost_wakeUp (hpasses : 1 ≤ problem.limits.passes) (h : Reached problem calls history schedule)
    (hid : problem.IsFunction id) (hopen : ¬ schedule.registry.IsFinal id) (hqueue : .function id ∉ schedule.queue) :
    ∃ record outcome, lastSolved history (.function id) = some record ∧
      (∀ callee, problem.Calls (.function id) callee →
        record.registry.get? callee = schedule.registry.get? callee) ∧
      (problem.withRegistry record.registry).outcome (problem.flow.body (.function id)) = .ok outcome ∧
      schedule.outcomes.get? (.function id) = some outcome ∧ outcome.pending = true ∧
      (∃ callee, problem.Calls (.function id) callee ∧ ¬ schedule.registry.IsFinal callee) ∧
      (∀ callee, problem.Calls (.function id) callee → ¬ schedule.registry.IsFinal callee →
        .function id ∈ schedule.calls.waitingFor callee) ∧
      ∀ next callee, Schedule.round problem schedule = .ok () next → problem.Calls (.function id) callee →
        next.registry.get? callee ≠ schedule.registry.get? callee → .function id ∈ next.queue := by
  have hpasses : problem.limits.passes ≠ 0 := Nat.one_le_iff_ne_zero.mp hpasses
  rcases h.wakes hpasses with hall | ⟨hsteady, hwakes⟩
  · exact absurd (hall id hid) hopen
  · have hisOpen := h.open_of_not_isFinal hid hopen
    obtain ⟨record, hlast, hawaits⟩ := hwakes id (Registry.isOpen_function.mpr hisOpen) hqueue
    obtain ⟨outcome, hfound, hstored⟩ := h.outcome_of_lastSolved hlast
    refine ⟨record, outcome, hlast, hawaits.agree, hfound, hstored, h.pending_of_lastSolved hlast hfound hid hopen,
      h.exists_open_callee hpasses hid hopen hqueue, hawaits.registered, fun next callee hround hcalls hchanged => ?_⟩
    obtain ⟨outcomes, hround⟩ := round_eq_ok hround
    -- The round does not solve the function, so what it was last solved against would still be what is published.
    by_contra hsleeps
    have hopenNext : next.registry.isOpen (.function id) = true := by
      rw [Registry.isOpen_function, hround.get?_of_not_queued h.wellFormed hqueue]
      exact hisOpen
    obtain ⟨record', hlast', hawaits'⟩ := hround.wakes h.wellFormed hpasses hsteady hwakes id hopenNext hsleeps
    rw [lastSolved_cons_of_not_mem fun hmem => hqueue (mem_batch.mp hmem), hlast] at hlast'
    cases hlast'
    exact hchanged ((hawaits'.agree callee hcalls).symm.trans (hawaits.agree callee hcalls))

/-- A program of two functions that call each other and nothing else. -/
def mutualRecursion : Problem where
  table := { SymbolTable.new 0 with symbols := (SymbolTable.new 0).symbols ++ #[
    { name := "isEven", position := .origin, data := .method { kind := .function, isBuiltin := false } },
    { name := "isOdd", position := .origin, data := .method { kind := .function, isBuiltin := false } }] }
  flow :=
    let flow := (Flow.empty.add "isOdd()" .origin (.function ⟨0, 1⟩) (.call ⟨0, 2⟩ [] 0)).2
    (flow.add "isEven()" .origin (.function ⟨0, 2⟩) (.call ⟨0, 1⟩ [] 0)).2
  lattice := { entries := [], erroneous := ⟨0, 0⟩, mixed := none }
  limits := {}

/-- The state after its first round. -/
def mutualRecursionSolved : Schedule := (Schedule.round mutualRecursion).leaves (.start mutualRecursion ∅)

/-- After the first round each of the two functions sleeps until the other changes. -/
theorem Reached.no_lost_wakeUp_mutualRecursion :
    ∃ history record outcome, Reached mutualRecursion ∅ history mutualRecursionSolved ∧
      lastSolved history (.function ⟨0, 1⟩) = some record ∧
      mutualRecursionSolved.outcomes.get? (.function ⟨0, 1⟩) = some outcome ∧ outcome.pending = true ∧
      .function ⟨0, 1⟩ ∈ mutualRecursionSolved.calls.waitingFor ⟨0, 2⟩ := by
  have hreached : Reached mutualRecursion ∅ _ mutualRecursionSolved := .round .start (by decide) (by decide) rfl
  have heven : mutualRecursionSolved.registry.get? ⟨0, 1⟩ = some {} := rfl
  have hodd : mutualRecursionSolved.registry.get? ⟨0, 2⟩ = some {} := rfl
  have hqueue : mutualRecursionSolved.queue = [] := by decide +kernel
  have hcalls : mutualRecursion.Calls (.function ⟨0, 1⟩) ⟨0, 2⟩ :=
    ⟨⟨_, _, rfl, rfl, rfl⟩, ⟨0⟩, by decide, _, _, _, rfl, rfl, rfl, rfl⟩
  obtain ⟨record, outcome, hlast, _, _, hstored, hpending, _, hregistered, _⟩ :=
    Reached.no_lost_wakeUp (by decide) hreached ⟨_, _, rfl, rfl, rfl⟩
      (by rw [Registry.isFinal_of_get? heven]; decide) (by rw [hqueue]; exact List.not_mem_nil)
  exact ⟨_, record, outcome, hreached, hlast, hstored, hpending,
    hregistered ⟨0, 2⟩ hcalls (by rw [Registry.isFinal_of_get? hodd]; decide)⟩

end Schedule

end SoftTyping
