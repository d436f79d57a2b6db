import SoftTyping.Proofs.Schedule.Solved
import SoftTyping.Proofs.Solver.Shaped

/-!
# The shape of solved bounds

Whatever a schedule publishes on its way takes normal unions, from the overloads of functions without a body to those that are
made final by force (`Reached.takesNormal`). Main statement: so the bounds in all bindings that are found on the way, or kept,
are shaped (`shaped_bindings`).
-/

namespace SoftTyping

namespace Schedule

variable {problem : Problem} {calls : CallGraph} {history : List RoundRecord} {schedule next : Schedule}

/-- What is published takes normal unions, and so did all against which outcomes were found. -/
structure TakesNormal (problem : Problem) (schedule : Schedule) : Prop where
  registry : schedule.registry.TakesNormal problem.lattice
  outcomes : ∀ {body outcome}, schedule.outcomes.get? body = some outcome → ∃ registry, registry.TakesNormal problem.lattice ∧
    (problem.withRegistry registry).outcome (problem.flow.body body) = .ok outcome

theorem TakesNormal.congr (h : schedule.TakesNormal problem) (hreg : next.registry = schedule.registry)
    (hocs : next.outcomes = schedule.outcomes) : next.TakesNormal problem :=
  ⟨hreg ▸ h.registry, hocs ▸ h.outcomes⟩

theorem takesNormal_fallback (problem : Problem) (function : SymbolId) (arity : Nat) :
    (problem.fallback function arity).TakesNormal problem.lattice := by
  intro parameter hpar
  rw [(List.mem_replicate.mp hpar).2]
  exact Lattice.isNormal_mixedUnion problem.lattice

theorem takesNormal_start (problem : Problem) (calls : CallGraph) : (start problem calls).TakesNormal problem := by
  refine ⟨fun id known hkn overload hov => ?_, nofun⟩
  rw [start, Problem.get?_initialRegistry] at hkn
  obtain ⟨symbol, _, hinitial⟩ := Option.bind_eq_some_iff.mp hkn
  unfold Problem.initial at hinitial
  split at hinitial
  · nomatch hinitial
  · split at hinitial
    · nomatch hinitial
    · split at hinitial
      · cases hinitial
        nomatch hov
      · cases hinitial
        rw [List.mem_singleton.mp hov]
        exact takesNormal_fallback problem _ _

variable (hsd : problem.table.Sound) (hgd : problem.flow.Generated problem.table)

include hsd hgd

/-- Taking over an outcome. -/
theorem takesNormal_revised {known : Published} {registry : Registry} {body : BodyId} {outcome : Outcome}
    (hreg : registry.TakesNormal problem.lattice)
    (hoc : (problem.withRegistry registry).outcome (problem.flow.body body) = .ok outcome)
    (hkn : ∀ overload ∈ known.overloads, overload.TakesNormal problem.lattice) :
    ∀ overload ∈ (known.revised outcome).overloads, overload.TakesNormal problem.lattice := by
  have hf : ∀ overload, overload ∈ outcome.overloads ∨ overload ∈ outcome.finalOverloads →
      overload.TakesNormal problem.lattice :=
    fun overload hov => SolveContext.takesNormal_outcome hsd hreg hgd hoc hov
  intro overload hov
  unfold Published.revised at hov
  split at hov
  · dsimp only at hov
    split at hov
    · exact hkn overload hov
    · exact hf overload (.inr hov)
  · split at hov
    · exact hf overload (.inr hov)
    · split at hov
      · exact hf overload (.inl hov)
      · exact hkn overload hov

theorem TakesNormal.round {outcomes : List Outcome} (h : schedule.TakesNormal problem) (hfm : schedule.WellFormed problem)
    (hrd : IsRound problem schedule outcomes next) : next.TakesNormal problem := by
  refine hrd.induction hfm (fun _ now => now.TakesNormal problem) (h.congr rfl rfl) ?_
  intro todo now outcome id known woken after htk hkn habs hnow
  refine ⟨fun other published hpub => ?_, fun {body found} hf => ?_⟩
  · rw [habs.registry] at hpub
    split at hpub
    · cases hpub
      exact takesNormal_revised hsd hgd h.registry htk.found (hnow.registry hkn)
    · exact hnow.registry hpub
  · rw [habs.outcomes] at hf
    split at hf
    · next hbdy =>
      cases hf
      subst hbdy
      exact ⟨schedule.registry, h.registry, htk.found⟩
    · exact hnow.outcomes hf

theorem TakesNormal.forced (h : schedule.TakesNormal problem) (report : RecursionReport) (function : SymbolId) :
    (schedule.forced problem report function).TakesNormal problem := by
  refine ⟨fun other published hpub => ?_, h.outcomes⟩
  simp only [Schedule.forced, OrderedMap.get?_insert] at hpub
  split at hpub
  · cases hpub
    intro overload hov
    simp only [finalNow] at hov
    split at hov
    · next outcome hoc =>
      split at hov
      · rw [List.mem_singleton.mp hov]
        exact takesNormal_fallback problem _ _
      · obtain ⟨registry, hreg, hf⟩ := h.outcomes hoc
        exact SolveContext.takesNormal_outcome hsd hreg hgd hf (.inr hov)
    · rw [List.mem_singleton.mp hov]
      exact takesNormal_fallback problem _ _
  · exact h.registry hpub

theorem TakesNormal.allForced (h : schedule.TakesNormal problem) : (schedule.allForced problem).TakesNormal problem := by
  unfold Schedule.allForced
  generalize schedule.registry.unfinished = functions, schedule.calls.recursion = report
  induction functions generalizing schedule with
  | nil => exact h
  | cons function rest ih => exact ih (h.forced hsd hgd report function)

/-- In every state what is published takes normal unions. -/
theorem Reached.takesNormal (h : Reached problem calls history schedule) : schedule.TakesNormal problem := by
  induction h with
  | start => exact takesNormal_start problem calls
  | round hrch _ _ hrd ih =>
    obtain ⟨outcomes, hrd⟩ := round_eq_ok hrd
    exact ih.round hsd hgd hrch.wellFormed hrd
  | @release _ schedule _ _ _ ih =>
    obtain ⟨hreg, hocs, _⟩ := foldl_wake_frame schedule.registry.unfinished (schedule.allForced problem)
    exact (ih.allForced hsd hgd).congr hreg hocs
  | exhaust _ _ _ ih =>
    exact TakesNormal.allForced hsd hgd (ih.congr rfl rfl)

end Schedule

namespace Workspace

/-- Of a program that has been analysed, in every state of its schedule, and in every binding of an outcome that is kept then
or found against what is published then: an upper bound is missing or the lower bound, a member of a lower bound promotes to
another of its members at no other level than zero, the bounds of a variable are fixed if and only if it is a parameter or its
type is given, and every parameter of the body has bounds that are fixed. -/
theorem shaped_bindings {rules : NameRules} {w w₁ w₂ w₃ : Workspace} {limits : Limits} {calls : CallGraph}
    {history : List Schedule.RoundRecord} {schedule : Schedule} (hanalysed : Analysed rules w w₁ w₂ w₃)
    (hreached : Schedule.Reached (w₃.problem limits) calls history schedule) {body : BodyId} {outcome : Outcome}
    (houtcome : schedule.outcomes.get? body = some outcome ∨
      ((w₃.problem limits).withRegistry schedule.registry).outcome (w₃.flow.body body) = .ok outcome)
    {binding : Binding} (hbinding : binding ∈ outcome.bindings) :
    (∀ id bounds, binding.bounds.get? id = some bounds →
        (bounds.upper = ∅ ∨ bounds.upper = bounds.lower) ∧
        (∀ a ∈ bounds.lower.symbols, ∀ b ∈ bounds.lower.symbols, ∀ level,
          (Lattice.ofTable w₃.table).promotionLevel? a b = some level → level = 0) ∧
        (bounds.fixed = true ↔
          ∃ var, w₃.flow.typeVar? id = some var ∧ (var.parameterIndex.isSome = true ∨ var.fixed.isSome = true))) ∧
      ∀ id ∈ (w₃.flow.body body).parameters, ∃ bounds, binding.bounds.get? id = some bounds ∧ bounds.fixed = true := by
  have hsound := hanalysed.types.typed.sound
  have hgenerated := hanalysed.types.typed.generated
  have hnormal := hreached.takesNormal hsound hgenerated
  obtain ⟨registry, hregistry, hfound⟩ : ∃ registry : Registry, registry.TakesNormal (.ofTable w₃.table) ∧
      ((w₃.problem limits).withRegistry registry).outcome (w₃.flow.body body) = .ok outcome :=
    houtcome.elim hnormal.outcomes fun hfound => ⟨_, hnormal.registry, hfound⟩
  obtain ⟨plan, hplanned⟩ := SolveContext.outcome_eq_ok hfound
  rw [hplanned.bindings] at hbinding
  obtain ⟨run, hrun, rfl⟩ := List.mem_map.mp hbinding
  obtain ⟨tolerant, hends⟩ := Plan.ends_of_mem_solve hrun
  have hshaped := (SolveContext.invariant_shaped hsound hregistry hgenerated hplanned.planned).ends hends
  refine ⟨fun id bounds hbounds => ⟨(hshaped.bounds hbounds).upper, fun a ha b hb level hlevel => ?_, hshaped.fixed hbounds⟩,
    fun id hid => SolveContext.exists_fixed_of_ends hsound hregistry hgenerated hplanned.planned hends hid⟩
  exact (hshaped.bounds hbounds).normal.level_eq_zero ha hb hlevel

/-- The function of the looping program has two bindings, one for each type that its parameter may have, and in both the
bounds of the parameter are fixed and shaped. -/
theorem shaped_bindings_looping :
    let registry := (Schedule.start (loopingTyped.problem {}) ∅).registry
    ∃ outcome, ((loopingTyped.problem {}).withRegistry registry).outcome (loopingTyped.flow.body (.function ⟨0, 11⟩)) =
        .ok outcome ∧ outcome.bindings.length = 2 ∧ ∀ binding ∈ outcome.bindings, ∃ bounds,
          binding.bounds.get? ⟨0⟩ = some bounds ∧ bounds.fixed = true ∧ (bounds.upper = ∅ ∨ bounds.upper = bounds.lower) := by
  intro registry
  have hsolved : (((loopingTyped.problem {}).withRegistry registry).outcome
      (loopingTyped.flow.body (.function ⟨0, 11⟩))).toOption.any (fun outcome => outcome.bindings.length = 2) = true := by
    decide +kernel
  cases hfound : ((loopingTyped.problem {}).withRegistry registry).outcome (loopingTyped.flow.body (.function ⟨0, 11⟩)) with
  | error =>
    rw [hfound] at hsolved
    nomatch hsolved
  | ok outcome =>
    rw [hfound] at hsolved
    refine ⟨outcome, rfl, of_decide_eq_true hsolved, fun binding hbinding => ?_⟩
    obtain ⟨hshaped, hparameters⟩ := shaped_bindings analysed_looping .start (.inr hfound) hbinding
    obtain ⟨bounds, hbounds, hfixed⟩ := hparameters ⟨0⟩ (by decide +kernel)
    exact ⟨bounds, hbounds, hfixed, (hshaped ⟨0⟩ bounds hbounds).1⟩

end Workspace

end SoftTyping
