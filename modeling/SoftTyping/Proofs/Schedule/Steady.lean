import SoftTyping.Proofs.Schedule.Round

/-!
# What a round changes

A round leaves every function that is not queued as it is, and a final function final. A final function is even left
exactly as it is when it is steady: what was found of it is what solving its body gives, and it calls final functions
only. Functions become steady when they become final, so the others never see a final function change (`IsRound.steady`).
-/

namespace SoftTyping

open Refusal

namespace Registry

variable {registry other : Registry} {id : SymbolId} {known : Published}

theorem IsFinal.congr (h : registry.IsFinal id) (heq : other.get? id = registry.get? id) : other.IsFinal id := by
  obtain ⟨known, hkn, hfin⟩ := h
  exact ⟨known, heq.trans hkn, hfin⟩

theorem isFinal_of_get? (hkn : registry.get? id = some known) : registry.IsFinal id ↔ known.final = true := by
  constructor
  · rintro ⟨known', hkn', hfin⟩
    rw [hkn] at hkn'
    cases hkn'
    exact hfin
  · exact fun hfin => ⟨known, hkn, hfin⟩

end Registry

namespace Schedule

variable {problem : Problem} {schedule next : Schedule} {outcomes : List Outcome} {outcome : Outcome} {id other : SymbolId}
  {known : Published} {woken : Bool}

/-! ## What is published -/

section

variable (h : Absorbs schedule id known outcome woken next)

include h

theorem Absorbs.get?_of_ne (hne : id ≠ other) : next.registry.get? other = schedule.registry.get? other := by
  rw [h.registry, if_neg hne]

theorem Absorbs.get?_self : next.registry.get? id = some (known.revised outcome) := by
  rw [h.registry, if_pos rfl]

theorem Absorbs.get?_of_revised (hkn : schedule.registry.get? id = some known)
    (hsm : known.revised outcome = known) (other : SymbolId) :
    next.registry.get? other = schedule.registry.get? other := by
  rw [h.registry, hsm]
  split
  · next heq => rw [← heq, hkn]
  · rfl

theorem Absorbs.isFinal (hkn : schedule.registry.get? id = some known)
    (hfin : schedule.registry.IsFinal other) : next.registry.IsFinal other := by
  by_cases hid : id = other
  · subst hid
    rw [Registry.isFinal_of_get? hkn] at hfin
    rw [Registry.isFinal_of_get? h.get?_self, Published.final_revised, hfin, Bool.true_or]
  · exact hfin.congr (h.get?_of_ne hid)

end

namespace IsRound

section

variable (h : IsRound problem schedule outcomes next)

include h

theorem isSome_get? (hfm : schedule.WellFormed problem) (id : SymbolId) :
    (next.registry.get? id).isSome = (schedule.registry.get? id).isSome := by
  refine h.induction hfm (fun _ now => (now.registry.get? id).isSome = (schedule.registry.get? id).isSome) rfl ?_
  intro todo now outcome id' known woken after htk hkn habs hnow
  rw [← hnow, habs.registry]
  split
  · next heq =>
    subst heq
    rw [hkn]
    rfl
  · rfl

theorem isFinal (hfm : schedule.WellFormed problem) (hfin : schedule.registry.IsFinal id) : next.registry.IsFinal id := by
  refine h.induction hfm (fun _ now => now.registry.IsFinal id) hfin ?_
  intro todo now outcome id' known woken after htk hkn habs hnow
  exact habs.isFinal hkn hnow

theorem get?_of_not_queued (hfm : schedule.WellFormed problem) (hid : .function id ∉ schedule.queue) :
    next.registry.get? id = schedule.registry.get? id := by
  refine h.induction hfm (fun _ now => now.registry.get? id = schedule.registry.get? id) rfl ?_
  intro todo now outcome id' known woken after htk hkn habs hnow
  have hne : id' ≠ id := by
    rintro rfl
    exact hid htk.queued
  rw [habs.get?_of_ne hne, hnow]

theorem rounds_eq (hfm : schedule.WellFormed problem) : next.rounds = schedule.rounds + 1 := by
  refine h.induction hfm (fun _ now => now.rounds = schedule.rounds + 1) rfl ?_
  intro todo now outcome id known woken after _ _ habs hnow
  rw [habs.rounds, hnow]

theorem issues_eq (hfm : schedule.WellFormed problem) : next.issues = schedule.issues := by
  refine h.induction hfm (fun _ now => now.issues = schedule.issues) rfl ?_
  intro todo now outcome id known woken after _ _ habs hnow
  rw [habs.issues, hnow]

theorem wellFormed (hfm : schedule.WellFormed problem) : next.WellFormed problem := by
  refine h.induction hfm (fun _ now => now.WellFormed problem) ⟨hfm.bodies, fun body hbdy => nomatch hbdy⟩ ?_
  intro todo now outcome id known woken after htk hkn habs hnow
  have hbdys : ∀ other known', after.registry.get? other = some known' → known'.final = false →
      (problem.flow.body? (.function other)).isSome := by
    intro other known' hkn' hop
    by_cases hid : id = other
    · exact hid ▸ htk.solvable
    · exact hnow.bodies other known' ((habs.get?_of_ne hid).symm.trans hkn') hop
  refine ⟨hbdys, fun body hbdy => ?_⟩
  rcases (habs.queue body).mp hbdy with hold | ⟨_, _, hop⟩
  · obtain ⟨id', known', rfl, hkn', hsolvable⟩ := hnow.queue body hold
    by_cases hid : id = id'
    · subst hid
      exact ⟨id, _, rfl, habs.get?_self, hsolvable⟩
    · exact ⟨id', known', rfl, (habs.get?_of_ne hid).trans hkn', hsolvable⟩
  · cases body with
    | global => nomatch hop
    | function id' =>
      obtain ⟨known', hkn', hfin⟩ := Registry.isOpen_function.mp hop
      exact ⟨id', known', rfl, hkn', hbdys id' known' hkn' hfin⟩

/-! ## What is found -/

theorem takes_of_queued (hfm : schedule.WellFormed problem) (hid : .function id ∈ schedule.queue) :
    ∃ known outcome, Takes problem schedule id known outcome ∧ next.outcomes.get? (.function id) = some outcome ∧
      next.registry.get? id = some (known.revised outcome) := by
  have hinv := h.induction hfm (fun todo now => (∃ outcome ∈ todo, outcome.body = .function id) ∨
    ∃ known outcome, Takes problem schedule id known outcome ∧ now.outcomes.get? (.function id) = some outcome ∧
      now.registry.get? id = some (known.revised outcome)) ?_ ?_
  · simpa using hinv
  · have hmem := mem_batch.mpr hid
    rw [← h.map_body] at hmem
    exact .inl (List.mem_map.mp hmem)
  · intro todo now outcome id' known woken after htk _ habs hnow
    by_cases heq : id' = id
    · subst heq
      exact .inr ⟨known, outcome, htk, by rw [habs.outcomes, if_pos rfl], habs.get?_self⟩
    · have hne : BodyId.function id' ≠ .function id := fun hbdy => heq (BodyId.function.inj hbdy)
      rcases hnow with ⟨other, hoth, hof⟩ | ⟨known', outcome', htk', hstd, hget⟩
      · rcases List.mem_cons.mp hoth with rfl | hoth
        · exact absurd (htk.body.symm.trans hof) hne
        · exact .inl ⟨other, hoth, hof⟩
      · exact .inr ⟨known', outcome', htk', by rw [habs.outcomes, if_neg hne, hstd], by rw [habs.get?_of_ne heq, hget]⟩

theorem outcome_of_queued (hfm : schedule.WellFormed problem) {body : BodyId} (hbdy : body ∈ schedule.queue) :
    ∃ outcome, (problem.withRegistry schedule.registry).outcome (problem.flow.body body) = .ok outcome ∧
      next.outcomes.get? body = some outcome := by
  obtain ⟨id, _, rfl, _⟩ := hfm.queue body hbdy
  obtain ⟨_, outcome, htk, hstd, _⟩ := h.takes_of_queued hfm hbdy
  exact ⟨outcome, htk.found, hstd⟩

theorem isFinal_of_queued (hfm : schedule.WellFormed problem) (hid : .function id ∈ schedule.queue)
    (hf : (problem.withRegistry schedule.registry).outcome (problem.flow.body (.function id)) = .ok outcome)
    (hpen : outcome.pending = false) : next.registry.IsFinal id := by
  obtain ⟨_, _, htk, _, hget⟩ := h.takes_of_queued hfm hid
  cases htk.found.symm.trans hf
  exact ⟨_, hget, by rw [Published.final_revised, hpen, Bool.not_false, Bool.or_true]⟩

theorem outcome_of_not_queued (hfm : schedule.WellFormed problem)
    {body : BodyId} (hbdy : body ∉ schedule.queue) : next.outcomes.get? body = schedule.outcomes.get? body := by
  refine h.induction hfm (fun _ now => now.outcomes.get? body = schedule.outcomes.get? body) rfl ?_
  intro todo now outcome id known woken after htk _ habs hnow
  have hne : .function id ≠ body := by
    rintro rfl
    exact hbdy htk.queued
  rw [habs.outcomes, if_neg hne, hnow]

end

end IsRound

/-! ## Steady functions -/

/-- A function whose body is solved for good: its outcome is what its body gives against the registry, its final overloads
are published, and it calls final functions only. -/
structure IsSteady (problem : Problem) (schedule : Schedule) (id : SymbolId) (outcome : Outcome) : Prop where
  stored : schedule.outcomes.get? (.function id) = some outcome
  found : (problem.withRegistry schedule.registry).outcome (problem.flow.body (.function id)) = .ok outcome
  published : schedule.registry.get? id = some { overloads := outcome.finalOverloads, final := true }
  callees : ∀ callee, problem.Calls (.function id) callee → schedule.registry.IsFinal callee

/-- The final functions among some are steady, as far as they have a body. -/
def Steady (problem : Problem) (among : SymbolId → Prop) (schedule : Schedule) : Prop :=
  ∀ id, among id → schedule.registry.IsFinal id → (problem.flow.body? (.function id)).isSome →
    ∃ outcome, IsSteady problem schedule id outcome

/-- Functions that call each other only. -/
def ClosedUnderCalls (problem : Problem) (among : SymbolId → Prop) : Prop :=
  ∀ id callee, among id → problem.Calls (.function id) callee → among callee

/-- A function stays steady when its outcome and what is published of it and of the functions it calls stay. -/
theorem IsSteady.congr (h : IsSteady problem schedule id outcome) (hstd : next.outcomes.get? (.function id) = some outcome)
    (hself : next.registry.get? id = schedule.registry.get? id)
    (hces : ∀ callee, problem.Calls (.function id) callee →
      next.registry.get? callee = schedule.registry.get? callee) : IsSteady problem next id outcome where
  stored := hstd
  found := (Problem.outcome_congr hces).trans h.found
  published := hself.trans h.published
  callees callee hcs := (h.callees callee hcs).congr (hces callee hcs)

theorem IsSteady.revised_eq (h : IsSteady problem schedule id outcome) (hkn : schedule.registry.get? id = some known) :
    known.revised outcome = known := by
  rw [h.published] at hkn
  cases hkn
  simp [Published.revised]

/-- Until a round is over, the final functions are known as they were before it, and they are steady. -/
structure KeepsFinal (problem : Problem) (among : SymbolId → Prop) (before now : Schedule) : Prop where
  kept : ∀ id, among id → before.registry.IsFinal id → now.registry.get? id = before.registry.get? id
  steady : now.Steady problem among

section

variable {among : SymbolId → Prop} {now after : Schedule}

theorem Steady.isSteady_of_takes (h : schedule.Steady problem among) (hid : among id)
    (htk : Takes problem schedule id known outcome) (hfin : known.final = true) :
    IsSteady problem schedule id outcome := by
  obtain ⟨outcome', hsty⟩ := h id hid ⟨known, htk.known, hfin⟩ htk.solvable
  have hsm := hsty.found.symm.trans htk.found
  cases hsm
  exact hsty

/-- Taking over an outcome keeps a function steady that is not the outcome's and does not call it. -/
theorem Absorbs.isSteady_of_ne {outcome' : Outcome}
    (habs : Absorbs now id known outcome woken after) (h : IsSteady problem now other outcome') (hne : id ≠ other)
    (hces : ∀ callee, problem.Calls (.function other) callee → id ≠ callee) :
    IsSteady problem after other outcome' := by
  refine h.congr ?_ (habs.get?_of_ne hne) fun callee hcs => habs.get?_of_ne (hces callee hcs)
  rw [habs.outcomes, if_neg (fun heq => hne (BodyId.function.inj heq)), h.stored]

namespace KeepsFinal

variable (h : KeepsFinal problem among schedule now) (hcld : ClosedUnderCalls problem among)
  (habs : Absorbs now id known outcome woken after)

include h hcld habs

theorem absorb_of_not_among (hid : ¬ among id) : KeepsFinal problem among schedule after := by
  have hne : ∀ other, among other → id ≠ other := by
    rintro other hoth rfl
    exact hid hoth
  refine ⟨fun other hoth hfin => ?_, fun other hoth hfin hbdy => ?_⟩
  · rw [habs.get?_of_ne (hne other hoth), h.kept other hoth hfin]
  · have hfin := hfin.congr (habs.get?_of_ne (hne other hoth)).symm
    obtain ⟨outcome', hsty⟩ := h.steady other hoth hfin hbdy
    exact ⟨outcome', habs.isSteady_of_ne hsty (hne other hoth) fun callee hcs =>
      hne callee (hcld other callee hoth hcs)⟩

variable (htk : Takes problem schedule id known outcome) (hkn : now.registry.get? id = some known)

include htk hkn

theorem absorb_of_final (hsty : schedule.Steady problem among) (hid : among id) (hfin : known.final = true) :
    KeepsFinal problem among schedule after := by
  have hbef := hsty.isSteady_of_takes hid htk hfin
  have hsm := habs.get?_of_revised hkn (hbef.revised_eq htk.known)
  refine ⟨fun other hoth hoth' => (hsm other).trans (h.kept other hoth hoth'),
    fun other hoth hoth' hbdy => ?_⟩
  obtain ⟨outcome', hnow⟩ := h.steady other hoth (hoth'.congr (hsm other).symm) hbdy
  refine ⟨outcome', hnow.congr ?_ (hsm other) fun callee _ => hsm callee⟩
  rw [habs.outcomes]
  split
  · next heq =>
    -- Both outcomes are what the body gives, since the functions it calls are known as they were.
    cases heq
    have hagree : problem.Agree (.function id) schedule.registry now.registry := fun callee hcs =>
      (h.kept callee (hcld id callee hid hcs) (hbef.callees callee hcs)).symm
    have hf := hbef.found.symm.trans ((Problem.outcome_congr hagree).trans hnow.found)
    cases hf
    rfl
  · exact hnow.stored

theorem absorb_of_open (hps : problem.limits.passes ≠ 0) (hid : among id) (hop : known.final = false) :
    KeepsFinal problem among schedule after := by
  have hne : ∀ {registry : Registry} {other}, registry.get? id = some known → registry.IsFinal other → id ≠ other := by
    rintro registry other hget hfin rfl
    rw [Registry.isFinal_of_get? hget, hop] at hfin
    exact Bool.false_ne_true hfin
  refine ⟨fun other hoth hfin => ?_, fun other hoth hfin hbdy => ?_⟩
  · rw [habs.get?_of_ne (hne htk.known hfin), h.kept other hoth hfin]
  · by_cases heq : id = other
    · subst heq
      rw [Registry.isFinal_of_get? habs.get?_self, Published.final_revised, hop, Bool.false_or,
        Bool.not_eq_true'] at hfin
      have hces : ∀ callee, problem.Calls (.function id) callee → schedule.registry.IsFinal callee := by
        intro callee hcs
        by_contra hce
        have hpen := (Problem.pending_outcome_iff hps htk.found).mpr ⟨callee, hcs, hce⟩
        rw [hfin] at hpen
        exact Bool.false_ne_true hpen
      have hagree : problem.Agree (.function id) after.registry schedule.registry := fun callee hcs => by
        rw [habs.get?_of_ne (hne htk.known (hces callee hcs)),
          h.kept callee (hcld id callee hid hcs) (hces callee hcs)]
      refine ⟨outcome, ?_, (Problem.outcome_congr hagree).trans htk.found, ?_, fun callee hcs =>
        (hces callee hcs).congr (hagree callee hcs)⟩
      · rw [habs.outcomes, if_pos rfl]
      · rw [habs.get?_self]
        simp [Published.revised, hop, hfin]
    · obtain ⟨outcome', hsty⟩ := h.steady other hoth (hfin.congr (habs.get?_of_ne heq).symm) hbdy
      exact ⟨outcome', habs.isSteady_of_ne hsty heq fun callee hcs =>
        hne hkn (hsty.callees callee hcs)⟩

theorem absorb (hps : problem.limits.passes ≠ 0) (hsty : schedule.Steady problem among) :
    KeepsFinal problem among schedule after := by
  by_cases hid : among id
  · cases hfin : known.final with
    | true => exact h.absorb_of_final hcld habs htk hkn hsty hid hfin
    | false => exact h.absorb_of_open hcld habs htk hkn hps hid hfin
  · exact h.absorb_of_not_among hcld habs hid

end KeepsFinal

/-- Final functions that call each other only stay steady through a round. -/
theorem IsRound.steady (h : IsRound problem schedule outcomes next) (hfm : schedule.WellFormed problem)
    (hps : problem.limits.passes ≠ 0) (hcld : ClosedUnderCalls problem among)
    (hsty : schedule.Steady problem among) : next.Steady problem among := by
  have hst : KeepsFinal problem among schedule (schedule.solved problem) := by
    refine ⟨fun _ _ _ => rfl, fun id hid hfin hbdy => ?_⟩
    obtain ⟨outcome, hof⟩ := hsty id hid hfin hbdy
    exact ⟨outcome, hof.stored, hof.found, hof.published, hof.callees⟩
  refine (h.induction hfm (fun _ now => KeepsFinal problem among schedule now) hst ?_).steady
  intro todo now outcome id known woken after htk hkn habs hnow
  exact hnow.absorb hcld habs htk hkn hps hsty

end

end Schedule

end SoftTyping
