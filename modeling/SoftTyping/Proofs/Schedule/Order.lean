import Mathlib.Data.List.Nodup
import SoftTyping.Proofs.Schedule.Reached

/-!
# The order of outcomes

A round takes over the outcomes of its bodies one by one. Each changes what is published of its own function only, so the
registry does not depend on the order. Nor do the bodies that are queued: an outcome wakes those who wait for its function
as long as they are open, and one that becomes final in the same round calls final functions only, so it waits for none
that has news. Main statement: `IsRound.any_order`.
-/

namespace SoftTyping

open Refusal SolveContext Schedule

theorem OrderedMap.eq_of_get? {κ α : Type} [DecidableEq κ] {first second : OrderedMap κ α}
    (hks : first.keys = second.keys) (h : ∀ key, first.get? key = second.get? key) : first = second := by
  have hes : first.entries = second.entries := by
    refine List.ext_getElem? fun index => ?_
    have hix : (first.entries[index]?).map Prod.fst = (second.entries[index]?).map Prod.fst := by
      rw [← List.getElem?_map, ← List.getElem?_map]
      exact congrArg (·[index]?) hks
    cases hfst : first.entries[index]? with
    | none =>
      rw [hfst] at hix
      exact (Option.map_eq_none_iff.mp hix.symm).symm
    | some entry =>
      rw [hfst] at hix
      obtain ⟨entry', hsnd, hkey⟩ := Option.map_eq_some_iff.mp hix.symm
      have hvl := get?_eq_some_iff.mpr (List.mem_of_getElem? hfst)
      have hvl' := get?_eq_some_iff.mpr (List.mem_of_getElem? hsnd)
      rw [← hkey, h, hvl'] at hvl
      rw [hsnd, Prod.ext hkey (Option.some.inj hvl)]
  obtain ⟨entries, nodup⟩ := first
  obtain ⟨entries', nodup'⟩ := second
  cases hes
  rfl

theorem SolveContext.mem_of_mem_reached {context : SolveContext} {body : Body} {ids : List TypeVarId} {id : TypeVarId}
    (h : id ∈ context.reached body ids) : id ∈ ids := by
  induction ids with
  | nil => exact h
  | cons first rest ih =>
    unfold reached at h
    split at h
    · exact List.mem_cons.mpr ((List.mem_cons.mp h).imp_right ih)
    · exact List.mem_cons.mpr (.inl (List.mem_singleton.mp h))

namespace Problem

variable {problem : Problem} {registry : Registry} {body : BodyId} {callee : SymbolId} {site : Nat}

theorem calls_of_mem_waits (h : (callee, site) ∈ (problem.withRegistry registry).waits (problem.flow.body body)) :
    problem.limits.passes ≠ 0 ∧ problem.Calls body callee := by
  unfold waits at h
  split at h
  · obtain ⟨id, hid, hwait⟩ := List.mem_filterMap.mp h
    have hid := mem_of_mem_reached hid
    have hps : problem.limits.passes ≠ 0 := by
      intro hno
      have hid : id ∈ if problem.limits.passes = 0 then [] else (problem.flow.body body).typeVars := hid
      rw [if_pos hno] at hid
      cases hid
    refine ⟨hps, ?_⟩
    unfold wait? at hwait
    split at hwait
    · cases hwait
    · next var hvar =>
      split at hwait
      · next hfx hix hcon =>
        split at hwait
        · next symbol data hce =>
          obtain ⟨hsym, hmth⟩ := callee_eq_ok.mp hce
          split at hwait
          · cases hwait
          · next hop =>
            cases hwait
            have hblt : data.isBuiltin = false := by
              by_contra hblt
              rw [published, if_pos (Bool.eq_true_of_not_eq_false hblt)] at hop
              exact hop rfl
            exact ⟨⟨symbol, data, hsym, hmth, hblt⟩, id, mem_typeVars_of_mem_evaluated hid, var, _, _,
              hvar, hfx, hix, hcon⟩
        · cases hwait
      · cases hwait
  · cases h

end Problem

namespace Schedule

variable {problem : Problem} {history : List RoundRecord} {schedule next now after : Schedule}
  {outcomes outcomes' left : List Outcome}
  {body : BodyId} {id callee : SymbolId} {known : Published} {outcome : Outcome} {woken : Bool}

/-! ## Who waits -/

theorem foldl_wake_waiting (ids : List SymbolId) (schedule : Schedule)
    (h : body ∈ (ids.foldl wake schedule).calls.waitingFor callee) : body ∈ schedule.calls.waitingFor callee := by
  induction ids generalizing schedule with
  | nil => exact h
  | cons first rest ih =>
    have hfst := ih (schedule.wake first) h
    simp only [wake, CallGraph.waitingFor_release] at hfst
    split at hfst
    · cases hfst
    · exact hfst

theorem foldl_forced_calls (problem : Problem) (report : RecursionReport) (ids : List SymbolId) (schedule : Schedule) :
    (ids.foldl (forced problem report) schedule).calls = schedule.calls := by
  induction ids generalizing schedule with
  | nil => rfl
  | cons first rest ih => exact ih (schedule.forced problem report first)

theorem Reached.calls_of_waiting (h : Reached problem ∅ history schedule) (hwaits : body ∈ schedule.calls.waitingFor callee) :
    problem.limits.passes ≠ 0 ∧ problem.Calls body callee := by
  induction h with
  | start => nomatch CallGraph.mem_waitingFor.mp hwaits
  | @round _ schedule _ hrch _ _ hrd ih =>
    obtain ⟨outcomes, hrd⟩ := round_eq_ok hrd
    -- Taking over outcomes adds nobody to those who wait, and solving a body lets it wait for what it calls.
    have hsvd : body ∈ (schedule.solved problem).calls.waitingFor callee := by
      refine hrd.induction hrch.wellFormed (fun _ now => body ∈ now.calls.waitingFor callee →
        body ∈ (schedule.solved problem).calls.waitingFor callee) id ?_ hwaits
      intro todo now outcome id known woken after _ _ habs hnow haf
      rw [habs.waiting] at haf
      split at haf
      · nomatch haf
      · exact hnow haf
    rcases mem_waitingFor_solved.mp hsvd with hold | ⟨_, site, hsi⟩
    · exact ih hold
    · exact Problem.calls_of_mem_waits hsi
  | release _ _ _ ih =>
    refine ih ?_
    have hfcd := foldl_wake_waiting _ _ hwaits
    rwa [allForced, foldl_forced_calls] at hfcd
  | exhaust _ _ _ ih =>
    refine ih ?_
    rwa [Schedule.exhausted, allForced, foldl_forced_calls] at hwaits

/-! ## Taking over outcomes in any order -/

/-- A function that a round leaves open: it was open before, and its outcome, if it has one, waits for something. -/
def StaysOpen (schedule : Schedule) (outcomes : List Outcome) (body : BodyId) : Prop :=
  ∃ id known, body = .function id ∧ schedule.registry.get? id = some known ∧ known.final = false ∧
    ∀ outcome ∈ outcomes, outcome.body = body → outcome.pending = true

/-- What holds when the outcomes of a round have been taken over, apart from those that are left. -/
structure TakenExcept (problem : Problem) (schedule : Schedule) (outcomes left : List Outcome) (now : Schedule) : Prop where
  sub : left.Sublist outcomes
  keys : now.registry.keys = schedule.registry.keys
  taken : ∀ outcome ∈ outcomes, outcome ∉ left → ∀ id known, Takes problem schedule id known outcome →
    now.registry.get? id = some (known.revised outcome)
  others : ∀ id, (∀ outcome ∈ outcomes, outcome.body = .function id → outcome ∈ left) →
    now.registry.get? id = schedule.registry.get? id ∧
      now.calls.waitingFor id = (schedule.solved problem).calls.waitingFor id

/-- The queue holds the bodies that wait for news and stay open, as far as the news has been taken over. -/
def QueuedExcept (problem : Problem) (schedule : Schedule) (outcomes left : List Outcome) (now : Schedule) : Prop :=
  ∀ body, body ∈ now.queue ↔ ∃ outcome ∈ outcomes, outcome ∉ left ∧ ∃ id known,
    Takes problem schedule id known outcome ∧ known.isNews outcome = true ∧
      body ∈ (schedule.solved problem).calls.waitingFor id ∧ StaysOpen schedule outcomes body

theorem takenExcept_solved (problem : Problem) (schedule : Schedule) (outcomes : List Outcome) :
    TakenExcept problem schedule outcomes outcomes (schedule.solved problem) where
  sub := .refl _
  keys := rfl
  taken := fun _ hmem hleft => absurd hmem hleft
  others := fun _ _ => ⟨rfl, rfl⟩

theorem TakesAll.unique (h : TakesAll problem schedule outcomes) (hoc : outcome ∈ outcomes) {other : Outcome}
    (hoth : other ∈ outcomes) (hbdy : outcome.body = other.body) : outcome = other :=
  List.inj_on_of_nodup_map h.nodup hoc hoth hbdy

/-- A body that waits for a function with news stays open exactly if it is open after that function's outcome has been
taken over: its own outcome waits, so it does not matter whether that has been taken over. -/
theorem isOpen_iff_staysOpen (hrch : Reached problem ∅ history schedule) (hall : TakesAll problem schedule outcomes)
    (hnow : TakenExcept problem schedule outcomes outcomes' now) (hop : ¬ schedule.registry.IsFinal id)
    (hwaits : body ∈ (schedule.solved problem).calls.waitingFor id) :
    now.registry.isOpen body = true ↔ StaysOpen schedule outcomes body := by
  have hcs : problem.limits.passes ≠ 0 ∧ problem.Calls body id := by
    rcases mem_waitingFor_solved.mp hwaits with hold | ⟨_, site, hsi⟩
    · exact hrch.calls_of_waiting hold
    · exact Problem.calls_of_mem_waits hsi
  cases body with
  | global =>
    constructor
    · intro h
      nomatch h
    · rintro ⟨_, _, hbdy, _⟩
      nomatch hbdy
  | function caller =>
    have hpen : ∀ outcome ∈ outcomes, outcome.body = .function caller → outcome.pending = true := by
      intro outcome hoc hbdy
      obtain ⟨id', known, htk⟩ := hall.takes outcome hoc
      cases htk.body.symm.trans hbdy
      exact (Problem.pending_outcome_iff hcs.1 htk.found).mpr ⟨id, hcs.2, hop⟩
    rw [Registry.isOpen_function]
    by_cases hleft : ∀ outcome ∈ outcomes, outcome.body = .function caller → outcome ∈ outcomes'
    · rw [(hnow.others caller hleft).1]
      constructor
      · rintro ⟨known, hkn, hfin⟩
        exact ⟨caller, known, rfl, hkn, hfin, hpen⟩
      · rintro ⟨_, known, hbdy, hkn, hfin, _⟩
        cases hbdy
        exact ⟨known, hkn, hfin⟩
    · push Not at hleft
      obtain ⟨outcome, hoc, hbdy, hnot⟩ := hleft
      obtain ⟨id', known, htk⟩ := hall.takes outcome hoc
      cases htk.body.symm.trans hbdy
      have hfin : (known.revised outcome).final = known.final := by
        rw [Published.final_revised, hpen outcome hoc hbdy, Bool.not_true, Bool.or_false]
      rw [hnow.taken outcome hoc hnot caller known htk]
      constructor
      · rintro ⟨_, hrevised, hop⟩
        cases hrevised
        exact ⟨caller, known, rfl, htk.known, hfin ▸ hop, hpen⟩
      · rintro ⟨_, _, hbdy, hkn, hop, _⟩
        cases hbdy
        cases htk.known.symm.trans hkn
        exact ⟨_, rfl, hfin ▸ hop⟩

section Step

variable (hall : TakesAll problem schedule outcomes) (hnow : TakenExcept problem schedule outcomes (outcome :: left) now)
  (htk : Takes problem schedule id known outcome) (habs : Absorbs now id known outcome woken after)

include hall hnow htk

theorem TakenExcept.not_mem_left : outcome ∈ outcomes ∧ outcome ∉ left ∧
    ∀ other ∈ outcomes, other.body = .function id → other = outcome := by
  have hoc : outcome ∈ outcomes := hnow.sub.subset List.mem_cons_self
  refine ⟨hoc, (List.nodup_cons.mp (hnow.sub.nodup (List.Nodup.of_map _ hall.nodup))).1, fun other hoth hbdy => ?_⟩
  exact hall.unique hoth hoc (hbdy.trans htk.body.symm)

include habs

theorem TakenExcept.absorb : TakenExcept problem schedule outcomes left after := by
  obtain ⟨hoc, hleft, huq⟩ := TakenExcept.not_mem_left hall hnow htk
  refine ⟨(List.sublist_cons_self ..).trans hnow.sub, habs.keys.trans hnow.keys, ?_, ?_⟩
  · intro other hoth hnot id' known' htk'
    by_cases hsm : other = outcome
    · subst hsm
      cases htk.body.symm.trans htk'.body
      cases htk.known.symm.trans htk'.known
      rw [habs.registry, if_pos rfl]
    · have hne : id ≠ id' := by
        rintro rfl
        exact hsm (huq other hoth htk'.body)
      rw [habs.registry, if_neg hne]
      exact hnow.taken other hoth (fun hmem => (List.mem_cons.mp hmem).elim hsm hnot) id' known' htk'
  · intro id' hid'
    have hne : id ≠ id' := by
      rintro rfl
      exact hleft (hid' outcome hoc htk.body)
    rw [habs.registry, if_neg hne, habs.waiting, if_neg fun h => hne h.2]
    exact hnow.others id' fun other hoth hbdy => List.mem_cons_of_mem _ (hid' other hoth hbdy)

theorem QueuedExcept.absorb (hrch : Reached problem ∅ history schedule)
    (hqu : QueuedExcept problem schedule outcomes (outcome :: left) now) :
    QueuedExcept problem schedule outcomes left after := by
  obtain ⟨hoc, hleft, huq⟩ := TakenExcept.not_mem_left hall hnow htk
  have hwt := (hnow.others id fun other hoth hbdy => huq other hoth hbdy ▸ List.mem_cons_self).2
  have haf := TakenExcept.absorb hall hnow htk habs
  intro body
  rw [habs.queue, hqu body, habs.news, hwt]
  constructor
  · rintro (⟨other, hoth, hnot, hrs⟩ | ⟨hnews, hwaits, hop⟩)
    · exact ⟨other, hoth, fun hmem => hnot (List.mem_cons_of_mem _ hmem), hrs⟩
    · have hnotFinal : ¬ schedule.registry.IsFinal id := by
        rw [Registry.isFinal_of_get? htk.known, habs.awake (habs.news.trans hnews)]
        exact Bool.false_ne_true
      exact ⟨outcome, hoc, hleft, id, known, htk, hnews, hwaits,
        (isOpen_iff_staysOpen hrch hall haf hnotFinal hwaits).mp hop⟩
  · rintro ⟨other, hoth, hnot, id', known', htk', hnews, hwaits, hsta⟩
    by_cases hsm : other = outcome
    · subst hsm
      cases htk.body.symm.trans htk'.body
      cases htk.known.symm.trans htk'.known
      have hnotFinal : ¬ schedule.registry.IsFinal id := by
        rw [Registry.isFinal_of_get? htk.known, habs.awake (habs.news.trans hnews)]
        exact Bool.false_ne_true
      exact .inr ⟨hnews, hwaits, (isOpen_iff_staysOpen hrch hall haf hnotFinal hwaits).mpr hsta⟩
    · exact .inl ⟨other, hoth, fun hmem => (List.mem_cons.mp hmem).elim hsm hnot, id', known', htk', hnews, hwaits,
        hsta⟩

end Step

/-- When all outcomes of a round have been taken over, in whatever order, the registry and the queue are known. -/
theorem TakesAll.takenExcept (hall : TakesAll problem schedule outcomes) (hrch : Reached problem ∅ history schedule) :
    TakenExcept problem schedule outcomes [] (outcomes.foldl absorb (schedule.solved problem)) ∧
      QueuedExcept problem schedule outcomes [] (outcomes.foldl absorb (schedule.solved problem)) := by
  refine hall.induction (fun left now => TakenExcept problem schedule outcomes left now ∧
    QueuedExcept problem schedule outcomes left now) ⟨takenExcept_solved problem schedule outcomes, ?_⟩ ?_
  · intro body
    constructor
    · intro h
      nomatch h
    · rintro ⟨outcome, hmem, hleft, _⟩
      exact absurd hmem hleft
  · rintro left now outcome id known woken after htk _ habs ⟨hnow, hqu⟩
    exact ⟨TakenExcept.absorb hall hnow htk habs, QueuedExcept.absorb hall hnow htk habs hrch hqu⟩

/-- The order in which the outcomes of a round are taken over changes neither the registry nor which bodies are queued. -/
theorem IsRound.any_order (h : IsRound problem schedule outcomes next) (hrch : Reached problem ∅ history schedule)
    (hperm : outcomes'.Perm outcomes) :
    (outcomes'.foldl absorb (schedule.solved problem)).registry = next.registry ∧
      ∀ body, body ∈ (outcomes'.foldl absorb (schedule.solved problem)).queue ↔ body ∈ next.queue := by
  have hall := h.takesAll hrch.wellFormed
  have hall' : TakesAll problem schedule outcomes' :=
    ⟨fun outcome hoc => hall.takes outcome (hperm.mem_iff.mp hoc), (hperm.map _).nodup_iff.mpr hall.nodup⟩
  obtain ⟨htaken, hqu⟩ := hall.takenExcept hrch
  obtain ⟨htaken', hqu'⟩ := hall'.takenExcept hrch
  rw [← h.taken] at htaken hqu
  refine ⟨OrderedMap.eq_of_get? (htaken'.keys.trans htaken.keys.symm) fun id => ?_, fun body => ?_⟩
  · by_cases hsvd : ∃ outcome ∈ outcomes, outcome.body = .function id
    · obtain ⟨outcome, hoc, hbdy⟩ := hsvd
      obtain ⟨id', known, htk⟩ := hall.takes outcome hoc
      cases htk.body.symm.trans hbdy
      rw [htaken.taken outcome hoc List.not_mem_nil id known htk,
        htaken'.taken outcome (hperm.mem_iff.mpr hoc) List.not_mem_nil id known htk]
    · push Not at hsvd
      rw [(htaken.others id fun outcome hoc hbdy => absurd hbdy (hsvd outcome hoc)).1,
        (htaken'.others id fun outcome hoc hbdy => absurd hbdy (hsvd outcome (hperm.mem_iff.mp hoc))).1]
  · rw [hqu body, hqu' body]
    simp only [StaysOpen, hperm.mem_iff]

end Schedule

end SoftTyping
