import Mathlib.Algebra.Order.BigOperators.Group.List
import Mathlib.Tactic.Ring
import SoftTyping.Proofs.Solver.Evaluation
import SoftTyping.Solver.Outcome

/-!
# The search over forks ends

A run that forks is replaced by at most as many branches as there may be bindings, and in each of them one parameter more
has a type. So a run with `n` parameters to fork on stands for at most `(b + 1) ^ n` runs, where `b` bounds the branches:
`weight` adds this up over the runs that wait, and every step of the search lowers it. Main statements: the search leaves
no run waiting (`waiting_search`), and every body has a run that holds (`solve_ne_nil`) and no more of them than there may be
bindings (`length_solve_le`).
-/

namespace SoftTyping

namespace Plan

/-- The parameters on which the calls of a body fork are kept by its rules. -/
def KeepsForkable (plan : Plan) : Prop :=
  ∀ id ∈ plan.forkable, ∀ rule, (id, rule) ∈ plan.rules → rule = .kept

theorem mem_forkable {plan : Plan} {id origin : TypeVarId} {index : Nat} {call : CallRule} {operand : Operand}
    (hcl : (id, Rule.call call) ∈ plan.rules) (hopd : operand ∈ call.operands)
    (horg : operand.origin = some (origin, index)) : origin ∈ plan.forkable := by
  unfold forkable
  rw [List.mem_eraseDups, List.mem_flatMap]
  refine ⟨(id, .call call), hcl, List.mem_filterMap.mpr ⟨operand, hopd, ?_⟩⟩
  rw [horg, Option.map_some]

/-- How many parameters a run can still fork on. -/
def openCount (plan : Plan) (run : Run) : Nat := plan.forkable.countP (fun id => !run.isFixed id)

end Plan

namespace Search

variable {plan : Plan} {lattice : Lattice} {limits : Limits} {tolerant : Bool} {search : Search}

/-- How many runs a run stands for at most. -/
def weight (plan : Plan) (limits : Limits) (run : Run) : Nat :=
  (max 1 limits.bindings + 1) ^ plan.openCount run

/-- How many runs the search has still to do at most. -/
def todo (plan : Plan) (limits : Limits) (search : Search) : Nat :=
  (search.waiting.map (weight plan limits)).sum

theorem weight_pos (plan : Plan) (limits : Limits) (run : Run) : 1 ≤ weight plan limits run :=
  Nat.one_le_pow _ _ (Nat.succ_pos _)

theorem capacity_le (limits : Limits) (search : Search) : search.capacity limits ≤ max 1 limits.bindings := by
  unfold capacity
  omega

theorem countP_lt_of_mem {α : Type} {test other : α → Bool} {items : List α} {item : α} (hmem : item ∈ items)
    (htest : test item = false) (hoth : other item = true) (hle : ∀ a ∈ items, test a = true → other a = true) :
    items.countP test < items.countP other := by
  obtain ⟨before, after, rfl⟩ := List.append_of_mem hmem
  have hbef := List.countP_mono_left (l := before) fun a ha => hle a (by simp [ha])
  have haf := List.countP_mono_left (l := after) fun a ha => hle a (by simp [ha])
  rw [List.countP_append, List.countP_append, List.countP_cons_of_neg (by simp [htest]), List.countP_cons_of_pos hoth]
  omega

/-- Each branch of a fork has one parameter less to fork on than the run before. -/
theorem openCount_branch_lt (hkp : plan.KeepsForkable) {run run' : Run} {fork : Fork}
    (h : plan.settle lattice limits.passes tolerant run = .forked run' fork) (candidate : ParameterType) :
    plan.openCount (run'.bindParameter fork.parameter fork.index candidate) < plan.openCount run := by
  obtain ⟨⟨id, call, hcl, ⟨operand, hopd, horg⟩, _⟩, hut, _⟩ := Plan.settle_eq_forked h
  have hmem := Plan.mem_forkable hcl hopd horg
  have hsta : ∀ id ∈ plan.forkable, run'.isFixed id = false → run.isFixed id = false := by
    intro id hid hfe
    by_contra hfx
    have := Plan.isFixed_settle lattice tolerant limits.passes (hkp id hid)
      (by simpa using hfx)
    rw [h, Progress.run, hfe] at this
    exact Bool.false_ne_true this
  refine countP_lt_of_mem hmem ?_ ?_ ?_
  · simp [Run.isFixed_bindParameter]
  · simp [hsta _ hmem hut]
  · intro a ha hfe
    rw [Run.isFixed_bindParameter] at hfe
    simp only [Bool.not_or, Bool.and_eq_true, Bool.not_eq_true'] at hfe
    simp [hsta a ha hfe.2]

/-- The branches of a fork together stand for fewer runs than the run that forks. -/
theorem sum_branches_lt (hkp : plan.KeepsForkable) {run run' : Run} {fork : Fork}
    (h : plan.settle lattice limits.passes tolerant run = .forked run' fork) {room : Nat}
    (hroom : room ≤ max 1 limits.bindings) :
    ((branches run' fork room).map (weight plan limits)).sum < weight plan limits run := by
  obtain ⟨count, hcount⟩ : ∃ count, plan.openCount run = count + 1 := by
    obtain ⟨candidate, _⟩ := List.exists_mem_of_ne_nil _ (Plan.settle_eq_forked h).branches
    have := openCount_branch_lt hkp h candidate
    exact ⟨plan.openCount run - 1, by omega⟩
  have hone : ∀ w ∈ (branches run' fork room).map (weight plan limits), w ≤ (max 1 limits.bindings + 1) ^ count := by
    intro w hw
    obtain ⟨branch, hbr, rfl⟩ := List.mem_map.mp hw
    obtain ⟨candidate, _, rfl⟩ := List.mem_map.mp hbr
    have := openCount_branch_lt hkp h candidate
    exact Nat.pow_le_pow_right (Nat.succ_pos _) (by omega)
  have hlen : ((branches run' fork room).map (weight plan limits)).length ≤ max 1 limits.bindings := by
    rw [List.length_map, branches, List.length_map, List.length_take]
    omega
  calc ((branches run' fork room).map (weight plan limits)).sum
    _ ≤ ((branches run' fork room).map (weight plan limits)).length * (max 1 limits.bindings + 1) ^ count := by
      simpa using List.sum_le_card_nsmul _ _ hone
    _ ≤ max 1 limits.bindings * (max 1 limits.bindings + 1) ^ count := Nat.mul_le_mul_right _ hlen
    _ < (max 1 limits.bindings + 1) * (max 1 limits.bindings + 1) ^ count :=
      Nat.mul_lt_mul_of_pos_right (Nat.lt_succ_self _) (Nat.pow_pos (Nat.succ_pos _))
    _ = weight plan limits run := by rw [weight, hcount]; ring

theorem todo_step_lt (lattice : Lattice) (limits : Limits) (tolerant : Bool) (hkp : plan.KeepsForkable)
    (hwt : search.waiting ≠ []) :
    todo plan limits (search.step plan lattice limits tolerant) < todo plan limits search := by
  obtain ⟨waiting, done, failed, capped⟩ := search
  cases waiting with
  | nil => exact absurd rfl hwt
  | cons run rest =>
    simp only [step, todo, List.map_cons, List.sum_cons]
    have hpos := weight_pos plan limits run
    cases hstl : plan.settle lattice limits.passes tolerant run with
    | finished run' changed =>
      dsimp only
      split <;> dsimp only <;> omega
    | forked run' fork =>
      dsimp only
      have hlt := sum_branches_lt hkp hstl
        (capacity_le limits { waiting := run :: rest, done, failed, capped })
      rw [List.map_append, List.sum_append]
      omega

theorem waiting_runs (hkp : plan.KeepsForkable) (steps : Nat) (h : todo plan limits search ≤ steps) :
    (runs plan lattice limits tolerant steps search).waiting = [] := by
  induction steps generalizing search with
  | zero =>
    rw [runs]
    cases hwt : search.waiting with
    | nil => rfl
    | cons run rest =>
      have hpos := weight_pos plan limits run
      simp only [todo, hwt, List.map_cons, List.sum_cons] at h
      omega
  | succ steps ih =>
    rw [runs]
    split
    · next hem => exact List.isEmpty_iff.mp hem
    · next hne =>
      have hlt := todo_step_lt lattice limits tolerant hkp
        (fun hnil => hne (List.isEmpty_iff.mpr hnil))
      exact ih (by omega)

/-! ## What a search finds -/

theorem runs_of_waiting_nil (h : search.waiting = []) (steps : Nat) :
    runs plan lattice limits tolerant steps search = search := by
  cases steps with
  | zero => rfl
  | succ steps => rw [runs, h, List.isEmpty_nil, if_pos rfl]

theorem runs_add (plan : Plan) (lattice : Lattice) (limits : Limits) (tolerant : Bool) (steps extra : Nat)
    (search : Search) : runs plan lattice limits tolerant (steps + extra) search =
      runs plan lattice limits tolerant extra (runs plan lattice limits tolerant steps search) := by
  induction steps generalizing search with
  | zero => rw [Nat.zero_add, runs]
  | succ steps ih =>
    rw [Nat.add_right_comm, runs, runs]
    split
    · next hem => exact (runs_of_waiting_nil (List.isEmpty_iff.mp hem) extra).symm
    · exact ih _

theorem runs_keeps {P : Search → Prop} (hstp : ∀ {search}, P search → P (search.step plan lattice limits tolerant))
    (steps : Nat) (h : P search) : P (runs plan lattice limits tolerant steps search) := by
  induction steps generalizing search with
  | zero => exact h
  | succ steps ih =>
    rw [runs]
    split
    · exact h
    · exact ih (hstp h)

/-- What holds of the runs that wait and of those that have come to their end, the ones that failed included. -/
structure Holds (Start End : Run → Prop) (search : Search) : Prop where
  waiting : ∀ run ∈ search.waiting, Start run
  done : ∀ run ∈ search.done, End run
  failed : ∀ run ∈ search.failed, End run ∧ run.failures ≠ []

theorem Holds.step {Start End : Run → Prop} (h : Holds Start End search)
    (hend : ∀ {run run' changed}, Start run → plan.settle lattice limits.passes tolerant run = .finished run' changed →
      End run')
    (hfk : ∀ {run run' fork}, Start run → plan.settle lattice limits.passes tolerant run = .forked run' fork →
      ∀ candidate ∈ fork.candidates, Start (run'.bindParameter fork.parameter fork.index candidate)) :
    Holds Start End (search.step plan lattice limits tolerant) := by
  obtain ⟨hwt, hdone, hfailed⟩ := h
  obtain ⟨waiting, done, failed, capped⟩ := search
  cases waiting with
  | nil => exact ⟨hwt, hdone, hfailed⟩
  | cons run rest =>
    have hrun := hwt run List.mem_cons_self
    have hrs : ∀ run ∈ rest, Start run := fun run h => hwt run (List.mem_cons_of_mem _ h)
    simp only [Search.step]
    cases hstl : plan.settle lattice limits.passes tolerant run with
    | finished run' changed =>
      dsimp only
      split
      · next hfails =>
        refine ⟨hrs, hdone, fun run h => ?_⟩
        rcases List.mem_append.mp h with h | h
        · exact hfailed run h
        · rw [List.mem_singleton.mp h]
          refine ⟨hend hrun hstl, fun hnil => ?_⟩
          simp [hnil] at hfails
      · refine ⟨hrs, fun run h => ?_, hfailed⟩
        rcases List.mem_append.mp h with h | h
        · exact hdone run h
        · rw [List.mem_singleton.mp h]
          exact hend hrun hstl
    | forked run' fork =>
      refine ⟨fun run h => ?_, hdone, hfailed⟩
      rcases List.mem_append.mp h with h | h
      · obtain ⟨candidate, hcan, rfl⟩ := List.mem_map.mp h
        exact hfk hrun hstl candidate (List.mem_of_mem_take hcan)
      · exact hrs run h

theorem step_ne_nil (h : search.waiting ++ search.done ++ search.failed ≠ []) :
    let next := search.step plan lattice limits tolerant
    next.waiting ++ next.done ++ next.failed ≠ [] := by
  obtain ⟨waiting, done, failed, capped⟩ := search
  cases waiting with
  | nil => exact h
  | cons run rest =>
    simp only [step]
    cases hstl : plan.settle lattice limits.passes tolerant run with
    | finished run' changed =>
      dsimp only
      split <;> simp
    | forked run' fork =>
      have hbrs := (Plan.settle_eq_forked hstl).branches
      have hroom : capacity limits { waiting := run :: rest, done, failed, capped } ≠ 0 := by
        unfold capacity
        omega
      simp [branches, hbrs, hroom]

theorem failed_step (h : search.failed = []) : (search.step plan lattice limits true).failed = [] := by
  unfold step
  split
  · exact h
  · split
    · simpa using h
    · exact h

theorem length_step_le {bound : Nat} (hle : max 1 limits.bindings ≤ bound)
    (h : search.done.length + search.waiting.length ≤ bound) :
    (search.step plan lattice limits tolerant).done.length + (search.step plan lattice limits tolerant).waiting.length ≤
      bound := by
  unfold Search.step
  split
  · exact h
  · next run rest hwt =>
    rw [hwt, List.length_cons] at h
    split
    · split
      · dsimp only
        omega
      · dsimp only
        rw [List.length_append, List.length_singleton]
        omega
    · next run' fork _ =>
      have hroom : (branches run' fork (search.capacity limits)).length ≤ search.capacity limits := by
        rw [branches, List.length_map, List.length_take]
        exact Nat.min_le_left _ _
      rw [capacity, hwt, List.tail_cons] at hroom
      dsimp only
      rw [List.length_append, capacity, hwt, List.tail_cons]
      omega

end Search

namespace Plan

variable {plan : Plan} {lattice : Lattice} {limits : Limits} {tolerant : Bool} {run : Run}

/-- The search leaves no run waiting. -/
theorem waiting_search (lattice : Lattice) (limits : Limits) (tolerant : Bool) (run : Run)
    (hkp : plan.KeepsForkable) : (plan.search lattice limits tolerant run).waiting = [] := by
  refine Search.waiting_runs hkp _ ?_
  simp only [Search.todo, List.map_cons, List.map_nil, List.sum_cons, List.sum_nil, Nat.add_zero, Search.weight,
    searchBound]
  refine Nat.pow_le_pow_right (Nat.succ_pos _) ?_
  have : plan.openCount run ≤ plan.forkable.length := List.countP_le_length
  omega

theorem search_ne_nil (lattice : Lattice) (limits : Limits) (tolerant : Bool) (run : Run)
    (hkp : plan.KeepsForkable) :
    (plan.search lattice limits tolerant run).done ++ (plan.search lattice limits tolerant run).failed ≠ [] := by
  have h : (plan.search lattice limits tolerant run).waiting ++ (plan.search lattice limits tolerant run).done ++
      (plan.search lattice limits tolerant run).failed ≠ [] :=
    Search.runs_keeps (P := fun search => search.waiting ++ search.done ++ search.failed ≠ []) Search.step_ne_nil _ (by simp)
  rwa [waiting_search lattice limits tolerant run hkp, List.nil_append] at h

/-- The runs that the solver starts: the one with which the body starts, the branches of a fork, and, when no run holds,
a run that failed, which is then tolerant of failures. -/
inductive Starts (plan : Plan) (lattice : Lattice) (limits : Limits) : (tolerant : Bool) → Run → Prop where
  | start : Starts plan lattice limits false plan.start
  | branch {tolerant : Bool} {run run' : Run} {fork : Fork} {candidate : ParameterType} :
    Starts plan lattice limits tolerant run → plan.settle lattice limits.passes tolerant run = .forked run' fork →
      candidate ∈ fork.candidates →
      Starts plan lattice limits tolerant (run'.bindParameter fork.parameter fork.index candidate)
  | retry {run run' : Run} {changed : Bool} :
    Starts plan lattice limits false run → plan.settle lattice limits.passes false run = .finished run' changed →
      run'.failures ≠ [] → Starts plan lattice limits true run'

/-- A run to which the solver comes: one that it starts has come to its end in it. -/
def Ends (plan : Plan) (lattice : Lattice) (limits : Limits) (tolerant : Bool) (run : Run) : Prop :=
  ∃ start changed, plan.Starts lattice limits tolerant start ∧
    plan.settle lattice limits.passes tolerant start = .finished run changed

theorem search_holds (hst : plan.Starts lattice limits tolerant run) :
    Search.Holds (plan.Starts lattice limits tolerant) (plan.Ends lattice limits tolerant)
      (plan.search lattice limits tolerant run) := by
  refine Search.runs_keeps (fun h => h.step ?_ ?_) _ ⟨by simpa using hst, by simp, by simp⟩
  · intro run run' changed hrun hstl
    exact ⟨run, changed, hrun, hstl⟩
  · intro run run' fork hrun hstl candidate hcan
    exact .branch hrun hstl hcan

theorem ends_of_mem_solve (h : run ∈ (plan.solve lattice limits).1) : ∃ tolerant, plan.Ends lattice limits tolerant run := by
  have hstrict := search_holds (.start : plan.Starts lattice limits false plan.start)
  unfold solve at h
  dsimp only at h
  split at h
  · next first rest _ hfailed =>
    have hfst := hstrict.failed first (by rw [hfailed]; exact List.mem_cons_self)
    obtain ⟨⟨start, changed, hst, hstl⟩, hfailures⟩ := hfst
    exact ⟨true, (search_holds (.retry hst hstl hfailures)).done run h⟩
  · exact ⟨false, hstrict.done run h⟩

theorem pending_of_mem_solve (hps : limits.passes ≠ 0) (h : run ∈ (plan.solve lattice limits).1) :
    run.pending = plan.rules.any (fun entry => entry.2.waits) := by
  obtain ⟨tolerant, start, changed, _, hstl⟩ := ends_of_mem_solve h
  exact pending_settle hps hstl

/-- Every body has a run that holds. -/
theorem solve_ne_nil (hkp : plan.KeepsForkable) : (plan.solve lattice limits).1 ≠ [] := by
  have hstrict := search_ne_nil lattice limits false plan.start hkp
  unfold solve
  dsimp only
  split
  · next first rest _ hfailed =>
    have htolerant := search_ne_nil lattice limits true first hkp
    have hno : (plan.search lattice limits true first).failed = [] :=
      Search.runs_keeps (P := (·.failed = [])) Search.failed_step _ rfl
    rwa [hno, List.append_nil] at htolerant
  · next hcas =>
    dsimp only
    intro hdone
    rw [hdone, List.nil_append] at hstrict
    obtain ⟨first, rest, hfailed⟩ := List.exists_cons_of_ne_nil hstrict
    exact hcas first rest hdone hfailed

/-- A body has no more runs that hold than it may have bindings. -/
theorem length_solve_le (plan : Plan) (lattice : Lattice) (limits : Limits) :
    (plan.solve lattice limits).1.length ≤ max 1 limits.bindings := by
  have hsearch : ∀ tolerant run, (plan.search lattice limits tolerant run).done.length ≤ max 1 limits.bindings := by
    intro tolerant run
    refine Nat.le_trans (Nat.le_add_right _ _) (?_ : _ + (plan.search lattice limits tolerant run).waiting.length ≤ _)
    exact Search.runs_keeps (P := fun search => search.done.length + search.waiting.length ≤ max 1 limits.bindings)
      (Search.length_step_le (Nat.le_refl _)) _ (Nat.le_max_left 1 limits.bindings)
  unfold solve
  dsimp only
  split
  · exact hsearch true _
  · exact hsearch false _

end Plan

end SoftTyping
