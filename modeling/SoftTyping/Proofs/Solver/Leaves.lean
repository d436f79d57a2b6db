import SoftTyping.Proofs.Solver.Calls

/-!
# The leaves of a search

A run that forks is the root of a tree: below it stand the runs in which the parameter has one of the types that it could be
given. Main statement: unless types are left out, a search ends with the leaves of the trees of its runs, from left to right
(`search_leaves`); and it never holds more runs than it starts with or may have.
-/

namespace SoftTyping

namespace Search

variable {plan : Plan} {lattice : Lattice} {limits : Limits} {tolerant : Bool} {search : Search} {run run' : Run}
  {runs done done' failed failed' : List Run} {fork : Fork}

theorem step_of_waiting_nil (h : search.waiting = []) : search.step plan lattice limits tolerant = search := by
  unfold step
  rw [h]

theorem runs_succ (plan : Plan) (lattice : Lattice) (limits : Limits) (tolerant : Bool) (steps : Nat) (search : Search) :
    Search.runs plan lattice limits tolerant (steps + 1) search =
      (Search.runs plan lattice limits tolerant steps search).step plan lattice limits tolerant := by
  rw [runs_add, Search.runs, Search.runs]
  split
  · next hem => exact (step_of_waiting_nil (List.isEmpty_iff.mp hem)).symm
  · rfl

/-! ## Types that are left out -/

/-- The next run forks into more types than there is room for. -/
def Drops (plan : Plan) (lattice : Lattice) (limits : Limits) (tolerant : Bool) (search : Search) : Prop :=
  ∃ run rest run' fork, search.waiting = run :: rest ∧
    plan.settle lattice limits.passes tolerant run = .forked run' fork ∧ search.capacity limits < fork.candidates.length

theorem capped_step : (search.step plan lattice limits tolerant).capped = true ↔
    search.capped = true ∨ search.Drops plan lattice limits tolerant := by
  obtain ⟨waiting, done, failed, capped⟩ := search
  cases waiting with
  | nil => simp [step, Drops]
  | cons run rest =>
    cases hstl : plan.settle lattice limits.passes tolerant run with
    | finished run' changed =>
      simp only [step, hstl, Drops]
      split <;> simp [hstl]
    | forked run' fork => simp [step, hstl, Drops]

theorem capped_runs (steps : Nat) : (Search.runs plan lattice limits tolerant steps search).capped = true ↔
    search.capped = true ∨
      ∃ n < steps, (Search.runs plan lattice limits tolerant n search).Drops plan lattice limits tolerant := by
  induction steps with
  | zero => simp [Search.runs]
  | succ steps ih =>
    rw [runs_succ, capped_step, ih]
    simp only [Nat.lt_succ_iff_lt_or_eq, or_and_right, exists_or, exists_eq_left, or_assoc]

/-! ## Leaves -/

/-- The leaves of the trees that grow from runs by forking over all types, from left to right: those that hold, and those that
failed. -/
inductive Leaves (plan : Plan) (lattice : Lattice) (limits : Limits) (tolerant : Bool) :
    (runs done failed : List Run) → Prop where
  | nil : Leaves plan lattice limits tolerant [] [] []
  | leaf {run run' : Run} {changed : Bool} {runs done failed : List Run} :
    plan.settle lattice limits.passes tolerant run = .finished run' changed →
      Leaves plan lattice limits tolerant runs done failed → Leaves plan lattice limits tolerant (run :: runs)
        (if !tolerant && !run'.failures.isEmpty then done else run' :: done)
        (if !tolerant && !run'.failures.isEmpty then run' :: failed else failed)
  | fork {run run' : Run} {fork : Fork} {runs done done' failed failed' : List Run} :
    plan.settle lattice limits.passes tolerant run = .forked run' fork →
      Leaves plan lattice limits tolerant (fork.candidates.map (run'.bindParameter fork.parameter fork.index)) done failed →
      Leaves plan lattice limits tolerant runs done' failed' →
      Leaves plan lattice limits tolerant (run :: runs) (done ++ done') (failed ++ failed')

theorem Leaves.unique (h : Leaves plan lattice limits tolerant runs done failed)
    (h' : Leaves plan lattice limits tolerant runs done' failed') : done = done' ∧ failed = failed' := by
  induction h generalizing done' failed' with
  | nil =>
    cases h'
    exact ⟨rfl, rfl⟩
  | leaf hstl _ ih =>
    cases h' with
    | leaf hstl' h' =>
      cases hstl.symm.trans hstl'
      obtain ⟨rfl, rfl⟩ := ih h'
      exact ⟨rfl, rfl⟩
    | fork hstl' => cases hstl.symm.trans hstl'
  | fork hstl _ _ ih₁ ih₂ =>
    cases h' with
    | leaf hstl' => cases hstl.symm.trans hstl'
    | fork hstl' h₁ h₂ =>
      cases hstl.symm.trans hstl'
      obtain ⟨rfl, rfl⟩ := ih₁ h₁
      obtain ⟨rfl, rfl⟩ := ih₂ h₂
      exact ⟨rfl, rfl⟩

/-- The leaves of runs one after the other. -/
theorem Leaves.of_append {rest : List Run} (h : Leaves plan lattice limits tolerant (runs ++ rest) done failed) :
    ∃ done₁ failed₁ done₂ failed₂, Leaves plan lattice limits tolerant runs done₁ failed₁ ∧
      Leaves plan lattice limits tolerant rest done₂ failed₂ ∧ done = done₁ ++ done₂ ∧ failed = failed₁ ++ failed₂ := by
  induction runs generalizing done failed with
  | nil => exact ⟨[], [], done, failed, .nil, h, rfl, rfl⟩
  | cons run runs ih =>
    cases h with
    | leaf hstl h =>
      obtain ⟨done₁, failed₁, done₂, failed₂, hfst, hrs, rfl, rfl⟩ := ih h
      exact ⟨_, _, done₂, failed₂, .leaf hstl hfst, hrs, by split <;> rfl, by split <;> rfl⟩
    | fork hstl hbrs h =>
      obtain ⟨done₁, failed₁, done₂, failed₂, hfst, hrs, rfl, rfl⟩ := ih h
      exact ⟨_, _, done₂, failed₂, .fork hstl hbrs hfst, hrs, (List.append_assoc ..).symm, (List.append_assoc ..).symm⟩

/-- A step that leaves no type out moves a leaf to the end of its list, or goes one level down. -/
theorem leaves_step (hcap : ¬ search.Drops plan lattice limits tolerant)
    (h : Leaves plan lattice limits tolerant (search.step plan lattice limits tolerant).waiting done failed) :
    ∃ done' failed', Leaves plan lattice limits tolerant search.waiting done' failed' ∧
      (search.step plan lattice limits tolerant).done ++ done = search.done ++ done' ∧
      (search.step plan lattice limits tolerant).failed ++ failed = search.failed ++ failed' := by
  cases hwt : search.waiting with
  | nil =>
    rw [step_of_waiting_nil hwt] at h ⊢
    exact ⟨done, failed, hwt ▸ h, rfl, rfl⟩
  | cons run rest =>
    unfold step at h ⊢
    simp only [hwt] at h ⊢
    cases hstl : plan.settle lattice limits.passes tolerant run with
    | finished run' changed =>
      simp only [hstl] at h ⊢
      split at h
      · next hno => exact ⟨_, _, .leaf hstl h, by simp [hno], by simp [hno]⟩
      · next hok => exact ⟨_, _, .leaf hstl h, by simp [hok], by simp [hok]⟩
    | forked run' fork =>
      simp only [hstl] at h ⊢
      have hall : branches run' fork (search.capacity limits) =
          fork.candidates.map (run'.bindParameter fork.parameter fork.index) := by
        rw [branches, List.take_of_length_le]
        exact Nat.le_of_not_lt fun hlt => hcap ⟨run, rest, run', fork, hwt, hstl, hlt⟩
      rw [hall] at h
      obtain ⟨done₁, failed₁, done₂, failed₂, hbrs, hrs, rfl, rfl⟩ := h.of_append
      exact ⟨_, _, .fork hstl hbrs hrs, rfl, rfl⟩

/-- A search that has come to its end and left no type out has found the leaves of the runs it started with. -/
theorem leaves_runs {steps : Nat} (hwt : (Search.runs plan lattice limits tolerant steps search).waiting = [])
    (hcap : (Search.runs plan lattice limits tolerant steps search).capped = false) :
    ∃ done failed, Leaves plan lattice limits tolerant search.waiting done failed ∧
      (Search.runs plan lattice limits tolerant steps search).done = search.done ++ done ∧
      (Search.runs plan lattice limits tolerant steps search).failed = search.failed ++ failed := by
  induction steps generalizing search with
  | zero =>
    rw [Search.runs] at hwt ⊢
    exact ⟨[], [], by rw [hwt]; exact .nil, by simp, by simp⟩
  | succ steps ih =>
    rw [Search.runs] at hwt hcap ⊢
    split
    · next hem => exact ⟨[], [], by rw [List.isEmpty_iff.mp hem]; exact .nil, by simp, by simp⟩
    · next hne =>
      rw [if_neg hne] at hwt hcap
      obtain ⟨done, failed, h, hdone, hfailed⟩ := ih hwt hcap
      have hkept : (search.step plan lattice limits tolerant).capped ≠ true := fun hstp => by
        rw [(capped_runs steps).mpr (.inl hstp)] at hcap
        cases hcap
      obtain ⟨done', failed', h', hdone', hfailed'⟩ :=
        leaves_step (fun hdr => hkept (capped_step.mpr (.inr hdr))) h
      exact ⟨done', failed', h', hdone.trans hdone', hfailed.trans hfailed'⟩

theorem todo_le (plan : Plan) (limits : Limits) (initial : List Run) :
    todo plan limits { waiting := initial } ≤ initial.length * plan.searchBound limits := by
  have hone : ∀ w ∈ initial.map (weight plan limits), w ≤ plan.searchBound limits := by
    intro w hw
    obtain ⟨run, _, rfl⟩ := List.mem_map.mp hw
    have : plan.openCount run ≤ plan.forkable.length := List.countP_le_length
    exact Nat.pow_le_pow_right (Nat.succ_pos _) (by omega)
  have hsum := List.sum_le_card_nsmul _ _ hone
  rwa [List.length_map] at hsum

end Search

namespace SolveContext

/-- A search over the forks of a body, from any runs, never holds more runs than it may have or starts with. It says that types
were left out if and only if this happened at some step. It comes to its end, and if no type was left out it has found the
leaves of the trees of its runs, each once and from left to right. -/
theorem search_leaves {context : SolveContext} {body : Body} {plan : Plan} (hplan : context.plan body = .ok plan)
    (limits : Limits) (tolerant : Bool) (initial : List Run) :
    let search := fun steps => Search.runs plan context.lattice limits tolerant steps { waiting := initial }
    let last := search (initial.length * plan.searchBound limits)
    (∀ steps, (search steps).done.length + (search steps).waiting.length ≤ max limits.bindings (max initial.length 1)) ∧
    (∀ steps, (search steps).capped = true ↔ ∃ n < steps, (search n).Drops plan context.lattice limits tolerant) ∧
    (last.waiting = [] ∧ ∀ steps ≥ initial.length * plan.searchBound limits, search steps = last) ∧
    (∀ run, initial = [run] → plan.search context.lattice limits tolerant run = last) ∧
    (last.capped = false → ∀ done failed,
      Search.Leaves plan context.lattice limits tolerant initial done failed ↔ done = last.done ∧ failed = last.failed) := by
  intro search last
  have hwt : last.waiting = [] := Search.waiting_runs (plan_keepsForkable hplan) _ (Search.todo_le plan limits initial)
  refine ⟨fun steps => ?_, fun steps => ?_, ⟨hwt, fun steps hle => ?_⟩, fun run hone => ?_, fun hcap done failed => ?_⟩
  · refine Search.runs_keeps (P := fun search => search.done.length + search.waiting.length ≤ _)
      (Search.length_step_le (by omega)) steps ?_
    simp only [List.length_nil]
    omega
  · simpa using @Search.capped_runs plan context.lattice limits tolerant { waiting := initial } steps
  · obtain ⟨extra, rfl⟩ := Nat.exists_eq_add_of_le hle
    exact (Search.runs_add ..).trans (Search.runs_of_waiting_nil hwt extra)
  · subst hone
    change _ = Search.runs plan context.lattice limits tolerant (1 * plan.searchBound limits) { waiting := [run] }
    rw [Nat.one_mul]
    rfl
  · obtain ⟨done', failed', h, hdone, hfailed⟩ := Search.leaves_runs hwt hcap
    rw [List.nil_append] at hdone hfailed
    rw [hdone, hfailed]
    constructor
    · exact fun h' => h'.unique h
    · rintro ⟨rfl, rfl⟩
      exact h

/-- A function with two overloads is called with a parameter that has no type. -/
def forkContext : SolveContext :=
  let table := (SymbolTable.declareAll [.type "int" [], .type "string" [],
    .method .function "f" ["int -> int", "string -> string"]]).leaves (.new 0)
  let flow := (Flow.empty.add "x" .origin .global (.join [])).2
  let flow := flow.updateVariable ⟨0⟩ fun var => { var with parameterIndex := some 0 }
  let flow := flow.updateBody .global fun body => { body with parameters := [⟨0⟩] }
  let flow := (flow.add "f" .origin .global (.call ⟨0, 3⟩ [⟨0⟩] 0)).2
  { table, flow, lattice := .ofTable table, limits := {}, registry := ∅ }

/-- The search forks once and comes to two leaves. -/
theorem search_leaves_fork : ∃ plan done, forkContext.plan (forkContext.flow.body .global) = .ok plan ∧
    Search.Leaves plan forkContext.lattice {} false [plan.start] done [] ∧ done.length = 2 := by
  have hfk : (match forkContext.plan (forkContext.flow.body .global) with
      | .ok plan =>
        let last := plan.search forkContext.lattice {} false plan.start
        !last.capped && last.done.length == 2 && last.failed.isEmpty
      | .error _ => false) = true := by decide +kernel
  split at hfk
  · next plan hpl =>
    simp only [Bool.and_eq_true, Bool.not_eq_true', beq_iff_eq, List.isEmpty_iff] at hfk
    obtain ⟨⟨hcap, htwo⟩, hno⟩ := hfk
    obtain ⟨_, _, _, hone, hlvs⟩ := search_leaves hpl {} false [plan.start]
    rw [hone plan.start rfl] at hcap htwo hno
    exact ⟨plan, _, hpl, (hlvs hcap _ _).mpr ⟨rfl, hno.symm⟩, htwo⟩
  · cases hfk

end SolveContext

end SoftTyping
