import SoftTyping.Proofs.Solver.Judgement

/-!
# What applying rules does to a run

Applying the rule of a variable changes the bounds of that variable and of no other, and says of the run whether a call
was met whose overloads may still change. A parameter without a given type has the rule `kept`, so that only a fork or the
end of the passes gives it a type.
-/

namespace SoftTyping

/-- The run that applying rules leaves, whether it came to the end or to a fork. -/
def Progress.run : Progress → Run
  | .finished run _ => run
  | .forked run _ => run

/-- Whether a rule is a call whose overloads may still change. -/
def Rule.waits : Rule → Bool
  | .call applied => !applied.final
  | _ => false

namespace Run

variable {lattice : Lattice} {tolerant : Bool} {run run' : Run} {id other : TypeVarId} {rule : Rule} {bounds : Bounds}
  {rules : List (TypeVarId × Rule)} {changed changed' : Bool} {fork : Fork}

/-! ## Setting bounds -/

theorem set_of_eq (h : (run.binding.bounds.get? id == some bounds) = true) : run.set id bounds = (run, false) := by
  rw [set, if_pos h]

theorem set_of_ne (h : (run.binding.bounds.get? id == some bounds) = false) :
    run.set id bounds =
      ({ run with binding := { run.binding with bounds := run.binding.bounds.insert id bounds } }, true) := by
  rw [set, if_neg (by rw [h]; decide)]

/-- Setting the bounds of a variable leaves all else of the run as it is. -/
theorem set_frame (run : Run) (id : TypeVarId) (bounds : Bounds) :
    (run.set id bounds).1.pending = run.pending ∧ (run.set id bounds).1.failures = run.failures ∧
      (run.set id bounds).1.capped = run.capped ∧
      (run.set id bounds).1.binding.convertibleCalls = run.binding.convertibleCalls ∧
      (run.set id bounds).1.binding.convertibleParameters = run.binding.convertibleParameters := by
  unfold set
  split <;> exact ⟨rfl, rfl, rfl, rfl, rfl⟩

theorem get?_set_of_ne (h : other ≠ id) :
    (run.set id bounds).1.binding.bounds.get? other = run.binding.bounds.get? other := by
  unfold set
  split
  · rfl
  · rw [OrderedMap.get?_insert, if_neg (Ne.symm h)]

/-! ## Applying one rule -/

@[simp] theorem binding_noteCall (run : Run) (call : CallRule) : (run.noteCall call).binding = run.binding := by
  unfold noteCall
  split <;> rfl

theorem pending_noteCall (run : Run) (call : CallRule) :
    (run.noteCall call).pending = (run.pending || !call.final) := by
  unfold noteCall
  cases call.final <;> simp

@[simp] theorem capped_noteCall (run : Run) (call : CallRule) : (run.noteCall call).capped = run.capped := by
  unfold noteCall
  split <;> rfl

@[simp] theorem failures_noteCall (run : Run) (call : CallRule) : (run.noteCall call).failures = run.failures := by
  unfold noteCall
  split <;> rfl

@[simp] theorem bounds_recordCall (binding : Binding) (call : TypeVarId) (converting : Bool) :
    (binding.recordCall call converting).bounds = binding.bounds := by
  unfold Binding.recordCall
  split
  · split <;> rfl
  · rfl

@[simp] theorem convertibleParameters_recordCall (binding : Binding) (call : TypeVarId) (converting : Bool) :
    (binding.recordCall call converting).convertibleParameters = binding.convertibleParameters := by
  unfold Binding.recordCall
  split
  · split <;> rfl
  · rfl

theorem get?_apply_of_ne (h : other ≠ id) :
    (run.apply lattice tolerant id rule).run.binding.bounds.get? other = run.binding.bounds.get? other := by
  cases rule with
  | kept => rfl
  | call call =>
    simp only [apply, applyCall]
    split <;> simp [Progress.run, get?_set_of_ne h, fail]
  | _ => exact get?_set_of_ne h

/-- Applying a rule meets a call whose overloads may still change if the rule is one, and leaves most else of the run. -/
theorem apply_frame (lattice : Lattice) (tolerant : Bool) (run : Run) (id : TypeVarId) (rule : Rule) :
    (run.apply lattice tolerant id rule).run.pending = (run.pending || rule.waits) ∧
      (run.apply lattice tolerant id rule).run.capped = run.capped ∧
      (run.apply lattice tolerant id rule).run.binding.convertibleParameters = run.binding.convertibleParameters := by
  cases rule with
  | call call =>
    simp only [apply, applyCall]
    split <;> simp [Progress.run, set_frame, Rule.waits, fail, pending_noteCall]
  | _ => simp [apply, Progress.run, set_frame, Rule.waits]

/-! ## Applying many rules -/

/-- A run of the rules forks at a call of theirs, on a parameter without a type. -/
structure Forks (rules : List (TypeVarId × Rule)) (run : Run) (fork : Fork) : Prop where
  call : ∃ id call, (id, Rule.call call) ∈ rules ∧
    (∃ operand ∈ call.operands, operand.origin = some (fork.parameter, fork.index)) ∧
    ∀ type ∈ fork.candidates, ∃ overload ∈ call.overloads, type ∈ overload.parameters
  untyped : run.isFixed fork.parameter = false
  branches : fork.candidates ≠ []

theorem Forks.mono {rules rules' : List (TypeVarId × Rule)} (h : Forks rules run fork) (hsub : rules ⊆ rules') :
    Forks rules' run fork := by
  obtain ⟨⟨id, call, hmem, h⟩, hut, hbrs⟩ := h
  exact ⟨⟨id, call, hsub hmem, h⟩, hut, hbrs⟩

theorem apply_eq_forked (h : run.apply lattice tolerant id rule = .forked run' fork) : Forks [(id, rule)] run' fork := by
  cases rule with
  | given | kept | join | copy => nomatch h
  | call call =>
    simp only [apply, applyCall] at h
    split at h
    case h_5 hjd =>
      cases h
      obtain ⟨hopd, hut, hbrs, htps⟩ := judge_eq_fork hjd
      exact ⟨⟨id, call, List.mem_singleton.mpr rfl, hopd, htps⟩, hut, hbrs⟩
    all_goals nomatch h

theorem applyAll_eq_forked (h : applyAll lattice tolerant rules run changed = .forked run' fork) :
    Forks rules run' fork := by
  induction rules generalizing run changed with
  | nil => nomatch h
  | cons entry rest ih =>
    obtain ⟨id, rule⟩ := entry
    simp only [applyAll] at h
    split at h
    · exact (ih h).mono (List.subset_cons_self _ _)
    · next hfk =>
      cases h
      exact (apply_eq_forked hfk).mono (by simp)

theorem applyAll_keeps (Inv : Run → Prop)
    (hrl : ∀ {run id rule}, (id, rule) ∈ rules → Inv run → Inv (run.apply lattice tolerant id rule).run)
    (hrun : Inv run) (changed : Bool) : Inv (applyAll lattice tolerant rules run changed).run := by
  induction rules generalizing run changed with
  | nil => exact hrun
  | cons entry rest ih =>
    have hfst := hrl List.mem_cons_self hrun
    rw [applyAll]
    split
    · next happly =>
      rw [happly] at hfst
      exact ih (fun hmem => hrl (List.mem_cons_of_mem _ hmem)) hfst _
    · next happly =>
      rw [happly] at hfst
      exact hfst

theorem get?_apply_of_kept (hkt : ∀ rule, (other, rule) ∈ rules → rule = .kept) (hrl : (id, rule) ∈ rules) :
    (run.apply lattice tolerant id rule).run.binding.bounds.get? other = run.binding.bounds.get? other := by
  by_cases hid : other = id
  · subst hid
    rw [hkt rule hrl]
    rfl
  · exact get?_apply_of_ne hid

theorem get?_applyAll (lattice : Lattice) (tolerant : Bool) (run : Run) (changed : Bool)
    (hkt : ∀ rule, (other, rule) ∈ rules → rule = .kept) :
    (applyAll lattice tolerant rules run changed).run.binding.bounds.get? other = run.binding.bounds.get? other :=
  applyAll_keeps (fun r => r.binding.bounds.get? other = run.binding.bounds.get? other)
    (fun hrl hr => (get?_apply_of_kept hkt hrl).trans hr) rfl changed

theorem pending_applyAll (h : applyAll lattice tolerant rules run changed = .finished run' changed') :
    run'.pending = (run.pending || rules.any (fun entry => entry.2.waits)) := by
  induction rules generalizing run changed with
  | nil =>
    cases h
    simp
  | cons entry rest ih =>
    obtain ⟨id, rule⟩ := entry
    simp only [applyAll] at h
    split at h
    · next run₁ _ happly =>
      have hone := (apply_frame lattice tolerant run id rule).1
      rw [happly, Progress.run] at hone
      rw [ih h, hone, List.any_cons, Bool.or_assoc]
    · cases h

theorem capped_applyAll : (applyAll lattice tolerant rules run changed).run.capped = run.capped :=
  applyAll_keeps (fun r => r.capped = run.capped) (fun _ hr => (apply_frame ..).2.1.trans hr) rfl changed

/-! ## Passes -/

theorem pending_pass (h : run.pass lattice tolerant rules = .finished run' changed) :
    run'.pending = rules.any (fun entry => entry.2.waits) := by
  rw [pending_applyAll h, Bool.false_or]

/-- What holds of a run and stays when a pass changes something holds of the run from which the last pass is made. -/
theorem passes_cases (lattice : Lattice) (tolerant : Bool) (rules : List (TypeVarId × Rule)) (limit : Nat)
    (run : Run) (Inv : Run → Prop)
    (hstp : ∀ {r r'}, Inv r → r.pass lattice tolerant rules = .finished r' true → Inv r') (hrun : Inv run) :
    match run.passes lattice tolerant rules limit with
    | .forked run' fork => ∃ last, Inv last ∧ last.pass lattice tolerant rules = .forked run' fork
    | .finished run' false => ∃ last, Inv last ∧ last.pass lattice tolerant rules = .finished run' false
    | .finished run' true => ∃ last, Inv last ∧ run' = { last with capped := true } ∧
        (limit ≠ 0 → ∃ before, Inv before ∧ before.pass lattice tolerant rules = .finished last true) := by
  induction limit generalizing run with
  | zero => exact ⟨run, hrun, rfl, fun h => absurd rfl h⟩
  | succ limit ih =>
    rw [passes]
    cases hpass : run.pass lattice tolerant rules with
    | forked run' fork => exact ⟨run, hrun, hpass⟩
    | finished run₁ changed =>
      cases changed with
      | false => exact ⟨run, hrun, hpass⟩
      | true =>
        have h := ih run₁ (hstp hrun hpass)
        dsimp only
        revert h
        cases limit with
        | zero =>
          rintro ⟨last, hls, heq, _⟩
          refine ⟨run₁, hstp hrun hpass, rfl, fun _ => ⟨run, hrun, hpass⟩⟩
        | succ limit =>
          split
          · exact id
          · exact id
          · rintro ⟨last, hls, heq, hbef⟩
            exact ⟨last, hls, heq, fun _ => hbef (Nat.succ_ne_zero _)⟩

theorem pending_passes {limit : Nat} (hlimit : limit ≠ 0)
    (h : run.passes lattice tolerant rules limit = .finished run' changed) :
    run'.pending = rules.any (fun entry => entry.2.waits) := by
  have hcas := passes_cases lattice tolerant rules limit run (fun _ => True) (fun _ _ => trivial) trivial
  rw [h] at hcas
  cases changed with
  | false =>
    obtain ⟨last, _, hls⟩ := hcas
    exact pending_pass hls
  | true =>
    obtain ⟨last, _, rfl, hbef⟩ := hcas
    obtain ⟨before, _, hpass⟩ := hbef hlimit
    have hls := pending_pass hpass
    exact hls

theorem passes_eq_forked {limit : Nat} (h : run.passes lattice tolerant rules limit = .forked run' fork) :
    Forks rules run' fork := by
  have hcas := passes_cases lattice tolerant rules limit run (fun _ => True) (fun _ _ => trivial) trivial
  rw [h] at hcas
  obtain ⟨last, _, hls⟩ := hcas
  exact applyAll_eq_forked hls

/-- What each of the rules keeps of a binding, passes keep. -/
theorem passes_keeps (Inv : Run → Prop) (hsm : ∀ {r r' : Run}, Inv r → r'.binding = r.binding → Inv r')
    (hrl : ∀ {run id rule}, (id, rule) ∈ rules → Inv run → Inv (run.apply lattice tolerant id rule).run)
    (hrun : Inv run) (limit : Nat) : Inv (run.passes lattice tolerant rules limit).run := by
  induction limit generalizing run with
  | zero => exact hsm hrun rfl
  | succ limit ih =>
    have hpass : Inv (run.pass lattice tolerant rules).run := by
      rw [pass]
      refine applyAll_keeps Inv hrl ?_ false
      exact hsm hrun rfl
    rw [passes]
    split
    case h_1 heq =>
      rw [heq] at hpass
      exact ih hpass
    all_goals
      next heq =>
      rw [heq] at hpass
      exact hpass

theorem get?_passes {limit : Nat} (hkt : ∀ rule, (other, rule) ∈ rules → rule = .kept) :
    (run.passes lattice tolerant rules limit).run.binding.bounds.get? other = run.binding.bounds.get? other :=
  passes_keeps (fun r => r.binding.bounds.get? other = run.binding.bounds.get? other)
    (fun hr heq => by rw [heq, hr]) (fun hrl hr => (get?_apply_of_kept hkt hrl).trans hr) rfl limit

/-! ## Giving parameters a type -/

theorem get?_bindParameter (run : Run) (id other : TypeVarId) (index : Nat) (parameter : ParameterType) :
    (run.bindParameter id index parameter).binding.bounds.get? other =
      if id = other then some (.ofGiven parameter.bound) else run.binding.bounds.get? other := by
  have hbds : (if parameter.convertible then run.binding.recordParameter index else run.binding).bounds =
      run.binding.bounds := by
    unfold Binding.recordParameter
    split
    · split <;> rfl
    · rfl
  simp only [bindParameter, OrderedMap.get?_insert, hbds]

theorem isFixed_bindParameter (run : Run) (id other : TypeVarId) (index : Nat) (parameter : ParameterType) :
    (run.bindParameter id index parameter).isFixed other = (decide (id = other) || run.isFixed other) := by
  unfold isFixed Binding.boundsOf
  rw [get?_bindParameter]
  by_cases h : id = other <;> simp [h, Bounds.ofGiven]

end Run

namespace Plan

variable {plan : Plan} {lattice : Lattice} {tolerant changed : Bool} {run run' : Run} {id : TypeVarId} {fork : Fork}
  {limit : Nat}

theorem mem_openParameters {parameter : PlanParameter} :
    parameter ∈ plan.openParameters run ↔ parameter ∈ plan.parameters ∧ run.isFixed parameter.id = false := by
  simp [openParameters]

theorem close_keeps (Inv : Run → Prop) (hbd : ∀ parameter ∈ plan.parameters, ∀ {run}, Inv run →
      Inv (run.bindParameter parameter.id parameter.index { bound := lattice.mixedUnion }))
    (hrun : Inv run) : Inv (plan.close lattice run) := by
  have hop : ∀ parameter ∈ plan.openParameters run, parameter ∈ plan.parameters :=
    fun _ hmem => (mem_openParameters.mp hmem).1
  unfold close
  generalize plan.openParameters run = parameters at hop
  induction parameters generalizing run with
  | nil => exact hrun
  | cons parameter rest ih =>
    exact ih (hbd parameter (hop parameter List.mem_cons_self) hrun) fun _ hmem => hop _ (List.mem_cons_of_mem _ hmem)

theorem isFixed_close (h : run.isFixed id = true) : (plan.close lattice run).isFixed id = true :=
  close_keeps (fun r => r.isFixed id = true) (fun _ _ _ hr => by rw [Run.isFixed_bindParameter, hr, Bool.or_true]) h

/-- A run comes to its end through the passes from where it started, or through those from where all its parameters have
a type. -/
theorem settle_cases (plan : Plan) (lattice : Lattice) (tolerant : Bool) (limit : Nat) (run : Run)
    (Inv : Run → Prop) (hrun : Inv run)
    (hclose : ∀ {r changed}, run.passes lattice tolerant plan.rules limit = .finished r changed →
      Inv (plan.close lattice r)) :
    ∃ start, Inv start ∧ plan.settle lattice limit tolerant run = start.passes lattice tolerant plan.rules limit := by
  unfold settle
  cases hps : run.passes lattice tolerant plan.rules limit with
  | forked r fork => exact ⟨run, hrun, hps.symm⟩
  | finished r changed =>
    dsimp only
    split
    · exact ⟨run, hrun, hps.symm⟩
    · exact ⟨plan.close lattice r, hclose hps, rfl⟩

theorem settle_keeps (Inv : Run → Prop) (hps : ∀ {r}, Inv r → Inv (r.passes lattice tolerant plan.rules limit).run)
    (hclose : ∀ {r}, Inv r → Inv (plan.close lattice r)) (hrun : Inv run) :
    Inv (plan.settle lattice limit tolerant run).run := by
  obtain ⟨start, hst, hstl⟩ := settle_cases plan lattice tolerant limit run Inv hrun fun {r changed} heq => by
    have hr := hps hrun
    rw [heq] at hr
    exact hclose hr
  rw [hstl]
  exact hps hst

theorem pending_settle (hlimit : limit ≠ 0) (h : plan.settle lattice limit tolerant run = .finished run' changed) :
    run'.pending = plan.rules.any (fun entry => entry.2.waits) := by
  obtain ⟨start, _, hst⟩ := settle_cases plan lattice tolerant limit run (fun _ => True) trivial (fun _ => trivial)
  exact Run.pending_passes hlimit (hst.symm.trans h)

theorem settle_eq_forked (h : plan.settle lattice limit tolerant run = .forked run' fork) :
    Run.Forks plan.rules run' fork := by
  obtain ⟨start, _, hst⟩ := settle_cases plan lattice tolerant limit run (fun _ => True) trivial (fun _ => trivial)
  exact Run.passes_eq_forked (hst.symm.trans h)

theorem isFixed_settle (lattice : Lattice) (tolerant : Bool) (limit : Nat)
    (hkt : ∀ rule, (id, rule) ∈ plan.rules → rule = .kept) (h : run.isFixed id = true) :
    (plan.settle lattice limit tolerant run).run.isFixed id = true := by
  refine settle_keeps (fun r => r.isFixed id = true) (fun {r} hr => ?_) isFixed_close h
  unfold Run.isFixed Binding.boundsOf at hr ⊢
  rw [Run.get?_passes hkt]
  exact hr

end Plan

end SoftTyping
