import SoftTyping.Proofs.Solver.Conversions
import SoftTyping.Proofs.Union

/-!
# When a pass changes nothing

Passes are repeated until one changes no bounds. That alone does not make the run a fixpoint, because how calls are decided
also depends on whether conversions have been accepted, and a pass may change that without changing bounds. It does not
when the calls that convert are recorded as such (`Recorded`), and after every pass that comes to its end they are
(`recorded_pass`). Main statement: a pass without changes from there leaves a fixpoint of the rules
(`isFixpoint_of_unchanged`), and from a fixpoint every further pass leaves all as it is (`IsFixpoint.pass`).
-/

namespace SoftTyping

/-! ## What a rule asks of a run -/

/-- What a rule asks of a run. -/
structure Demand where
  /-- The bounds of its variable. -/
  bounds : Option Bounds := none
  /-- Whether the chosen overload converts an argument. -/
  converts : Option Bool := none
  failures : List Failure := []

/-- What a call asks once it is decided. -/
def Judgement.demand (lattice : Lattice) (tolerant : Bool) (call : CallRule) : Judgement → Demand
  | .chosen result converting => { bounds := some (.ofFound result), converts := some converting }
  | .erroneous => { bounds := some (.ofFound lattice.erroneousUnion) }
  | .undecided => { bounds := some {} }
  | .refused arguments => {
      bounds := some (if tolerant then .ofFound lattice.erroneousUnion else {})
      failures := [{ position := call.position, kind := call.kind, name := call.name, arguments }] }
  | .fork _ => {}

/-- The fork at which a call stops. -/
def Judgement.fork? : Judgement → Option Fork
  | .fork found => some found
  | _ => none

theorem Judgement.exists_bounds_demand {judgement : Judgement} (lattice : Lattice) (tolerant : Bool) (call : CallRule)
    (h : judgement.fork? = none) : ∃ bounds, (judgement.demand lattice tolerant call).bounds = some bounds := by
  cases judgement with
  | fork fork => nomatch h
  | _ => exact ⟨_, rfl⟩

namespace Run

/-- What a rule asks of a run, given how many conversions have been accepted already. -/
def demandWith (lattice : Lattice) (tolerant : Bool) (run : Run) (conversions : Nat) : Rule → Demand
  | .given union => { bounds := some (.ofGiven union) }
  | .kept => {}
  | .join sources => { bounds := some (run.joinBounds lattice sources) }
  | .copy source => { bounds := some (run.copyBounds source) }
  | .call call => (run.judgeWith lattice conversions call).demand lattice tolerant call

/-- What a rule asks of a run. -/
def demand (lattice : Lattice) (tolerant : Bool) (run : Run) (rule : Rule) : Demand :=
  run.demandWith lattice tolerant run.binding.convertibleApplications rule

/-- The fork at which a rule stops. -/
def fork? (lattice : Lattice) (run : Run) : Rule → Option Fork
  | .call call => (run.judge lattice call).fork?
  | _ => none

/-- Record the answer of a call, if an overload was chosen. -/
def record (run : Run) (id : TypeVarId) (demand : Demand) : Binding :=
  demand.converts.elim run.binding (run.binding.recordCall id)

/-- Do what a rule asks, bounds apart. -/
def note (run : Run) (id : TypeVarId) (rule : Rule) (demand : Demand) : Run :=
  { run with
    binding := run.record id demand
    pending := run.pending || rule.waits
    failures := run.failures ++ demand.failures }

/-- Do what a rule asks, and say whether that changes bounds. -/
def meet (run : Run) (id : TypeVarId) (rule : Rule) (demand : Demand) : Run × Bool :=
  demand.bounds.elim (run.note id rule demand, false) ((run.note id rule demand).set id)

variable {lattice : Lattice} {tolerant converting : Bool} {base run run' : Run} {id other : TypeVarId} {rule : Rule}
  {call : CallRule} {rules : List (TypeVarId × Rule)} {changed changed' : Bool} {binding : Binding} {demand : Demand}
  {conversions : Nat}

/-- Applying a rule is doing what it asks, if it does not stop at a fork. -/
theorem apply_eq (lattice : Lattice) (tolerant : Bool) (run : Run) (id : TypeVarId) (rule : Rule) :
    run.apply lattice tolerant id rule =
      (run.fork? lattice rule).elim
        (.finished (run.meet id rule (run.demand lattice tolerant rule)).1
          (run.meet id rule (run.demand lattice tolerant rule)).2)
        (.forked { run with pending := run.pending || rule.waits }) := by
  cases rule with
  | given union => simp [apply, demand, demandWith, fork?, meet, note, record, Rule.waits]
  | kept => simp [apply, demand, demandWith, fork?, meet, note, record, Rule.waits]
  | join sources => simp [apply, demand, demandWith, fork?, meet, note, record, Rule.waits]
  | copy source => simp [apply, demand, demandWith, fork?, meet, note, record, Rule.waits]
  | call call =>
    have hnote : run.noteCall call = { run with pending := run.pending || !call.final } := by
      unfold noteCall
      cases call.final <;> simp
    have hjd : run.judge lattice call = (run.noteCall call).judge lattice call := by rw [hnote]; rfl
    simp only [apply, applyCall, demand, demandWith, fork?, ← judge_eq_judgeWith, hjd]
    cases (run.noteCall call).judge lattice call <;>
      simp [Judgement.fork?, Judgement.demand, meet, note, record, hnote, fail, Rule.waits]

theorem converts_demandWith_eq_some (h : (run.demandWith lattice tolerant conversions rule).converts = some converting) :
    ∃ call result, rule = .call call ∧ run.judgeWith lattice conversions call = .chosen result converting := by
  cases rule with
  | call call =>
    refine ⟨call, ?_⟩
    simp only [demandWith] at h
    revert h
    cases run.judgeWith lattice conversions call with
    | chosen result converting' =>
      intro h
      cases h
      exact ⟨result, rfl, rfl⟩
    | _ => intro h; nomatch h
  | _ => nomatch h

theorem failures_demandWith_ne_nil (h : (run.demandWith lattice tolerant conversions rule).failures ≠ []) :
    ∃ call arguments, rule = .call call ∧ run.judgeWith lattice conversions call = .refused arguments := by
  cases rule with
  | call call =>
    refine ⟨call, ?_⟩
    simp only [demandWith] at h
    revert h
    cases run.judgeWith lattice conversions call with
    | refused arguments => exact fun _ => ⟨arguments, rfl, rfl⟩
    | _ => intro h; exact absurd rfl h
  | _ => exact absurd rfl h

/-! ## Recording calls -/

theorem mem_recordCall : other ∈ (binding.recordCall id converting).convertibleCalls ↔
      if other = id then converting = true else other ∈ binding.convertibleCalls := by
  unfold Binding.recordCall
  cases converting with
  | false => by_cases h : other = id <;> simp [h]
  | true =>
    by_cases hid : id ∈ binding.convertibleCalls <;> by_cases h : other = id <;> simp [hid, h]

theorem recordCall_of_mem_iff
    (h : id ∈ binding.convertibleCalls ↔ converting = true) : binding.recordCall id converting = binding := by
  unfold Binding.recordCall
  cases converting with
  | true => simp [h.mpr rfl]
  | false =>
    have hnot : id ∉ binding.convertibleCalls := fun hmem => Bool.false_ne_true (h.mp hmem)
    have hfilter : binding.convertibleCalls.filter (fun other => other != id) = binding.convertibleCalls := by
      rw [List.filter_eq_self]
      intro other hoth
      exact bne_iff_ne.mpr fun heq => hnot (heq ▸ hoth)
    simp [hfilter]

theorem mem_record (h : other ≠ id) :
    other ∈ (run.record id demand).convertibleCalls ↔ other ∈ run.binding.convertibleCalls := by
  unfold record
  cases demand.converts with
  | none => rfl
  | some converting => simp [mem_recordCall, h]

theorem bounds_record (run : Run) (id : TypeVarId) (demand : Demand) :
    (run.record id demand).bounds = run.binding.bounds := by
  unfold record
  cases demand.converts with
  | none => rfl
  | some converting => exact bounds_recordCall _ _ _

theorem convertibleApplications_eq_zero :
    binding.convertibleApplications = 0 ↔ binding.convertibleCalls = [] ∧ binding.convertibleParameters = [] := by
  simp [Binding.convertibleApplications]

/-- The calls that convert are recorded: those that convert in any case, and none of those that convert in no case. -/
structure Recorded (lattice : Lattice) (rules : List (TypeVarId × Rule)) (run : Run) : Prop where
  converting : ∀ {id call result}, (id, Rule.call call) ∈ rules → run.judgeWith lattice 0 call = .chosen result true →
    id ∈ run.binding.convertibleCalls
  exact : ∀ {id call result}, (id, Rule.call call) ∈ rules → run.judgeWith lattice 1 call = .chosen result false →
    id ∉ run.binding.convertibleCalls

/-! ## Runs that decide calls alike -/

/-- Two runs give the variables the same bounds, and both have accepted conversions or neither has. -/
structure Like (base run : Run) : Prop where
  bounds : run.binding.bounds = base.binding.bounds
  accepted : run.binding.convertibleApplications = 0 ↔ base.binding.convertibleApplications = 0

theorem judgeWith_of_bounds_eq (h : run.binding.bounds = base.binding.bounds) (conversions : Nat) :
    run.judgeWith lattice conversions call = base.judgeWith lattice conversions call := by
  refine judgeWith_congr (fun operand _ => ⟨?_, ?_⟩) conversions
  · simp only [untyped?, isFixed, Binding.boundsOf, h]
  · simp only [Binding.boundsOf, h]

theorem demandWith_of_bounds_eq (h : run.binding.bounds = base.binding.bounds) (conversions : Nat) :
    run.demandWith lattice tolerant conversions rule = base.demandWith lattice tolerant conversions rule := by
  have hbds : run.binding.boundsOf = base.binding.boundsOf := by
    funext id
    rw [Binding.boundsOf, Binding.boundsOf, h]
  cases rule with
  | join sources => simp only [demandWith, joinBounds, hbds]
  | copy source => simp only [demandWith, copyBounds, hbds]
  | call call => simp only [demandWith, judgeWith_of_bounds_eq h]
  | _ => rfl

theorem Like.judge_eq (h : base.Like run) : run.judge lattice call = base.judge lattice call := by
  rw [judge, judge, judgeWith_congr_conversions h.accepted, judgeWith_of_bounds_eq h.bounds]

theorem Like.demand_eq (h : base.Like run) :
    run.demand lattice tolerant rule = base.demand lattice tolerant rule := by
  rw [demand, demand, demandWith_of_bounds_eq h.bounds]
  cases rule with
  | call call => simp only [demandWith, judgeWith_congr_conversions h.accepted]
  | _ => rfl

theorem Like.fork?_eq (h : base.Like run) : run.fork? lattice rule = base.fork? lattice rule := by
  cases rule with
  | call call => simp only [fork?, h.judge_eq]
  | _ => rfl

/-- Where the calls that convert are recorded, doing what a rule asks, bounds apart, leaves a run that decides calls as
before, and the call of the rule is recorded as what it was decided. -/
theorem Like.note (hlike : base.Like run) (tolerant : Bool) (hrcd : base.Recorded lattice rules)
    (hrl : (id, rule) ∈ rules)
    (hsm : id ∈ run.binding.convertibleCalls ↔ id ∈ base.binding.convertibleCalls) :
    base.Like (run.note id rule (base.demand lattice tolerant rule)) ∧
      ∀ converting, (base.demand lattice tolerant rule).converts = some converting →
        (id ∈ (run.note id rule (base.demand lattice tolerant rule)).binding.convertibleCalls ↔ converting = true) := by
  have hbds : (run.note id rule (base.demand lattice tolerant rule)).binding.bounds = base.binding.bounds :=
    (bounds_record _ _ _).trans hlike.bounds
  cases hcv : (base.demand lattice tolerant rule).converts with
  | none =>
    refine ⟨⟨hbds, ?_⟩, nofun⟩
    simp only [Run.note, record, hcv, Option.elim_none]
    exact hlike.accepted
  | some converting =>
    obtain ⟨call, result, rfl, hjd⟩ := converts_demandWith_eq_some hcv
    have hrecord : (run.note id (.call call) (base.demand lattice tolerant (.call call))).binding =
        run.binding.recordCall id converting := by
      simp only [Run.note, record, hcv, Option.elim_some]
    refine ⟨⟨hbds, ?_⟩, fun converting' h => ?_⟩
    · rw [hrecord]
      cases converting with
      | true =>
        have hleft : (run.binding.recordCall id true).convertibleApplications ≠ 0 := by
          intro hzero
          have hmem : id ∈ (run.binding.recordCall id true).convertibleCalls := by simp [mem_recordCall]
          rw [(convertibleApplications_eq_zero.mp hzero).1] at hmem
          nomatch hmem
        have hright : base.binding.convertibleApplications ≠ 0 := by
          intro hzero
          rw [hzero] at hjd
          have hmem := hrcd.converting hrl hjd
          rw [(convertibleApplications_eq_zero.mp hzero).1] at hmem
          nomatch hmem
        exact iff_of_false hleft hright
      | false =>
        have hnot : id ∉ run.binding.convertibleCalls := by
          intro hmem
          have hmem := hsm.mp hmem
          by_cases hzero : base.binding.convertibleApplications = 0
          · rw [(convertibleApplications_eq_zero.mp hzero).1] at hmem
            nomatch hmem
          · rw [judgeWith_congr_conversions (iff_of_false hzero Nat.one_ne_zero)] at hjd
            exact hrcd.exact hrl hjd hmem
        rw [recordCall_of_mem_iff (iff_of_false hnot Bool.false_ne_true)]
        exact hlike.accepted
    · cases h
      rw [hrecord, mem_recordCall, if_pos rfl]

/-! ## Passes that change nothing -/

/-- A run has what a rule asks for when it is decided as `base` decides it. -/
structure Met (lattice : Lattice) (tolerant : Bool) (base run : Run) (id : TypeVarId) (rule : Rule) : Prop where
  fork : base.fork? lattice rule = none
  bounds : ∀ bounds, (base.demand lattice tolerant rule).bounds = some bounds →
    (base.binding.bounds.get? id == some bounds) = true
  converts : ∀ converting, (base.demand lattice tolerant rule).converts = some converting →
    (id ∈ run.binding.convertibleCalls ↔ converting = true)

/-- The failures that rules ask for. -/
def failuresOf (lattice : Lattice) (tolerant : Bool) (base : Run) (rules : List (TypeVarId × Rule)) : List Failure :=
  rules.flatMap fun entry => (base.demand lattice tolerant entry.2).failures

/-- What a run of rules without changes leaves. -/
structure Unchanged (lattice : Lattice) (tolerant : Bool) (base : Run) (rules : List (TypeVarId × Rule))
    (run run' : Run) : Prop where
  like : base.Like run'
  met : ∀ entry ∈ rules, Met lattice tolerant base run' entry.1 entry.2
  failures : run'.failures = run.failures ++ base.failuresOf lattice tolerant rules
  others : ∀ id, id ∉ rules.map Prod.fst →
    (id ∈ run'.binding.convertibleCalls ↔ id ∈ run.binding.convertibleCalls)

theorem changed_applyAll (h : applyAll lattice tolerant rules run changed = .finished run' false) : changed = false := by
  induction rules generalizing run changed with
  | nil =>
    cases h
    rfl
  | cons entry rest ih =>
    obtain ⟨id, rule⟩ := entry
    simp only [applyAll] at h
    split at h
    · exact (Bool.or_eq_false_iff.mp (ih h)).1
    · cases h

theorem meet_unchanged (h : (run.meet id rule demand).2 = false) : (run.meet id rule demand).1 = run.note id rule demand ∧
      ∀ bounds, demand.bounds = some bounds → (run.binding.bounds.get? id == some bounds) = true := by
  unfold meet at h ⊢
  cases hbds : demand.bounds with
  | none => exact ⟨rfl, nofun⟩
  | some bounds =>
    rw [hbds, Option.elim_some] at h
    cases heq : ((run.note id rule demand).binding.bounds.get? id == some bounds) with
    | false =>
      rw [set_of_ne heq] at h
      nomatch h
    | true =>
      rw [Option.elim_some, set_of_eq heq]
      refine ⟨rfl, fun bounds' h => ?_⟩
      cases h
      rw [← bounds_record run id demand]
      exact heq

/-- Where the calls that convert are recorded, rules that change no bounds are all met in the end. -/
theorem applyAll_unchanged {all : List (TypeVarId × Rule)} (hrcd : base.Recorded lattice all) (hsub : rules ⊆ all)
    (hids : (rules.map Prod.fst).Nodup) (hlike : base.Like run)
    (hsm : ∀ id ∈ rules.map Prod.fst, id ∈ run.binding.convertibleCalls ↔ id ∈ base.binding.convertibleCalls)
    (h : applyAll lattice tolerant rules run changed = .finished run' false) :
    Unchanged lattice tolerant base rules run run' := by
  induction rules generalizing run changed with
  | nil =>
    cases h
    exact ⟨hlike, by simp, by simp [failuresOf], fun _ _ => Iff.rfl⟩
  | cons entry rest ih =>
    obtain ⟨id, rule⟩ := entry
    rw [List.map_cons, List.nodup_cons] at hids
    simp only [applyAll, apply_eq, hlike.fork?_eq, hlike.demand_eq] at h
    cases hfk : base.fork? lattice rule with
    | some fork =>
      rw [hfk] at h
      cases h
    | none =>
      rw [hfk] at h
      simp only [Option.elim_none] at h
      obtain ⟨hmeet, hbds⟩ := meet_unchanged (Bool.or_eq_false_iff.mp (changed_applyAll h)).2
      rw [hmeet] at h
      rw [hlike.bounds] at hbds
      obtain ⟨hnx, hcv⟩ := hlike.note tolerant hrcd (hsub List.mem_cons_self)
        (hsm id List.mem_cons_self)
      have hoths : ∀ other, other ≠ id →
          (other ∈ (run.note id rule (base.demand lattice tolerant rule)).binding.convertibleCalls ↔
            other ∈ run.binding.convertibleCalls) := fun other hne => mem_record hne
      have hrs := ih (fun _ hmem => hsub (List.mem_cons_of_mem _ hmem)) hids.2 hnx
        (fun other hoth => (hoths other fun heq => hids.1 (heq ▸ hoth)).trans
          (hsm other (List.mem_cons_of_mem _ hoth))) h
      refine ⟨hrs.like, ?_, ?_, ?_⟩
      · intro entry he
        rcases List.mem_cons.mp he with rfl | he
        · exact ⟨hfk, hbds, fun converting hc => (hrs.others id hids.1).trans (hcv converting hc)⟩
        · exact hrs.met entry he
      · rw [hrs.failures, failuresOf, failuresOf, List.flatMap_cons, ← List.append_assoc]
        rfl
      · intro other hoth
        rw [List.map_cons, List.mem_cons, not_or] at hoth
        exact (hrs.others other hoth.2).trans (hoths other hoth.1)

/-- Doing what a rule asks leaves the bindings of a run that has it. -/
theorem meet_of_met (hbdg : run.binding = base.binding) (hmet : Met lattice tolerant base base id rule) :
    run.meet id rule (base.demand lattice tolerant rule) =
      ({ run with
        pending := run.pending || rule.waits
        failures := run.failures ++ (base.demand lattice tolerant rule).failures }, false) := by
  have hrecord : run.record id (base.demand lattice tolerant rule) = run.binding := by
    unfold record
    cases hcv : (base.demand lattice tolerant rule).converts with
    | none => rfl
    | some converting => exact recordCall_of_mem_iff (hbdg ▸ hmet.converts converting hcv)
  unfold meet note
  rw [hrecord]
  cases hbds : (base.demand lattice tolerant rule).bounds with
  | none => rfl
  | some bounds => exact set_of_eq (hbdg ▸ hmet.bounds bounds hbds)

/-- Rules that are met leave the bindings of a run. -/
theorem applyAll_of_met (base run : Run) (hbdg : run.binding = base.binding)
    (hmet : ∀ entry ∈ rules, Met lattice tolerant base base entry.1 entry.2) :
    applyAll lattice tolerant rules run changed =
      .finished { run with
        pending := run.pending || rules.any (fun entry => entry.2.waits)
        failures := run.failures ++ base.failuresOf lattice tolerant rules } changed := by
  induction rules generalizing run changed with
  | nil => simp [applyAll, failuresOf]
  | cons entry rest ih =>
    obtain ⟨id, rule⟩ := entry
    have hfst := hmet (id, rule) List.mem_cons_self
    have hlike : base.Like run := ⟨by rw [hbdg], by rw [hbdg]⟩
    simp only [applyAll, apply_eq, hlike.fork?_eq, hlike.demand_eq, hfst.fork, Option.elim_none,
      meet_of_met hbdg hfst]
    rw [ih]
    · simp [failuresOf, Bool.or_assoc]
    · exact hbdg
    · exact fun entry he => hmet entry (List.mem_cons_of_mem _ he)

/-- A run has all that the rules ask for, and reports what they come to. -/
structure IsFixpoint (lattice : Lattice) (tolerant : Bool) (rules : List (TypeVarId × Rule)) (run : Run) : Prop where
  met : ∀ entry ∈ rules, Met lattice tolerant run run entry.1 entry.2
  failures : run.failures = run.failuresOf lattice tolerant rules
  pending : run.pending = rules.any (fun entry => entry.2.waits)

theorem IsFixpoint.pass_eq (h : IsFixpoint lattice tolerant rules run) :
    run.pass lattice tolerant rules = .finished run false := by
  rw [pass, applyAll_of_met run { run with pending := false, failures := [] } rfl h.met, Bool.false_or,
    List.nil_append, ← h.failures, ← h.pending]

/-- A pass without changes leaves a fixpoint when the calls that convert were recorded before. -/
theorem isFixpoint_of_unchanged (hids : (rules.map Prod.fst).Nodup) (hrcd : run.Recorded lattice rules)
    (h : run.pass lattice tolerant rules = .finished run' false) : IsFixpoint lattice tolerant rules run' := by
  have hlike : run.Like { run with pending := false, failures := [] } := ⟨rfl, Iff.rfl⟩
  have hunchanged := applyAll_unchanged hrcd (fun _ hmem => hmem) hids hlike (fun _ _ => Iff.rfl) h
  have hdemand : ∀ rule, run'.demand lattice tolerant rule = run.demand lattice tolerant rule := fun _ =>
    hunchanged.like.demand_eq
  refine ⟨fun entry he => ?_, ?_, pending_pass h⟩
  · have hmet := hunchanged.met entry he
    refine ⟨hunchanged.like.fork?_eq.trans hmet.fork, fun bounds hbds => ?_, fun converting hcv => ?_⟩
    · rw [hunchanged.like.bounds]
      exact hmet.bounds bounds ((hdemand _).symm ▸ hbds)
    · exact hmet.converts converting ((hdemand _).symm ▸ hcv)
  · rw [hunchanged.failures, List.nil_append, failuresOf, failuresOf]
    simp only [hdemand]

/-! ## What every pass records -/

/-- The rules stand in the order of their variables, the arguments of a call come before it, and the parameters that they
copy are kept. -/
structure Ordered (rules : List (TypeVarId × Rule)) : Prop where
  increasing : rules.Pairwise (fun first second => first.1.index < second.1.index)
  operands : ∀ {id call}, (id, Rule.call call) ∈ rules → ∀ operand ∈ call.operands, operand.id.index < id.index
  origins : ∀ {id call}, (id, Rule.call call) ∈ rules → ∀ operand ∈ call.operands, ∀ origin,
    operand.origin = some origin → ∀ rule, (origin.1, rule) ∈ rules → rule = .kept

theorem Ordered.tail {entry : TypeVarId × Rule} (h : Ordered (entry :: rules)) : Ordered rules where
  increasing := (List.pairwise_cons.mp h.increasing).2
  operands := fun hcl => h.operands (List.mem_cons_of_mem _ hcl)
  origins := fun hcl operand hopd origin horg rule hrl =>
    h.origins (List.mem_cons_of_mem _ hcl) operand hopd origin horg rule (List.mem_cons_of_mem _ hrl)

theorem Ordered.nodup (h : Ordered rules) : (rules.map Prod.fst).Nodup := by
  refine List.pairwise_map.mpr (h.increasing.imp fun hlt heq => ?_)
  rw [heq] at hlt
  exact Nat.lt_irrefl _ hlt

theorem Ordered.not_mem_tail (h : Ordered ((id, rule) :: rules)) : id ∉ rules.map Prod.fst :=
  (List.nodup_cons.mp h.nodup).1

theorem judgeWith_applyAll_cons (hord : Ordered ((id, .call call) :: rules))
    (h : applyAll lattice tolerant ((id, .call call) :: rules) run changed = .finished run' changed')
    (conversions : Nat) : run'.judgeWith lattice conversions call = run.judgeWith lattice conversions call := by
  have hget : ∀ other, (∀ rule, (other, rule) ∈ (id, Rule.call call) :: rules → rule = .kept) →
      run'.binding.boundsOf other = run.binding.boundsOf other := by
    intro other hkt
    have hsm := get?_applyAll lattice tolerant run changed hkt
    rw [h] at hsm
    rw [Binding.boundsOf, Binding.boundsOf, ← hsm]
    rfl
  refine judgeWith_congr (fun operand hopd => ⟨?_, ?_⟩) conversions
  · unfold untyped?
    cases horg : operand.origin with
    | none => rfl
    | some origin =>
      have := hget origin.1 (hord.origins List.mem_cons_self operand hopd origin horg)
      rw [Option.filter_some, Option.filter_some, isFixed, isFixed, this]
  · refine hget operand.id fun rule hrl => ?_
    have hlt := hord.operands List.mem_cons_self operand hopd
    rcases List.mem_cons.mp hrl with heq | hrl
    · cases heq
      exact absurd hlt (Nat.lt_irrefl _)
    · have := (List.pairwise_cons.mp hord.increasing).1 _ hrl
      exact absurd this (Nat.lt_asymm hlt)

/-- A call has been decided as its arguments stand, under some number of accepted conversions. -/
def Decided (lattice : Lattice) (tolerant : Bool) (run : Run) (id : TypeVarId) (call : CallRule) : Prop :=
  ∃ conversions, (run.judgeWith lattice conversions call).fork? = none ∧
    (∀ bounds, (run.demandWith lattice tolerant conversions (.call call)).bounds = some bounds →
      (run.binding.bounds.get? id == some bounds) = true) ∧
    ∀ converting, (run.demandWith lattice tolerant conversions (.call call)).converts = some converting →
      (id ∈ run.binding.convertibleCalls ↔ converting = true)

theorem get?_meet {bounds : Bounds} (h : demand.bounds = some bounds) :
    ((run.meet id rule demand).1.binding.bounds.get? id == some bounds) = true := by
  rw [meet, h, Option.elim_some]
  cases heq : ((run.note id rule demand).binding.bounds.get? id == some bounds) with
  | true => rwa [set_of_eq heq]
  | false =>
    rw [set_of_ne heq, OrderedMap.get?_insert, if_pos rfl]
    exact BEq.rfl

theorem convertibleCalls_meet (run : Run) (id : TypeVarId) (rule : Rule) (demand : Demand) :
    (run.meet id rule demand).1.binding.convertibleCalls = (run.record id demand).convertibleCalls := by
  unfold meet
  cases demand.bounds with
  | none => rfl
  | some bounds => exact (set_frame _ _ _).2.2.2.1

theorem failures_meet (run : Run) (id : TypeVarId) (rule : Rule) (demand : Demand) :
    (run.meet id rule demand).1.failures = run.failures ++ demand.failures := by
  unfold meet
  cases demand.bounds with
  | none => rfl
  | some bounds => exact (set_frame _ _ _).2.1

/-- Rules that come to their end: the first is no fork, and the others go on from what it leaves. -/
theorem applyAll_cons_eq_finished
    (h : applyAll lattice tolerant ((id, rule) :: rules) run changed = .finished run' changed') :
    run.fork? lattice rule = none ∧
      applyAll lattice tolerant rules (run.meet id rule (run.demand lattice tolerant rule)).1
        (changed || (run.meet id rule (run.demand lattice tolerant rule)).2) = .finished run' changed' := by
  simp only [applyAll, apply_eq] at h
  cases hfk : run.fork? lattice rule with
  | none =>
    rw [hfk] at h
    exact ⟨rfl, h⟩
  | some fork =>
    rw [hfk] at h
    cases h

theorem mem_convertibleCalls_applyAll (hoth : other ∉ rules.map Prod.fst)
    (h : applyAll lattice tolerant rules run changed = .finished run' changed') :
    other ∈ run'.binding.convertibleCalls ↔ other ∈ run.binding.convertibleCalls := by
  induction rules generalizing run changed with
  | nil =>
    cases h
    rfl
  | cons entry rest ih =>
    obtain ⟨id, rule⟩ := entry
    rw [List.map_cons, List.mem_cons, not_or] at hoth
    rw [ih hoth.2 (applyAll_cons_eq_finished h).2, convertibleCalls_meet, mem_record hoth.1]

theorem decided_applyAll (hord : Ordered rules)
    (h : applyAll lattice tolerant rules run changed = .finished run' changed')
    (hcl : (id, Rule.call call) ∈ rules) : run'.Decided lattice tolerant id call := by
  induction rules generalizing run changed with
  | nil => nomatch hcl
  | cons entry rest ih =>
    obtain ⟨first, rule⟩ := entry
    obtain ⟨hfk, hrs⟩ := applyAll_cons_eq_finished h
    rcases List.mem_cons.mp hcl with heq | hcl
    · cases heq
      have hjd := judgeWith_applyAll_cons hord h run.binding.convertibleApplications
      have hdemand : run'.demandWith lattice tolerant run.binding.convertibleApplications (.call call) =
          run.demand lattice tolerant (.call call) := by
        rw [demand, demandWith, demandWith, hjd]
      have hnot := hord.not_mem_tail
      refine ⟨run.binding.convertibleApplications, by rw [hjd]; exact hfk, ?_, ?_⟩
      · intro bounds hbds
        rw [hdemand] at hbds
        have hsm := get?_applyAll lattice tolerant (run.meet id (.call call) (run.demand lattice tolerant (.call call))).1
          (changed || (run.meet id (.call call) (run.demand lattice tolerant (.call call))).2)
          fun rule hrl => absurd (List.mem_map.mpr ⟨_, hrl, rfl⟩) hnot
        rw [hrs] at hsm
        rw [show run'.binding.bounds.get? id = _ from hsm]
        exact get?_meet hbds
      · intro converting hcv
        rw [hdemand] at hcv
        rw [mem_convertibleCalls_applyAll hnot hrs, convertibleCalls_meet, record, hcv, Option.elim_some,
          mem_recordCall, if_pos rfl]
    · exact ih hord.tail hrs hcl

/-- After a pass the calls that convert are recorded. -/
theorem recorded_pass (hord : Ordered rules) (h : run.pass lattice tolerant rules = .finished run' changed) :
    run'.Recorded lattice rules where
  converting := by
    intro id call result hcl hjd
    obtain ⟨conversions, _, _, hcv⟩ := decided_applyAll hord h hcl
    refine (hcv true ?_).mpr rfl
    rw [demandWith, judgeWith_of_converting hjd]
    rfl
  exact := by
    intro id call result hcl hjd hmem
    obtain ⟨conversions, _, _, hcv⟩ := decided_applyAll hord h hcl
    have hexact : (run'.demandWith lattice tolerant conversions (.call call)).converts = some false := by
      by_cases hzero : conversions = 0
      · obtain ⟨result', hjd'⟩ := judgeWith_of_exact hjd
        rw [hzero, demandWith, hjd']
        rfl
      · rw [demandWith, judgeWith_congr_conversions (iff_of_false hzero Nat.one_ne_zero), hjd]
        rfl
    exact Bool.false_ne_true ((hcv false hexact).mp hmem)

/-- A run that reports failures after a pass has a call that its overloads refuse. -/
theorem exists_refused (hord : Ordered rules)
    (h : applyAll lattice tolerant rules run changed = .finished run' changed') (hfailures : run'.failures ≠ run.failures) :
    ∃ id call arguments, (id, Rule.call call) ∈ rules ∧
      ∀ conversions, run'.judgeWith lattice conversions call = .refused arguments := by
  induction rules generalizing run changed with
  | nil =>
    cases h
    exact absurd rfl hfailures
  | cons entry rest ih =>
    obtain ⟨id, rule⟩ := entry
    obtain ⟨_, hrs⟩ := applyAll_cons_eq_finished h
    by_cases hlater : run'.failures = (run.meet id rule (run.demand lattice tolerant rule)).1.failures
    · rw [failures_meet] at hlater
      have hasked : (run.demand lattice tolerant rule).failures ≠ [] := by
        intro hno
        rw [hno, List.append_nil] at hlater
        exact hfailures hlater
      obtain ⟨call, arguments, rfl, hjd⟩ := failures_demandWith_ne_nil hasked
      refine ⟨id, call, arguments, List.mem_cons_self, fun conversions => ?_⟩
      rw [judgeWith_applyAll_cons hord h, judgeWith_of_refused hjd]
    · obtain ⟨other, call, arguments, hcl, hjd⟩ := ih hord.tail hrs hlater
      exact ⟨other, call, arguments, List.mem_cons_of_mem _ hcl, hjd⟩

/-- Rules that change no bounds ask for those that are there. -/
theorem bounds_of_unchanged (h : applyAll lattice tolerant rules run changed = .finished run' false) :
    run'.binding.bounds = run.binding.bounds ∧ ∀ id rule, (id, rule) ∈ rules → ∃ conversions, ∀ bounds,
      (run.demandWith lattice tolerant conversions rule).bounds = some bounds →
        (run.binding.bounds.get? id == some bounds) = true := by
  induction rules generalizing run changed with
  | nil =>
    cases h
    exact ⟨rfl, nofun⟩
  | cons entry rest ih =>
    obtain ⟨id, rule⟩ := entry
    obtain ⟨_, hrs⟩ := applyAll_cons_eq_finished h
    obtain ⟨hmeet, hbds⟩ := meet_unchanged (Bool.or_eq_false_iff.mp (changed_applyAll hrs)).2
    rw [hmeet] at hrs
    obtain ⟨hsm, hasked⟩ := ih hrs
    have hnote : (run.note id rule (run.demand lattice tolerant rule)).binding.bounds = run.binding.bounds :=
      bounds_record _ _ _
    rw [hnote] at hsm hasked
    refine ⟨hsm, fun other rule' hmem => ?_⟩
    rcases List.mem_cons.mp hmem with heq | hmem
    · cases heq
      exact ⟨run.binding.convertibleApplications, hbds⟩
    · obtain ⟨conversions, hasked⟩ := hasked other rule' hmem
      refine ⟨conversions, fun bounds hb => hasked bounds ?_⟩
      rw [demandWith_of_bounds_eq hnote]
      exact hb

end Run

end SoftTyping
