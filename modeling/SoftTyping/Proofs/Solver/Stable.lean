import Mathlib.Data.List.Nodup
import SoftTyping.Proofs.Lattice
import SoftTyping.Proofs.Solver.Fixpoint
import SoftTyping.Proofs.Solver.Search

/-!
# Runs come to fixpoints

A pass without changes leaves a fixpoint if the calls that convert have been recorded before it, and every pass records
them. What remains are the runs that the solver starts: a first pass over one of them could change nothing. It does not,
or there is no call to record. A body starts with no bounds but those of its declared parameters. A fork gives a type to a
parameter that some variable merely copies, and that copy had no type before (`Blank`). A run that is done again after a
failure gives the call that failed the erroneous type. Main statement: a run that comes to its end within the limit on
passes is a fixpoint (`isFixpoint_settle`).
-/

namespace SoftTyping

/-- The variable that a rule merely copies. -/
def Rule.copied? : Rule → Option TypeVarId
  | .copy source => some source
  | .join [source] => some source
  | _ => none

namespace Run

variable {lattice : Lattice} {tolerant : Bool} {run run' : Run} {id source : TypeVarId} {rule : Rule}
  {rules : List (TypeVarId × Rule)} {changed changed' : Bool}

theorem Ordered.unique {rule' : Rule} (hord : Ordered rules) (h : (id, rule) ∈ rules) (h' : (id, rule') ∈ rules) :
    rule = rule' := by
  have := List.inj_on_of_nodup_map hord.nodup h h' rfl
  exact (Prod.mk.inj this).2

/-- A copy has a type exactly if what it copies has one. -/
theorem lower_of_copied (run : Run) (tolerant : Bool) (conversions : Nat) (hlat : lattice.KeepsTypes)
    (h : rule.copied? = some source) :
    ∃ bounds, (run.demandWith lattice tolerant conversions rule).bounds = some bounds ∧
      bounds.lower.isEmpty = (run.binding.boundsOf source).lower.isEmpty := by
  unfold Rule.copied? at h
  split at h
  · cases h
    exact ⟨_, rfl, rfl⟩
  · cases h
    refine ⟨_, rfl, ?_⟩
    rw [joinBounds]
    dsimp only
    rw [Lattice.isEmpty_normalize hlat, List.map_singleton, List.foldl_cons, List.foldl_nil, Union.isEmpty_extend,
      Union.isEmpty_empty, Bool.true_and]
  · cases h

theorem fork?_of_copied (h : rule.copied? = some source) : run.fork? lattice rule = none := by
  cases rule with
  | call call => nomatch h
  | _ => rfl

theorem lower_boundsOf {bounds : Bounds} (h : (run.binding.bounds.get? id == some bounds) = true) :
    (run.binding.boundsOf id).lower.isEmpty = bounds.lower.isEmpty := by
  unfold Binding.boundsOf
  cases hget : run.binding.bounds.get? id with
  | none =>
    rw [hget] at h
    nomatch h
  | some found =>
    rw [hget] at h
    exact Union.isEmpty_of_beq (Bounds.lower_of_beq h)

/-- Passes that end within their limit end with a pass that changes nothing. -/
theorem passes_uncapped {limit : Nat} (Inv : Run → Prop)
    (hstp : ∀ {r r'}, Inv r → r.pass lattice tolerant rules = .finished r' true → Inv r') (hrun : Inv run)
    (h : run.passes lattice tolerant rules limit = .finished run' changed) (hcap : run'.capped = false) :
    ∃ last, Inv last ∧ last.capped = false ∧ last.pass lattice tolerant rules = .finished run' false := by
  have hcas := passes_cases lattice tolerant rules limit run Inv hstp hrun
  rw [h] at hcas
  cases changed with
  | false =>
    obtain ⟨last, hls, hpass⟩ := hcas
    have hsm : (last.pass lattice tolerant rules).run.capped = last.capped := capped_applyAll
    rw [hpass] at hsm
    exact ⟨last, hls, hsm.symm.trans hcap, hpass⟩
  | true =>
    obtain ⟨last, _, rfl, _⟩ := hcas
    nomatch hcap

end Run

namespace Plan

variable {plan : Plan} {lattice : Lattice} {limits : Limits} {tolerant : Bool} {run run' : Run} {id : TypeVarId}
  {rule : Rule} {limit : Nat} {changed : Bool}

/-! ## Parameters without a type -/

/-- A variable keeps what it is bound to. -/
def Keeps (plan : Plan) (id : TypeVarId) : Prop := ∀ rule, (id, rule) ∈ plan.rules → rule = .kept

/-- What has no type: a parameter that has not been given one is not bound at all, and its copies have none either. -/
structure Blank (plan : Plan) (run : Run) : Prop where
  untyped : ∀ {id}, plan.Keeps id → run.isFixed id = false → run.binding.bounds.get? id = none
  copies : ∀ {copy rule source}, (copy, rule) ∈ plan.rules → rule.copied? = some source → plan.Keeps source →
    run.isFixed source = false → (run.binding.boundsOf copy).lower.isEmpty = true

theorem Blank.of_bounds (h : plan.Blank run) (hbds : run'.binding.bounds = run.binding.bounds) : plan.Blank run' := by
  have hfx : ∀ id, run'.isFixed id = run.isFixed id := by
    intro id
    rw [Run.isFixed, Run.isFixed, Binding.boundsOf, Binding.boundsOf, hbds]
  refine ⟨fun hkp hfe => ?_, fun hmem hcop hkp hfe => ?_⟩
  · rw [hbds]
    exact h.untyped hkp (hfx _ ▸ hfe)
  · rw [Binding.boundsOf, hbds]
    exact h.copies hmem hcop hkp (hfx _ ▸ hfe)

theorem get?_start {bounds : Bounds} (h : plan.start.binding.bounds.get? id = some bounds) :
    ∃ parameter ∈ plan.parameters, parameter.id = id ∧
      ∃ union, parameter.declared = some union ∧ bounds = .ofGiven union := by
  change OrderedMap.get? (plan.parameters.foldl _ ∅) id = some bounds at h
  suffices hfold : (∅ : OrderedMap TypeVarId Bounds).get? id = some bounds ∨ ∃ parameter ∈ plan.parameters,
      parameter.id = id ∧ ∃ union, parameter.declared = some union ∧ bounds = .ofGiven union by
    exact hfold.resolve_left (by simp)
  generalize (∅ : OrderedMap TypeVarId Bounds) = start at h ⊢
  generalize plan.parameters = parameters at h ⊢
  induction parameters generalizing start with
  | nil => exact Or.inl h
  | cons parameter rest ih =>
    rcases ih _ h with h | ⟨other, hoth, hid⟩
    · dsimp only at h
      split at h
      · next union hdec =>
        rw [OrderedMap.get?_insert] at h
        split at h
        · next hid =>
          cases h
          exact Or.inr ⟨parameter, List.mem_cons_self, hid, union, hdec, rfl⟩
        · exact Or.inl h
      · exact Or.inl h
    · exact Or.inr ⟨other, List.mem_cons_of_mem _ hoth, hid⟩

theorem blank_start (hpars : ∀ parameter ∈ plan.parameters, ∀ rule, (parameter.id, rule) ∈ plan.rules →
    rule.copied? = none) : plan.Blank plan.start := by
  refine ⟨fun {id} _ hfe => ?_, fun {copy rule source} hmem hcop _ _ => ?_⟩
  · cases hget : plan.start.binding.bounds.get? id with
    | none => rfl
    | some bounds =>
      obtain ⟨_, _, _, _, _, rfl⟩ := get?_start hget
      rw [Run.isFixed, Binding.boundsOf, hget] at hfe
      cases hfe
  · unfold Binding.boundsOf
    cases hget : plan.start.binding.bounds.get? copy with
    | none => rfl
    | some bounds =>
      obtain ⟨parameter, hpar, rfl, _⟩ := get?_start hget
      rw [hpars parameter hpar rule hmem] at hcop
      cases hcop

theorem Blank.apply (hord : Run.Ordered plan.rules) (hlat : lattice.KeepsTypes) (h : plan.Blank run)
    (tolerant : Bool) (hrl : (id, rule) ∈ plan.rules) : plan.Blank (run.apply lattice tolerant id rule).run := by
  have hkt : ∀ {other}, plan.Keeps other →
      (run.apply lattice tolerant id rule).run.binding.bounds.get? other = run.binding.bounds.get? other :=
    fun hkp => Run.get?_apply_of_kept hkp hrl
  have hfx : ∀ {other}, plan.Keeps other →
      (run.apply lattice tolerant id rule).run.isFixed other = run.isFixed other := by
    intro other hkp
    rw [Run.isFixed, Run.isFixed, Binding.boundsOf, Binding.boundsOf, hkt hkp]
  refine ⟨fun hkp hfe => ?_, fun {copy rule' source} hmem hcop hkp hfe => ?_⟩
  · rw [hkt hkp]
    exact h.untyped hkp (hfx hkp ▸ hfe)
  · rw [hfx hkp] at hfe
    by_cases hid : copy = id
    · subst hid
      cases hord.unique hrl hmem
      obtain ⟨bounds, hbds, hem⟩ := Run.lower_of_copied run tolerant run.binding.convertibleApplications hlat
        hcop
      rw [Run.apply_eq, Run.fork?_of_copied hcop, Option.elim_none, Progress.run, Run.demand,
        Run.lower_boundsOf (Run.get?_meet hbds), hem, Binding.boundsOf, h.untyped hkp hfe]
      rfl
    · rw [Binding.boundsOf, Run.get?_apply_of_ne hid]
      exact h.copies hmem hcop hkp hfe

theorem Blank.passes (hord : Run.Ordered plan.rules) (hlat : lattice.KeepsTypes) (h : plan.Blank run)
    (tolerant : Bool) (limit : Nat) : plan.Blank (run.passes lattice tolerant plan.rules limit).run :=
  Run.passes_keeps plan.Blank (fun hr heq => hr.of_bounds (by rw [heq]))
    (fun hrl hr => hr.apply hord hlat tolerant hrl) h limit

theorem Blank.bindParameter (h : plan.Blank run) (hid : ∀ rule, (id, rule) ∈ plan.rules → rule.copied? = none)
    (index : Nat) (type : ParameterType) : plan.Blank (run.bindParameter id index type) := by
  have hfe : ∀ {other}, (run.bindParameter id index type).isFixed other = false →
      id ≠ other ∧ run.isFixed other = false := by
    intro other hoth
    rw [Run.isFixed_bindParameter, Bool.or_eq_false_iff] at hoth
    exact ⟨by simpa using hoth.1, hoth.2⟩
  refine ⟨fun hkp hoth => ?_, fun {copy rule source} hmem hcop hkp hoth => ?_⟩
  · obtain ⟨hne, hoth⟩ := hfe hoth
    rw [Run.get?_bindParameter, if_neg hne]
    exact h.untyped hkp hoth
  · have hne : id ≠ copy := by
      rintro rfl
      rw [hid rule hmem] at hcop
      nomatch hcop
    rw [Binding.boundsOf, Run.get?_bindParameter, if_neg hne]
    exact h.copies hmem hcop hkp (hfe hoth).2

/-! ## What a first pass changes -/

/-- What the constraints of a body are like: the rules stand in order, parameters are given or kept, an argument is no
parameter itself, some variable merely copies a parameter that an argument is traced back to, and what overloads take
has a type. -/
structure Regular (plan : Plan) : Prop where
  ordered : Run.Ordered plan.rules
  parameters : ∀ parameter ∈ plan.parameters, ∀ rule, (parameter.id, rule) ∈ plan.rules →
    rule.copied? = none ∧ ∀ call, rule ≠ .call call
  operands : ∀ {id call}, (id, Rule.call call) ∈ plan.rules → ∀ operand ∈ call.operands,
    ∀ parameter ∈ plan.parameters, parameter.id ≠ operand.id
  copies : ∀ {id call}, (id, Rule.call call) ∈ plan.rules → ∀ operand ∈ call.operands, ∀ origin,
    operand.origin = some origin → ∃ copy rule, (copy, rule) ∈ plan.rules ∧ rule.copied? = some origin.1
  types : ∀ {id call}, (id, Rule.call call) ∈ plan.rules → ∀ overload ∈ call.overloads, ∀ type ∈ overload.parameters,
    type.bound.isEmpty = false

/-- If the passes of a run could end at once, the calls that convert are recorded in it. -/
def Ready (plan : Plan) (lattice : Lattice) (tolerant : Bool) (run : Run) : Prop :=
  run.capped = false → ∀ run', run.pass lattice tolerant plan.rules = .finished run' false →
    run.Recorded lattice plan.rules

/-- A pass from where a parameter has just been given a type changes something if a variable merely copies it. -/
theorem changes_of_copied (hlat : lattice.KeepsTypes) {source : TypeVarId}
    (hmem : (id, rule) ∈ plan.rules) (hcop : rule.copied? = some source)
    (hbef : (run.binding.boundsOf id).lower.isEmpty = true)
    (hsrc : (run.binding.boundsOf source).lower.isEmpty = false) :
    run.pass lattice tolerant plan.rules ≠ .finished run' false := by
  intro hpass
  obtain ⟨conversions, hasked⟩ := (Run.bounds_of_unchanged hpass).2 id rule hmem
  obtain ⟨bounds, hbds, hem⟩ := Run.lower_of_copied { run with pending := false, failures := [] } tolerant
    conversions hlat hcop
  have hlw := Run.lower_boundsOf (hasked bounds hbds)
  rw [hem, hbef, hsrc] at hlw
  nomatch hlw

theorem ready_start (hrg : plan.Regular) : plan.Ready lattice tolerant plan.start := by
  intro _ run' hpass
  -- A call has no bounds to begin with, so the pass would have given it some.
  have hno : ∀ {id call}, (id, Rule.call call) ∉ plan.rules := by
    intro id call hcl
    obtain ⟨conversions, hfk, hasked, _⟩ := Run.decided_applyAll hrg.ordered hpass hcl
    obtain ⟨bounds, hbds⟩ := Judgement.exists_bounds_demand lattice tolerant call hfk
    have hget := hasked bounds hbds
    rw [(Run.bounds_of_unchanged hpass).1] at hget
    cases hst : plan.start.binding.bounds.get? id with
    | none =>
      rw [hst] at hget
      nomatch hget
    | some found =>
      obtain ⟨parameter, hpar, rfl, _⟩ := get?_start hst
      exact (hrg.parameters parameter hpar _ hcl).2 call rfl
  exact ⟨fun hcl => absurd hcl hno, fun hcl => absurd hcl hno⟩

theorem ready_branch (hrg : plan.Regular) (hlat : lattice.KeepsTypes) {fork : Fork} {candidate : ParameterType}
    (hblank : plan.Blank run) (hfk : Run.Forks plan.rules run fork) (hcan : candidate ∈ fork.candidates) :
    plan.Ready lattice tolerant (run.bindParameter fork.parameter fork.index candidate) := by
  obtain ⟨⟨id, call, hcl, ⟨operand, hopd, horg⟩, htps⟩, hut, _⟩ := hfk
  obtain ⟨overload, hov, htp⟩ := htps candidate hcan
  obtain ⟨copy, rule, hcopy, hcop⟩ := hrg.copies hcl operand hopd _ horg
  have hkp : plan.Keeps fork.parameter := hrg.ordered.origins hcl operand hopd _ horg
  have hne : fork.parameter ≠ copy := by
    rintro rfl
    rw [hkp rule hcopy] at hcop
    nomatch hcop
  intro _ run' hpass
  refine absurd hpass (changes_of_copied hlat hcopy hcop ?_ ?_)
  · rw [Binding.boundsOf, Run.get?_bindParameter, if_neg hne]
    exact hblank.copies hcopy hcop hkp hut
  · rw [Binding.boundsOf, Run.get?_bindParameter, if_pos rfl]
    exact hrg.types hcl overload hov candidate htp

theorem ready_retry (hrg : plan.Regular) (hlat : lattice.KeepsTypes) {last : Run}
    (hls : last.pass lattice false plan.rules = .finished run changed) (hfailures : run.failures ≠ []) :
    plan.Ready lattice true run := by
  obtain ⟨id, call, arguments, hcl, hjd⟩ := Run.exists_refused hrg.ordered hls hfailures
  intro _ run' hpass
  exfalso
  obtain ⟨conversions, _, hstrict, _⟩ := Run.decided_applyAll hrg.ordered hls hcl
  have hem : (run.binding.boundsOf id).lower.isEmpty = true := by
    rw [Run.lower_boundsOf (hstrict {} (by rw [Run.demandWith, hjd]; rfl))]
    rfl
  obtain ⟨conversions', htolerant⟩ := (Run.bounds_of_unchanged hpass).2 id _ hcl
  have hreset : ({ run with pending := false, failures := [] } : Run).judgeWith lattice conversions' call =
      .refused arguments := hjd conversions'
  have hlw := Run.lower_boundsOf (htolerant (.ofFound lattice.erroneousUnion) (by
    rw [Run.demandWith, hreset]
    rfl))
  rw [hem] at hlw
  exact absurd hlw.symm (by rw [Bounds.ofFound, hlat.erroneous]; decide)

/-! ## Closing the parameters -/

theorem boundsOf_close (plan : Plan) (lattice : Lattice) (run : Run) (id : TypeVarId) :
    (plan.close lattice run).binding.boundsOf id =
      if ∃ parameter ∈ plan.openParameters run, parameter.id = id then .ofGiven lattice.mixedUnion
      else run.binding.boundsOf id := by
  unfold close
  generalize plan.openParameters run = parameters
  induction parameters generalizing run with
  | nil => simp
  | cons parameter rest ih =>
    rw [List.foldl_cons, ih]
    by_cases hrs : ∃ other ∈ rest, other.id = id
    · obtain ⟨other, hoth, hid⟩ := hrs
      rw [if_pos ⟨other, hoth, hid⟩, if_pos ⟨other, List.mem_cons_of_mem _ hoth, hid⟩]
    · rw [if_neg hrs, Binding.boundsOf, Run.get?_bindParameter]
      by_cases hid : parameter.id = id
      · rw [if_pos hid, if_pos ⟨parameter, List.mem_cons_self, hid⟩]
        rfl
      · rw [if_neg hid, if_neg]
        · rfl
        · rintro ⟨other, hoth, heq⟩
          rcases List.mem_cons.mp hoth with rfl | hoth
          · exact hid heq
          · exact hrs ⟨other, hoth, heq⟩

theorem convertibleCalls_close (plan : Plan) (lattice : Lattice) (run : Run) :
    (plan.close lattice run).binding.convertibleCalls = run.binding.convertibleCalls :=
  close_keeps (fun r => r.binding.convertibleCalls = run.binding.convertibleCalls) (fun _ _ _ hr => hr) rfl

theorem capped_close (plan : Plan) (lattice : Lattice) (run : Run) : (plan.close lattice run).capped = run.capped :=
  close_keeps (fun r => r.capped = run.capped) (fun _ _ _ hr => hr) rfl

theorem Blank.close (hrg : plan.Regular) (h : plan.Blank run) (lattice : Lattice) :
    plan.Blank (plan.close lattice run) :=
  close_keeps plan.Blank
    (fun parameter hpar _ hr => hr.bindParameter (fun rule hrl => (hrg.parameters parameter hpar rule hrl).1) _ _) h

theorem ready_close (hrg : plan.Regular) (hlat : lattice.KeepsTypes) (hblank : plan.Blank run)
    (hrcd : run.Recorded lattice plan.rules) : plan.Ready lattice tolerant (plan.close lattice run) := by
  intro _ run' hpass
  -- An argument that is traced back to a parameter is no longer open: the parameter's copy would change.
  have hcld : ∀ {id call}, (id, Rule.call call) ∈ plan.rules → ∀ operand ∈ call.operands, ∀ origin,
      operand.origin = some origin → ¬ ∃ parameter ∈ plan.openParameters run, parameter.id = origin.1 := by
    rintro id call hcl operand hopd origin horg ⟨parameter, hpar, hid⟩
    obtain ⟨copy, rule, hcopy, hcop⟩ := hrg.copies hcl operand hopd origin horg
    have hkp : plan.Keeps origin.1 := hrg.ordered.origins hcl operand hopd origin horg
    have hfe : run.isFixed origin.1 = false := hid ▸ (mem_openParameters.mp hpar).2
    refine changes_of_copied hlat hcopy hcop ?_ ?_ hpass
    · rw [boundsOf_close, if_neg]
      · exact hblank.copies hcopy hcop hkp hfe
      · rintro ⟨other, hoth, rfl⟩
        rw [(hrg.parameters other (mem_openParameters.mp hoth).1 rule hcopy).1] at hcop
        nomatch hcop
    · rw [boundsOf_close, if_pos ⟨parameter, hpar, hid⟩]
      exact hlat.mixed
  have hjd : ∀ {id call}, (id, Rule.call call) ∈ plan.rules → ∀ conversions,
      (plan.close lattice run).judgeWith lattice conversions call = run.judgeWith lattice conversions call := by
    intro id call hcl conversions
    refine Run.judgeWith_congr (fun operand hopd => ⟨?_, ?_⟩) conversions
    · unfold Run.untyped?
      cases horg : operand.origin with
      | none => rfl
      | some origin =>
        rw [Option.filter_some, Option.filter_some, Run.isFixed, boundsOf_close,
          if_neg (hcld hcl operand hopd origin horg), Run.isFixed]
    · rw [boundsOf_close, if_neg]
      rintro ⟨parameter, hpar, hid⟩
      exact hrg.operands hcl operand hopd parameter (mem_openParameters.mp hpar).1 hid
  refine ⟨fun hcl hcvg => ?_, fun hcl hexact => ?_⟩
  · rw [convertibleCalls_close]
    exact hrcd.converting hcl (hjd hcl 0 ▸ hcvg)
  · rw [convertibleCalls_close]
    exact hrcd.exact hcl (hjd hcl 1 ▸ hexact)

/-! ## Runs that come to their end -/

theorem Blank.settle (hrg : plan.Regular) (hlat : lattice.KeepsTypes) (h : plan.Blank run) (tolerant : Bool)
    (limit : Nat) : plan.Blank (plan.settle lattice limit tolerant run).run :=
  settle_keeps plan.Blank (fun hr => hr.passes hrg.ordered hlat tolerant limit) (fun hr => hr.close hrg lattice) h

theorem isFixpoint_passes (hrg : plan.Regular) (hrdy : plan.Ready lattice tolerant run)
    (h : run.passes lattice tolerant plan.rules limit = .finished run' changed) (hcap : run'.capped = false) :
    run'.IsFixpoint lattice tolerant plan.rules := by
  obtain ⟨last, hls, huncapped, hpass⟩ := Run.passes_uncapped (plan.Ready lattice tolerant)
    (fun _ hpass _ _ _ => Run.recorded_pass hrg.ordered hpass) hrdy h hcap
  exact Run.isFixpoint_of_unchanged hrg.ordered.nodup (hls huncapped run' hpass) hpass

theorem exists_last_pass (h : plan.settle lattice limit tolerant run = .finished run' changed)
    (hcap : run'.capped = false) : ∃ last : Run, last.pass lattice tolerant plan.rules = .finished run' false := by
  obtain ⟨start, _, hst⟩ := settle_cases plan lattice tolerant limit run (fun _ => True) trivial (fun _ => trivial)
  obtain ⟨last, _, _, hpass⟩ := Run.passes_uncapped (fun _ => True) (fun _ _ => trivial) trivial (hst.symm.trans h)
    hcap
  exact ⟨last, hpass⟩

/-- From a run that is ready, a run that is not capped when it comes to its end is a fixpoint. -/
theorem isFixpoint_settle (hrg : plan.Regular) (hlat : lattice.KeepsTypes) (hblank : plan.Blank run)
    (hrdy : plan.Ready lattice tolerant run) (h : plan.settle lattice limit tolerant run = .finished run' changed)
    (hcap : run'.capped = false) : run'.IsFixpoint lattice tolerant plan.rules := by
  obtain ⟨start, hst, hstl⟩ := settle_cases plan lattice tolerant limit run (plan.Ready lattice tolerant) hrdy
    fun {r changed} hr huncapped => by
      rw [capped_close] at huncapped
      obtain ⟨last, _, _, hpass⟩ := Run.passes_uncapped (fun _ => True) (fun _ _ => trivial) trivial hr huncapped
      have hps := hblank.passes hrg.ordered hlat tolerant limit
      rw [hr] at hps
      exact ready_close hrg hlat hps (Run.recorded_pass hrg.ordered hpass)
        (by rw [capped_close]; exact huncapped)
  exact isFixpoint_passes hrg hst (hstl.symm.trans h) hcap

theorem Starts.ready (hrg : plan.Regular) (hlat : lattice.KeepsTypes)
    (h : plan.Starts lattice limits tolerant run) : plan.Blank run ∧ plan.Ready lattice tolerant run := by
  induction h with
  | start =>
    exact ⟨blank_start fun parameter hpar rule hrl => (hrg.parameters parameter hpar rule hrl).1,
      ready_start hrg⟩
  | @branch tolerant _ _ _ _ _ hstl hcan ih =>
    have hblank := ih.1.settle hrg hlat tolerant limits.passes
    rw [hstl] at hblank
    have hforks := settle_eq_forked hstl
    obtain ⟨id, call, hcl, ⟨operand, hopd, horg⟩, _⟩ := hforks.call
    refine ⟨hblank.bindParameter (fun rule hrl => ?_) _ _, ready_branch hrg hlat hblank hforks hcan⟩
    rw [hrg.ordered.origins hcl operand hopd _ horg rule hrl]
    rfl
  | retry _ hstl hfailures ih =>
    have hblank := ih.1.settle hrg hlat false limits.passes
    rw [hstl] at hblank
    refine ⟨hblank, fun hcap => ?_⟩
    obtain ⟨last, hls⟩ := exists_last_pass hstl hcap
    exact ready_retry hrg hlat hls hfailures hcap

end Plan

end SoftTyping
