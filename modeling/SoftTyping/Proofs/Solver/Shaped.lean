import SoftTyping.Proofs.Solver.Parameters
import SoftTyping.Proofs.Solver.Settled

/-!
# The shape of bounds

In every run of a body, at every moment, an upper bound is missing or the lower bound, no member of a lower bound lies below
another, and the bounds that are fixed are those of the variables whose type is given and of the parameters (`Shaped`). A call
may give a parameter a type of its callee, so this needs that functions take such types only (`TakesNormal`); the overloads
that are made of such runs do (`takesNormal_outcome`).
-/

namespace SoftTyping

namespace Lattice

variable {lattice : Lattice} {a : SymbolId}

/-- No member of a union lies below another. -/
def IsNormal (lattice : Lattice) (u : Union) : Prop := ∀ a ∈ u.symbols, ∀ b ∈ u.symbols, lattice.isBelow a b = false

theorem isNormal_empty (lattice : Lattice) : lattice.IsNormal ∅ := nofun

theorem isNormal_single (lattice : Lattice) (name : String) (a : SymbolId) : lattice.IsNormal (.single name a) := by
  intro b hb c hc
  obtain rfl := List.mem_singleton.mp hb
  obtain rfl := List.mem_singleton.mp hc
  rw [isBelow, bne_self_eq_false, Bool.false_and]

theorem isNormal_unionOf (lattice : Lattice) (a : SymbolId) : lattice.IsNormal (lattice.unionOf a) := by
  unfold unionOf
  split
  · exact isNormal_single lattice _ a
  · exact isNormal_empty lattice

theorem isNormal_mixedUnion (lattice : Lattice) : lattice.IsNormal lattice.mixedUnion := by
  unfold mixedUnion
  split <;> exact isNormal_unionOf lattice _

theorem isNormal_normalize (lattice : Lattice) (u : Union) : lattice.IsNormal (lattice.normalize u) := by
  intro a ha b hb
  obtain ⟨entry, he, rfl⟩ := List.mem_map.mp ha
  obtain ⟨other, hoth, rfl⟩ := List.mem_map.mp hb
  have hmaximal := (List.mem_filter.mp he).2
  rw [Bool.not_eq_true', List.any_eq_false] at hmaximal
  exact Bool.eq_false_iff.mpr (hmaximal other.2 (List.mem_map_of_mem (List.mem_filter.mp hoth).1))

theorem IsNormal.level_eq_zero {u : Union} (h : lattice.IsNormal u) {b : SymbolId} (ha : a ∈ u.symbols) (hb : b ∈ u.symbols)
    {level : Nat} (hlv : lattice.promotionLevel? a b = some level) : level = 0 := by
  by_cases heq : a = b
  · rw [promotionLevel?, if_pos heq] at hlv
    exact (Option.some.inj hlv).symm
  · have hbel := h a ha b hb
    rw [isBelow, hlv, Option.isSome_some, Bool.and_true, bne_eq_false_iff_eq] at hbel
    exact absurd hbel heq

end Lattice

/-- The upper bound is missing or the lower bound, which is normal. -/
structure Bounds.Shaped (lattice : Lattice) (bounds : Bounds) : Prop where
  upper : bounds.upper = ∅ ∨ bounds.upper = bounds.lower
  normal : lattice.IsNormal bounds.lower

/-- Each parameter of an overload takes a normal union. -/
def Overload.TakesNormal (lattice : Lattice) (overload : Overload) : Prop :=
  ∀ parameter ∈ overload.parameters, lattice.IsNormal parameter.bound

/-- All that is published takes normal unions. -/
def Registry.TakesNormal (lattice : Lattice) (registry : Registry) : Prop :=
  ∀ ⦃id known⦄, registry.get? id = some known → ∀ overload ∈ known.overloads, overload.TakesNormal lattice

/-- A type variable is a parameter, or its type is given. -/
def Flow.IsGiven (flow : Flow) (id : TypeVarId) : Prop :=
  ∃ var, flow.typeVar? id = some var ∧ (var.parameterIndex.isSome = true ∨ var.fixed.isSome = true)

/-- The bounds in a binding are shaped, and fixed for the variables that are given; declared parameters are bound. -/
structure Binding.Shaped (flow : Flow) (lattice : Lattice) (plan : Plan) (binding : Binding) : Prop where
  bounds : ∀ {id bounds}, binding.bounds.get? id = some bounds → bounds.Shaped lattice
  fixed : ∀ {id bounds}, binding.bounds.get? id = some bounds → (bounds.fixed = true ↔ flow.IsGiven id)
  declared : ∀ parameter ∈ plan.parameters, parameter.declared.isSome = true →
    (binding.bounds.get? parameter.id).isSome = true

namespace Binding.Shaped

variable {flow : Flow} {lattice : Lattice} {plan : Plan} {binding binding' : Binding} {id : TypeVarId}

theorem boundsOf (h : binding.Shaped flow lattice plan) (id : TypeVarId) : (binding.boundsOf id).Shaped lattice := by
  unfold Binding.boundsOf
  cases hget : binding.bounds.get? id with
  | none => exact ⟨.inl rfl, Lattice.isNormal_empty lattice⟩
  | some bounds => exact h.bounds hget

theorem of_bounds (h : binding.Shaped flow lattice plan) (hbds : binding'.bounds = binding.bounds) :
    binding'.Shaped flow lattice plan :=
  ⟨hbds ▸ h.bounds, hbds ▸ h.fixed, hbds ▸ h.declared⟩

theorem insert (h : binding.Shaped flow lattice plan) {bounds : Bounds} (hshd : bounds.Shaped lattice)
    (hfx : bounds.fixed = true ↔ flow.IsGiven id)
    (hget : ∀ other, binding'.bounds.get? other = if id = other then some bounds else binding.bounds.get? other) :
    binding'.Shaped flow lattice plan := by
  refine ⟨fun {other found} hf => ?_, fun {other found} hf => ?_, fun parameter hpar hdec => ?_⟩
  · rw [hget] at hf
    split at hf
    · cases hf
      exact hshd
    · exact h.bounds hf
  · rw [hget] at hf
    split at hf
    · next heq =>
      cases hf
      exact heq ▸ hfx
    · exact h.fixed hf
  · rw [hget]
    split
    · rfl
    · exact h.declared parameter hpar hdec

theorem set {run : Run} (h : run.binding.Shaped flow lattice plan) {bounds : Bounds} (hshd : bounds.Shaped lattice)
    (hfx : bounds.fixed = true ↔ flow.IsGiven id) : (run.set id bounds).1.binding.Shaped flow lattice plan := by
  unfold Run.set
  split
  · exact h
  · exact h.insert hshd hfx fun other => OrderedMap.get?_insert _ _ _ _

theorem bindParameter {run : Run} (h : run.binding.Shaped flow lattice plan) {index : Nat} {parameter : ParameterType}
    (hnrm : lattice.IsNormal parameter.bound) (hgiven : flow.IsGiven id) :
    (run.bindParameter id index parameter).binding.Shaped flow lattice plan := by
  have hshd : (Bounds.ofGiven parameter.bound).Shaped lattice := ⟨.inr rfl, hnrm⟩
  exact h.insert hshd ⟨fun _ => hgiven, fun _ => rfl⟩ fun other => Run.get?_bindParameter run id other index parameter

end Binding.Shaped

namespace Run

variable {lattice : Lattice} {tolerant : Bool} {run : Run} {rule : Rule}

theorem get?_apply {id other : TypeVarId} {bounds : Bounds}
    (h : (run.apply lattice tolerant id rule).run.binding.bounds.get? other = some bounds) :
    run.binding.bounds.get? other = some bounds ∨
      other = id ∧ (run.demand lattice tolerant rule).bounds = some bounds := by
  rw [apply_eq] at h
  cases hfk : run.fork? lattice rule with
  | some fork =>
    rw [hfk] at h
    exact .inl h
  | none =>
    rw [hfk] at h
    change (run.meet id rule _).1.binding.bounds.get? other = some bounds at h
    have hnote := bounds_record run id (run.demand lattice tolerant rule)
    unfold meet at h
    cases hbds : (run.demand lattice tolerant rule).bounds with
    | none =>
      rw [hbds] at h
      exact .inl (hnote ▸ h)
    | some demanded =>
      rw [hbds, Option.elim_some] at h
      unfold set at h
      split at h
      · exact .inl (hnote ▸ h)
      · rw [OrderedMap.get?_insert] at h
        split at h
        · next heq => exact .inr ⟨heq.symm, h⟩
        · exact .inl (hnote ▸ h)

theorem shaped_joinBounds (h : ∀ id, (run.binding.boundsOf id).Shaped lattice) (sources : List TypeVarId) :
    (run.joinBounds lattice sources).Shaped lattice := by
  refine ⟨?_, Lattice.isNormal_normalize lattice _⟩
  unfold joinBounds
  dsimp only
  split
  · exact .inl rfl
  · next hupper =>
    right
    congr 1
    have hall : ∀ bounds ∈ sources.map run.binding.boundsOf, bounds.upper = bounds.lower := by
      intro bounds hbds
      obtain ⟨id, _, rfl⟩ := List.mem_map.mp hbds
      refine (h id).upper.resolve_left fun hem => hupper ?_
      refine Bool.or_eq_true_iff.mpr (.inr (List.any_eq_true.mpr ⟨_, hbds, ?_⟩))
      rw [hem]
      rfl
    generalize sources.map run.binding.boundsOf = bounds at hall ⊢
    generalize (∅ : Union) = union
    induction bounds generalizing union with
    | nil => rfl
    | cons first rest ih =>
      rw [List.foldl_cons, List.foldl_cons, hall first List.mem_cons_self]
      exact ih (fun bounds hbds => hall bounds (List.mem_cons_of_mem _ hbds)) _

/-- What a rule asks for is shaped, and fixed if it is given. -/
theorem shaped_demandWith (h : ∀ id, (run.binding.boundsOf id).Shaped lattice)
    (hgiven : ∀ union, rule = .given union → lattice.IsNormal union) {conversions : Nat} {bounds : Bounds}
    (hbds : (run.demandWith lattice tolerant conversions rule).bounds = some bounds) :
    bounds.Shaped lattice ∧ (bounds.fixed = true ↔ ∃ union, rule = .given union) := by
  have herr : lattice.IsNormal lattice.erroneousUnion := Lattice.isNormal_unionOf lattice _
  cases rule with
  | given union =>
    cases hbds
    exact ⟨⟨.inr rfl, hgiven union rfl⟩, fun _ => ⟨union, rfl⟩, fun _ => rfl⟩
  | kept => cases hbds
  | join sources =>
    cases hbds
    exact ⟨shaped_joinBounds h sources, by rintro ⟨⟩, by simp⟩
  | copy source =>
    cases hbds
    exact ⟨⟨(h source).upper, (h source).normal⟩, by rintro ⟨⟩, by simp⟩
  | call call =>
    rw [Run.demandWith] at hbds
    cases hjd : run.judgeWith lattice conversions call with
    | chosen result converting =>
      rw [hjd] at hbds
      cases hbds
      refine ⟨⟨.inr rfl, ?_⟩, by rintro ⟨⟩, by simp⟩
      rcases judgeWith_cases lattice run call with ⟨judgement, hsm, hno⟩ | hcho
      · exact absurd ((hsm conversions).symm.trans hjd) (hno result converting)
      · obtain ⟨candidate, _, hcan⟩ := hcho conversions
        obtain ⟨rfl, _⟩ := Judgement.chosen.inj (hjd.symm.trans hcan)
        exact Lattice.isNormal_normalize lattice _
    | erroneous =>
      rw [hjd] at hbds
      cases hbds
      exact ⟨⟨.inr rfl, herr⟩, by rintro ⟨⟩, by simp⟩
    | undecided =>
      rw [hjd] at hbds
      cases hbds
      exact ⟨⟨.inl rfl, Lattice.isNormal_empty lattice⟩, by simp, by simp⟩
    | refused arguments =>
      rw [hjd] at hbds
      cases hbds
      split
      · exact ⟨⟨.inr rfl, herr⟩, by rintro ⟨⟩, by simp⟩
      · exact ⟨⟨.inl rfl, Lattice.isNormal_empty lattice⟩, by simp, by simp⟩
    | fork fork =>
      rw [hjd] at hbds
      cases hbds

end Run

namespace SolveContext

variable {context : SolveContext} {body : BodyId} {plan : Plan} {id : TypeVarId} {rule : Rule} {outcome : Outcome}

theorem isGiven_of_rule {entry : Body} (h : context.rule entry id = .ok rule) (hkt : rule ≠ .kept) :
    ((∃ union, rule = .given union) ↔ context.flow.IsGiven id) ∧ ∀ union, rule = .given union →
      context.lattice.IsNormal union := by
  obtain ⟨var, hvar, hrl⟩ := exists_isRule h
  have hgiven : context.flow.IsGiven id ↔ var.parameterIndex.isSome = true ∨ var.fixed.isSome = true :=
    ⟨fun ⟨_, hf, h⟩ => Option.some.inj (hvar.symm.trans hf) ▸ h, fun h => ⟨var, hvar, h⟩⟩
  rw [hgiven]
  cases hrl with
  | given hfx =>
    refine ⟨⟨fun _ => .inr (by rw [hfx]; rfl), fun _ => ⟨_, rfl⟩⟩, fun union hun => ?_⟩
    cases hun
    exact Lattice.isNormal_unionOf context.lattice _
  | kept => exact absurd rfl hkt
  | join hfx hix | copy hfx hix =>
    rw [hfx, hix]
    exact ⟨⟨nofun, nofun⟩, nofun⟩
  | call hcl =>
    rw [hcl.notGiven, hcl.notParameter]
    exact ⟨⟨nofun, nofun⟩, nofun⟩

section

variable (hsd : context.table.Sound) (hreg : context.registry.TakesNormal context.lattice)

include hsd hreg

theorem takesNormal_published {callee : SymbolId} {symbol : Symbol} {data : MethodData}
    (hce : context.callee callee = .ok (symbol, data)) :
    ∀ overload ∈ (context.published callee data).overloads, overload.TakesNormal context.lattice := by
  refine forall_published hsd hce (fun overload hadm parameter hpar => ?_) fun hkn => hreg hkn
  obtain ⟨name, type, hbo⟩ := (hadm.bounds parameter hpar).1
  rw [hbo]
  exact Lattice.isNormal_single context.lattice name type

variable (hgd : context.flow.Generated context.table) (hpl : context.plan (context.flow.body body) = .ok plan)

include hgd hpl

theorem invariant_shaped : plan.Invariant context.lattice (Binding.Shaped context.flow context.lattice plan) where
  start := by
    have hgiven : ∀ {id bounds}, plan.start.binding.bounds.get? id = some bounds →
        bounds.Shaped context.lattice ∧ (bounds.fixed = true ↔ context.flow.IsGiven id) := by
      intro id bounds hbds
      obtain ⟨parameter, hpar, rfl, union, hun, rfl⟩ := Plan.get?_start hbds
      obtain ⟨_, hget⟩ := List.getElem?_of_mem hpar
      obtain ⟨_, var, hvar, hdec⟩ := getElem?_parameters hpl hget
      obtain ⟨type, htp, rfl⟩ := Option.map_eq_some_iff.mp (hdec.symm.trans hun)
      exact ⟨⟨.inr rfl, Lattice.isNormal_unionOf _ type⟩, fun _ => ⟨var, hvar, .inr (by rw [htp]; rfl)⟩, fun _ => rfl⟩
    refine ⟨fun h => (hgiven h).1, fun h => (hgiven h).2, fun parameter hpar hdec => ?_⟩
    obtain ⟨union, hun⟩ := Option.isSome_iff_exists.mp hdec
    exact Plan.isSome_get?_start hpar hun
  apply := by
    intro run id rule tolerant hrl hrun
    have hmade := (mem_rules hpl hrl).2
    rw [Run.apply_eq]
    cases run.fork? context.lattice rule with
    | some fork => exact hrun.of_bounds rfl
    | none =>
      change (run.meet id rule _).1.binding.Shaped context.flow context.lattice plan
      have hnote := hrun.of_bounds (Run.bounds_record run id (run.demand context.lattice tolerant rule))
      unfold Run.meet
      cases hbds : (run.demand context.lattice tolerant rule).bounds with
      | none => exact hnote
      | some bounds =>
        have hkt : rule ≠ .kept := by
          rintro rfl
          nomatch hbds
        obtain ⟨hgiven, hnrm⟩ := isGiven_of_rule hmade hkt
        obtain ⟨hshd, hfx⟩ := Run.shaped_demandWith hrun.boundsOf hnrm hbds
        exact Binding.Shaped.set hnote hshd (hfx.trans hgiven)
  close := by
    intro run hrun
    refine Plan.close_keeps (fun r => r.binding.Shaped context.flow context.lattice plan) (fun parameter hpar _ hr => ?_) hrun
    obtain ⟨var, hvar, _, hix⟩ := isParameter_of_mem_parameters hgd hpl hpar
    exact hr.bindParameter (Lattice.isNormal_mixedUnion _) ⟨var, hvar, .inl hix⟩
  fork := by
    intro run fork candidate hfk hcan hrun
    obtain ⟨⟨id, call, hcl, ⟨operand, hopd, horg⟩, hovs⟩, _, _⟩ := hfk
    obtain ⟨overload, hov, hpar⟩ := hovs candidate hcan
    obtain ⟨_, callee, _, data, hrl⟩ := rule_eq_call (mem_rules hpl hcl).2
    obtain ⟨symbol, hce⟩ := hrl.resolved
    obtain ⟨_, _, htrace⟩ := knowsValue_of_operand hgd hpl hcl hopd
    rw [horg] at htrace
    obtain ⟨var, hvar, hix, _⟩ := Flow.trace_eq_some htrace
    refine hrun.bindParameter ?_ ⟨var, hvar, .inl (by rw [hix]; rfl)⟩
    exact takesNormal_published hsd hreg hce overload (hrl.overloads ▸ hov) candidate hpar

theorem exists_fixed_of_ends {tolerant : Bool} {run : Run} (hens : plan.Ends context.lattice context.limits tolerant run)
    (hid : id ∈ (context.flow.body body).parameters) :
    ∃ bounds, run.binding.bounds.get? id = some bounds ∧ bounds.fixed = true := by
  have hshd := (invariant_shaped hsd hreg hgd hpl).ends hens
  obtain ⟨_, _, hpars, _⟩ := plan_eq_ok hpl
  obtain ⟨parameter, hpar, hpld⟩ := Refusal.exists_right_of_forall₂ hpars hid
  obtain ⟨rfl, var, hvar, hdec⟩ := planParameter_eq_ok hpld
  obtain ⟨_, hf, _, hix⟩ := isParameter_of_mem_parameters hgd hpl hpar
  cases hvar.symm.trans hf
  have hbo : (run.binding.bounds.get? parameter.id).isSome = true := by
    cases hfx : var.fixed with
    | some type => exact hshd.declared parameter hpar (by rw [hdec, hfx]; rfl)
    | none =>
      obtain ⟨index, hix⟩ := Option.isSome_iff_exists.mp hix
      obtain ⟨start, changed, _, hstl⟩ := hens
      have hty := Plan.isFixed_of_settle hstl hpar fun rule hrl =>
        rule_of_parameter hvar hix hfx (mem_rules hpl hrl).2
      unfold Run.isFixed Binding.boundsOf at hty
      cases hget : run.binding.bounds.get? parameter.id with
      | none =>
        rw [hget] at hty
        nomatch hty
      | some => rfl
  obtain ⟨bounds, hbds⟩ := Option.isSome_iff_exists.mp hbo
  exact ⟨bounds, hbds, (hshd.fixed hbds).mpr ⟨var, hvar, .inl hix⟩⟩

omit hpl in
/-- The overloads of an outcome take normal unions. -/
theorem takesNormal_outcome (h : context.outcome (context.flow.body body) = .ok outcome) {overload : Overload}
    (hov : overload ∈ outcome.overloads ∨ overload ∈ outcome.finalOverloads) :
    overload.TakesNormal context.lattice := by
  obtain ⟨plan, hpld⟩ := outcome_eq_ok h
  obtain ⟨function, modifiers, run, hrun, rfl⟩ := exists_run_of_mem_overloads h hpld.planned hov
  obtain ⟨tolerant, hens⟩ := Plan.ends_of_mem_solve hrun
  have hshd := (invariant_shaped hsd hreg hgd hpld.planned).ends hens
  intro parameter hpar
  obtain ⟨⟨planned, _⟩, _, rfl⟩ := List.mem_map.mp hpar
  dsimp only
  unfold Plan.knownOrMixed
  split
  · exact Lattice.isNormal_mixedUnion _
  · exact (hshd.boundsOf planned.id).normal

end

end SolveContext

end SoftTyping
