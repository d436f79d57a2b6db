import SoftTyping.Proofs.Lattice.Join
import SoftTyping.Proofs.Solver.Shaped

/-!
# Types that are copied

In a body without calls whose parameters are declared, types come from the variables to which they are given, along the joins
and copies of others, perhaps in circles. Main statement: when a run has come to its end within the limit on passes, a variable
has the normal form of all types that are given to variables it takes its type from (`lower_supplied`). Nothing else comes to it
at any moment (`invariant_supplied`), and the last pass, which changes nothing, shows that nothing is lost
(`covers_of_takes`): a type that normalising has dropped on the way promotes to one that it has kept.
-/

namespace SoftTyping

namespace Lattice

variable {lattice : Lattice} {u v : Union} {a : SymbolId} {entry : String × SymbolId}

/-- Different types have different names. -/
def DistinctNames (lattice : Lattice) : Prop :=
  ∀ entry ∈ lattice.entries, ∀ other ∈ lattice.entries, entry.name = other.name → entry.id = other.id

instance (lattice : Lattice) : Decidable lattice.DistinctNames :=
  inferInstanceAs (Decidable (∀ entry ∈ lattice.entries, ∀ other ∈ lattice.entries, entry.name = other.name →
    entry.id = other.id))

theorem mem_unionOf : entry ∈ (lattice.unionOf a).members.entries ↔ entry.2 = a ∧ lattice.nameOf? a = some entry.1 := by
  unfold unionOf
  cases hnm : lattice.nameOf? a with
  | none => exact ⟨nofun, nofun⟩
  | some name =>
    refine List.mem_singleton.trans (Prod.ext_iff.trans ?_)
    rw [and_comm, Option.some_inj, eq_comm (a := entry.1)]

theorem keys_unionOf (lattice : Lattice) (a : SymbolId) : lattice.Keys (lattice.unionOf a) := fun _ he => by
  obtain ⟨rfl, hnm⟩ := mem_unionOf.mp he
  exact hnm

theorem keys_empty (lattice : Lattice) : lattice.Keys ∅ := nofun

theorem IsNormal.mem_normalize (h : lattice.IsNormal u) :
    entry ∈ (lattice.normalize u).members.entries ↔ entry ∈ u.members.entries := by
  refine List.mem_filter.trans (and_iff_left_of_imp fun he => ?_)
  rw [Bool.not_eq_true', List.any_eq_false]
  exact fun b hb => Bool.eq_false_iff.mp (h entry.2 (List.mem_map_of_mem he) b hb)

section

variable (hdis : lattice.DistinctNames)

include hdis

theorem Keys.agrees (hu : lattice.Keys u) (hv : lattice.Keys v) : u.Agrees v := by
  intro name a b ha hb
  obtain ⟨entry, he, hnm⟩ := Option.map_eq_some_iff.mp (hu _ ha)
  obtain ⟨other, hoth, hnm'⟩ := Option.map_eq_some_iff.mp (hv _ hb)
  have hid : entry.id = a := by simpa using List.find?_some he
  have hid' : other.id = b := by simpa using List.find?_some hoth
  rw [← hid, ← hid']
  exact hdis entry (List.mem_of_find?_eq_some he) other (List.mem_of_find?_eq_some hoth) (hnm.trans hnm'.symm)

theorem mem_foldl_extend {unions : List Union} (hunions : ∀ v ∈ unions, lattice.Keys v) (hu : lattice.Keys u) :
    entry ∈ (unions.foldl Union.extend u).members.entries ↔
      entry ∈ u.members.entries ∨ ∃ v ∈ unions, entry ∈ v.members.entries := by
  induction unions generalizing u with
  | nil => exact ⟨.inl, fun h => h.resolve_right fun ⟨_, hv, _⟩ => List.not_mem_nil hv⟩
  | cons first rest ih =>
    have hfst := hunions first List.mem_cons_self
    have hextend : lattice.Keys (u.extend first) := fun entry he =>
      (Union.mem_or_mem_of_mem_extend he).elim (hu entry) (hfst entry)
    rw [List.foldl_cons, ih (fun v hv => hunions v (List.mem_cons_of_mem _ hv)) hextend,
      Union.mem_extend (hu.agrees hdis hfst)]
    simp only [List.mem_cons, exists_eq_or_imp, or_assoc]

theorem mem_unionOfAll {types : List SymbolId} :
    entry ∈ (lattice.unionOfAll types).members.entries ↔ entry.2 ∈ types ∧ lattice.nameOf? entry.2 = some entry.1 := by
  have hks : ∀ v ∈ types.map lattice.unionOf, lattice.Keys v := by
    intro v hv
    obtain ⟨a, _, rfl⟩ := List.mem_map.mp hv
    exact keys_unionOf lattice a
  rw [unionOfAll, mem_foldl_extend hdis hks (keys_empty lattice)]
  simp only [List.mem_map, exists_exists_and_eq_and, mem_unionOf]
  constructor
  · rintro (he | ⟨a, ha, rfl, hnm⟩)
    · nomatch he
    · exact ⟨ha, hnm⟩
  · exact fun ⟨hmem, hnm⟩ => .inr ⟨entry.2, hmem, rfl, hnm⟩

end

end Lattice

/-- The type variables of a body: those that it evaluates, and its parameters. -/
def Body.Holds (body : Body) (id : TypeVarId) : Prop := id ∈ body.typeVars ∨ id ∈ body.parameters

namespace Flow

variable {flow : Flow} {body : Body} {id source : TypeVarId} {type : SymbolId}

/-- A type variable whose type is not given takes that of another one in its body. -/
def Takes (flow : Flow) (body : Body) (id source : TypeVarId) : Prop :=
  body.Holds source ∧ ∃ var, flow.typeVar? id = some var ∧ var.fixed = none ∧ var.parameterIndex = none ∧
    source ∈ var.constraint.sources

/-- A type is given to a type variable or to one from which it takes its type, perhaps through others. -/
def Supplies (flow : Flow) (body : Body) (id : TypeVarId) (type : SymbolId) : Prop :=
  ∃ source var, Relation.ReflTransGen (flow.Takes body) id source ∧ flow.typeVar? source = some var ∧ var.fixed = some type

/-- A body has no calls, and its parameters are declared. -/
structure CopiesOnly (flow : Flow) (body : Body) : Prop where
  calls : ∀ id ∈ body.typeVars, ∀ var, flow.typeVar? id = some var → var.constraint.isCall = false
  declared : ∀ id ∈ body.parameters, ∀ var, flow.typeVar? id = some var → var.fixed.isSome = true

theorem Takes.supplies (h : flow.Takes body id source) (hsupplies : flow.Supplies body source type) :
    flow.Supplies body id type := by
  obtain ⟨origin, var, hreach, hvar⟩ := hsupplies
  exact ⟨origin, var, .head h hreach, hvar⟩

theorem holds_of_takes (hid : body.Holds id) (h : Relation.ReflTransGen (flow.Takes body) id source) : body.Holds source := by
  cases h with
  | refl => exact hid
  | tail _ hls => exact hls.1

end Flow

/-- Bounds hold types by their names, none below another, and only those that are supplied. -/
structure Bounds.Supplied (context : SolveContext) (body : Body) (id : TypeVarId) (bounds : Bounds) : Prop where
  normal : context.lattice.IsNormal bounds.lower
  keys : context.lattice.Keys bounds.lower
  supplied : ∀ type ∈ bounds.lower.symbols, context.flow.Supplies body id type

/-- So are all bounds in a binding, which are those of the variables of the body. -/
def Binding.Supplied (context : SolveContext) (body : Body) (binding : Binding) : Prop :=
  ∀ ⦃id bounds⦄, binding.bounds.get? id = some bounds → body.Holds id ∧ bounds.Supplied context body id

namespace Binding.Supplied

variable {context : SolveContext} {body : Body} {binding : Binding} {id : TypeVarId}

theorem boundsOf (h : binding.Supplied context body) (id : TypeVarId) : (binding.boundsOf id).Supplied context body id := by
  unfold Binding.boundsOf
  cases hget : binding.bounds.get? id with
  | none => exact ⟨Lattice.isNormal_empty _, Lattice.keys_empty _, nofun⟩
  | some bounds => exact (h hget).2

theorem holds (h : binding.Supplied context body) {type : SymbolId} (htp : type ∈ (binding.boundsOf id).lower.symbols) :
    body.Holds id := by
  unfold Binding.boundsOf at htp
  cases hget : binding.bounds.get? id with
  | none =>
    rw [hget] at htp
    nomatch htp
  | some bounds => exact (h hget).1

end Binding.Supplied

namespace SolveContext

variable {context : SolveContext} {body : Body} {plan : Plan} {tolerant : Bool} {run : Run} {id source : TypeVarId}
  {rule : Rule} {type : SymbolId}

theorem supplied_unionOf {var : TypeVar} (hvar : context.flow.typeVar? id = some var)
    (hfx : var.fixed = some type) : (Bounds.ofGiven (context.lattice.unionOf type)).Supplied context body id := by
  refine ⟨Lattice.isNormal_unionOf _ type, Lattice.keys_unionOf _ type, fun other hoth => ?_⟩
  obtain ⟨name, hnm⟩ := Union.mem_symbols.mp hoth
  obtain ⟨rfl, _⟩ := Lattice.mem_unionOf.mp hnm
  exact ⟨id, var, .refl, hvar, hfx⟩

theorem lower_joinBounds (lattice : Lattice) (run : Run) (sources : List TypeVarId) :
    (run.joinBounds lattice sources).lower = lattice.normalize ((sources.map run.lower).foldl Union.extend ∅) := by
  unfold Run.joinBounds
  dsimp only
  rw [List.foldl_map, List.foldl_map]
  rfl

/-- What comes from a variable is supplied to those that take it. -/
theorem supplies_of_mem_lower (hrun : run.binding.Supplied context body) {var : TypeVar}
    (hvar : context.flow.typeVar? id = some var) (hfx : var.fixed = none) (hix : var.parameterIndex = none)
    (hsrc : source ∈ var.constraint.sources) (htp : type ∈ (run.lower source).symbols) :
    context.flow.Supplies body id type :=
  Flow.Takes.supplies ⟨hrun.holds htp, var, hvar, hfx, hix, hsrc⟩ ((hrun.boundsOf source).supplied type htp)

/-- What sources have together. -/
theorem mem_foldl_lower (hdis : context.lattice.DistinctNames) (hrun : run.binding.Supplied context body)
    {sources : List TypeVarId} {entry : String × SymbolId} :
    entry ∈ ((sources.map run.lower).foldl Union.extend ∅).members.entries ↔
      ∃ source ∈ sources, entry ∈ (run.lower source).members.entries := by
  have hks : ∀ u ∈ sources.map run.lower, context.lattice.Keys u := by
    intro u hu
    obtain ⟨source, _, rfl⟩ := List.mem_map.mp hu
    exact (hrun.boundsOf source).keys
  rw [Lattice.mem_foldl_extend hdis hks (Lattice.keys_empty _)]
  simp only [List.mem_map, exists_exists_and_eq_and]
  exact or_iff_right List.not_mem_nil

section

variable (hcops : context.flow.CopiesOnly body) (hpl : context.plan body = .ok plan)

include hcops hpl

theorem isCall_eq_false_of_mem_rules (hrl : (id, rule) ∈ plan.rules) (call : CallRule) : rule ≠ .call call := by
  rintro rfl
  obtain ⟨hid, hmade⟩ := mem_rules hpl hrl
  obtain ⟨var, _, _, _, hcl⟩ := rule_eq_call hmade
  have hcs := hcops.calls id (mem_typeVars_of_mem_evaluated hid) var hcl.found
  obtain ⟨_, hcon⟩ := hcl.constraint
  rw [hcon] at hcs
  nomatch hcs

theorem respectsDeclared_of_copiesOnly : plan.RespectsDeclared :=
  plan_respectsDeclared_of_forks hpl fun hcl => absurd rfl (isCall_eq_false_of_mem_rules hcops hpl hcl _)

theorem boundsOf_parameter (hrun : run.binding.Respects plan) (hid : id ∈ body.parameters) :
    ∃ var type, context.flow.typeVar? id = some var ∧ var.fixed = some type ∧
      run.binding.boundsOf id = .ofGiven (context.lattice.unionOf type) := by
  obtain ⟨_, _, hpars, _⟩ := plan_eq_ok hpl
  obtain ⟨parameter, hpar, hpld⟩ := Refusal.exists_right_of_forall₂ hpars hid
  obtain ⟨rfl, var, hvar, hdec⟩ := planParameter_eq_ok hpld
  obtain ⟨type, htp⟩ := Option.isSome_iff_exists.mp (hcops.declared _ hid var hvar)
  obtain ⟨_, hget⟩ := List.getElem?_of_mem hpar
  exact ⟨var, type, hvar, htp, (hrun hget (hdec.trans (by rw [htp]; rfl))).1⟩

variable (hdis : context.lattice.DistinctNames) {bounds : Bounds}

include hdis

theorem supplied_demandWith (hrun : run.binding.Supplied context body) (hrl : (id, rule) ∈ plan.rules) {conversions : Nat}
    (hbds : (run.demandWith context.lattice tolerant conversions rule).bounds = some bounds) :
    bounds.Supplied context body id := by
  obtain ⟨var, hvar, hmade⟩ := exists_isRule (mem_rules hpl hrl).2
  cases hmade with
  | given hfx =>
    cases hbds
    exact supplied_unionOf hvar hfx
  | kept => nomatch hbds
  | @join sources hfx hix hcon =>
    cases hbds
    have hes : ∀ entry ∈ (run.joinBounds context.lattice sources).lower.members.entries,
        ∃ source ∈ sources, entry ∈ (run.lower source).members.entries := by
      intro entry he
      rw [lower_joinBounds] at he
      exact (mem_foldl_lower hdis hrun).mp (Lattice.within_normalize _ entry he)
    refine ⟨Lattice.isNormal_normalize _ _, fun entry he => ?_, fun type htp => ?_⟩
    · obtain ⟨source, _, he⟩ := hes entry he
      exact (hrun.boundsOf source).keys entry he
    · obtain ⟨name, hnm⟩ := Union.mem_symbols.mp htp
      obtain ⟨source, hsrc, he⟩ := hes _ hnm
      exact supplies_of_mem_lower hrun hvar hfx hix (hcon ▸ hsrc)
        (Union.mem_symbols.mpr ⟨name, he⟩)
  | @copy source hfx hix hcon =>
    cases hbds
    obtain ⟨hnrm, hks, _⟩ := hrun.boundsOf source
    refine ⟨hnrm, hks, fun type htp => ?_⟩
    exact supplies_of_mem_lower hrun hvar hfx hix (by rw [hcon]; exact List.mem_singleton_self _) htp
  | call => exact absurd rfl (isCall_eq_false_of_mem_rules hcops hpl hrl _)

/-- At every moment of a run, what variables have is supplied to them. -/
theorem invariant_supplied : plan.Invariant context.lattice fun binding =>
    binding.Respects plan ∧ binding.Supplied context body := by
  have hrespects := (respectsDeclared_of_copiesOnly hcops hpl).invariant context.lattice
  refine ⟨⟨hrespects.start, fun id bounds hbds => ?_⟩, ?_, ?_, ?_⟩
  · obtain ⟨parameter, hpar, rfl, union, hun, rfl⟩ := Plan.get?_start hbds
    obtain ⟨_, hget⟩ := List.getElem?_of_mem hpar
    obtain ⟨hid, var, hvar, hdec⟩ := getElem?_parameters hpl hget
    obtain ⟨type, htp, rfl⟩ := Option.map_eq_some_iff.mp (hdec.symm.trans hun)
    exact ⟨.inr (List.mem_of_getElem? hid), supplied_unionOf hvar htp⟩
  · intro run id rule tolerant hrl hrun
    refine ⟨hrespects.apply tolerant hrl hrun.1, fun other bounds hbds => ?_⟩
    rcases Run.get?_apply hbds with hbds | ⟨rfl, hdemand⟩
    · exact hrun.2 hbds
    · exact ⟨.inl (mem_typeVars_of_mem_evaluated (mem_rules hpl hrl).1),
        supplied_demandWith hcops hpl hdis hrun.2 hrl hdemand⟩
  · intro run hrun
    have hop : plan.openParameters run = [] := by
      refine List.eq_nil_iff_forall_not_mem.mpr fun parameter hpar => ?_
      obtain ⟨hmem, hfe⟩ := Plan.mem_openParameters.mp hpar
      obtain ⟨_, hget⟩ := List.getElem?_of_mem hmem
      have hid := List.mem_of_getElem? (getElem?_parameters hpl hget).1
      obtain ⟨_, _, _, _, hbds⟩ := boundsOf_parameter hcops hpl hrun.1 hid
      rw [Run.isFixed, hbds] at hfe
      cases hfe
    rw [Plan.close, hop]
    exact hrun
  · rintro run fork candidate ⟨⟨id, call, hcl, _⟩, _, _⟩
    exact absurd rfl (isCall_eq_false_of_mem_rules hcops hpl hcl call)

variable (hlay : context.table.Layered) (hlat : context.lattice = .ofTable context.table)
  (hens : plan.Ends context.lattice context.limits tolerant run) (hcap : run.capped = false)

include hens hcap

theorem covers_of_rule (hid : id ∈ body.typeVars) (hrl : context.rule body id = .ok rule)
    (hbds : ∀ conversions, (run.demandWith context.lattice tolerant conversions rule).bounds = some bounds) :
    context.lattice.Covers (run.lower id) bounds.lower := by
  have hrun := ((invariant_supplied hcops hpl hdis).ends hens).2
  obtain ⟨start, changed, _, hstl⟩ := hens
  rw [← evaluated_eq_typeVars context _ (Plan.limit_ne_zero_of_settle hstl hcap)] at hid
  obtain ⟨rule', hmem, hrl'⟩ := exists_mem_rules hpl hid
  cases hrl.symm.trans hrl'
  -- The last pass of the run changes nothing.
  obtain ⟨last, hls⟩ := Plan.exists_last_pass hstl hcap
  obtain ⟨hsm, hasked⟩ := Run.bounds_of_unchanged hls
  obtain ⟨conversions, hasked⟩ := hasked id rule hmem
  have hdemand := hbds conversions
  rw [Run.demandWith_of_bounds_eq hsm] at hdemand
  have hmet := hasked bounds hdemand
  rw [← hsm] at hmet
  have hks := (supplied_demandWith hcops hpl hdis hrun hmem (hbds 0)).keys
  exact Lattice.covers_of_beq ((hrun.boundsOf id).keys.agrees hdis hks) (Run.lower_of_get? hmet)

include hlay hlat

/-- A variable covers those it takes its type from. -/
theorem covers_of_takes (h : context.flow.Takes body id source) (hid : body.Holds id) :
    context.lattice.Covers (run.lower id) (run.lower source) := by
  have hrun := ((invariant_supplied hcops hpl hdis).ends hens).2
  obtain ⟨_, var, hvar, hfx, hix, hsrc⟩ := h
  have hid : id ∈ body.typeVars := by
    refine hid.resolve_right fun hpar => ?_
    have hdec := hcops.declared id hpar var hvar
    rw [hfx] at hdec
    nomatch hdec
  have hrl := @rule_of_constraint context id body var hvar hfx hix
  cases hcon : var.constraint with
  | join sources =>
    rw [hcon] at hrl hsrc
    have hcov := covers_of_rule hcops hpl hdis hens hcap hid hrl fun _ => rfl
    rw [lower_joinBounds] at hcov
    have hjn : Lattice.Within (run.lower source) ((sources.map run.lower).foldl Union.extend ∅) :=
      fun entry he => (mem_foldl_lower hdis hrun).mpr ⟨source, hsrc, he⟩
    rw [hlat] at hcov ⊢
    exact hcov.trans ((Lattice.covers_normalize hlay _).trans (Lattice.covers_of_subset hjn))
  | copy other =>
    rw [hcon] at hrl hsrc
    obtain rfl := List.mem_singleton.mp hsrc
    have hcopy := covers_of_rule hcops hpl hdis hens hcap hid hrl fun _ => rfl
    exact hcopy
  | call callee arguments site =>
    rw [hcon] at hsrc
    nomatch hsrc

theorem exists_promotes_of_supplies (h : context.flow.Supplies body id type) (hid : body.Holds id)
    {name : String} (hnm : context.lattice.nameOf? type = some name) :
    ∃ other ∈ (run.lower id).symbols, context.lattice.Promotes type other := by
  obtain ⟨source, var, hreach, hvar, hfx⟩ := h
  have hcov : context.lattice.Covers (run.lower id) (run.lower source) := by
    clear hvar
    induction hreach with
    | refl => exact Lattice.covers_of_subset fun _ he => he
    | tail hreach hls ih =>
      have hstp := covers_of_takes hcops hpl hdis hlay hlat hens hcap hls
        (Flow.holds_of_takes hid hreach)
      rw [hlat] at ih hstp ⊢
      exact ih.trans hstp
  have hgiven : context.lattice.Covers (run.lower source) (context.lattice.unionOf type) := by
    rcases Flow.holds_of_takes hid hreach with hsrc | hsrc
    · exact covers_of_rule hcops hpl hdis hens hcap hsrc (rule_of_fixed hvar hfx) fun _ => rfl
    · have hrespects := ((invariant_supplied hcops hpl hdis).ends hens).1
      obtain ⟨var', type', hvar', hfx', hbds⟩ := boundsOf_parameter hcops hpl hrespects hsrc
      cases hvar.symm.trans hvar'
      cases hfx.symm.trans hfx'
      rw [Run.lower, hbds]
      exact Lattice.covers_of_subset fun _ he => he
  rw [hlat] at hcov hgiven hnm ⊢
  exact hcov.trans hgiven type (Union.mem_symbols.mpr ⟨name, Lattice.mem_unionOf.mpr ⟨rfl, hnm⟩⟩)

end

/-- In a body without calls whose parameters are declared, over a table that libraries and passes build and in which different
types have different names: when a run has come to its end within the limit on passes, the types of a variable are the normal
form of all types that are given to it or to the variables from which it takes its type. So no type is lost, in circles of
variables or because it is dropped on the way, and there is no other. -/
theorem lower_supplied {context : SolveContext} {body : Body} {plan : Plan} (hbuilt : context.table.Built)
    (hlattice : context.lattice = .ofTable context.table) (hdistinct : context.lattice.DistinctNames)
    (hcopies : context.flow.CopiesOnly body) (hplan : context.plan body = .ok plan) {run : Run}
    (hrun : run ∈ (plan.solve context.lattice context.limits).1) (hcapped : run.capped = false) {id : TypeVarId}
    (hid : body.Holds id) :
    ∃ types : List SymbolId, (∀ type, type ∈ types ↔ context.flow.Supplies body id type) ∧
      ((run.binding.boundsOf id).lower == context.lattice.normalize (context.lattice.unionOfAll types)) = true := by
  classical
  obtain ⟨tolerant, hends⟩ := Plan.ends_of_mem_solve hrun
  have hsupplied := ((invariant_supplied hcopies hplan hdistinct).ends hends).2.boundsOf id
  -- The types are those of the variables of the body that are reached.
  let reached := (body.typeVars ++ body.parameters).filter (Relation.ReflTransGen (context.flow.Takes body) id)
  let types := reached.filterMap fun source => (context.flow.typeVar? source).bind (·.fixed)
  have htypes : ∀ type, type ∈ types ↔ context.flow.Supplies body id type := by
    intro type
    simp only [types, reached, List.mem_filterMap, List.mem_filter, decide_eq_true_eq, List.mem_append,
      Option.bind_eq_some_iff]
    constructor
    · rintro ⟨source, ⟨_, hreach⟩, var, hvar, hfixed⟩
      exact ⟨source, var, hreach, hvar, hfixed⟩
    · rintro ⟨source, var, hreach, hvar, hfixed⟩
      exact ⟨source, ⟨Flow.holds_of_takes hid hreach, hreach⟩, var, hvar, hfixed⟩
  refine ⟨types, htypes, Union.beq_of_entries fun {entry} => ?_⟩
  have hwithin : Lattice.Within (run.lower id) (context.lattice.unionOfAll types) := fun entry hentry =>
    (Lattice.mem_unionOfAll hdistinct).mpr
      ⟨(htypes _).mpr (hsupplied.supplied _ (List.mem_map_of_mem hentry)), hsupplied.keys entry hentry⟩
  have hkeys : context.lattice.Keys (context.lattice.unionOfAll types) := fun entry hentry =>
    ((Lattice.mem_unionOfAll hdistinct).mp hentry).2
  have hcovers : context.lattice.Covers (run.lower id) (context.lattice.unionOfAll types) := by
    intro type htype
    obtain ⟨name, hentry⟩ := Union.mem_symbols.mp htype
    obtain ⟨hmem, hname⟩ := (Lattice.mem_unionOfAll hdistinct).mp hentry
    exact exists_promotes_of_supplies hcopies hplan hdistinct hbuilt.layered hlattice hends hcapped ((htypes type).mp hmem) hid
      hname
  have hnormal : entry ∈ (run.lower id).members.entries ↔ entry ∈ (context.lattice.normalize (run.lower id)).members.entries :=
    hsupplied.normal.mem_normalize.symm
  rw [hlattice] at hkeys hwithin hcovers hnormal ⊢
  exact hnormal.trans (Lattice.mem_normalize_of_covers hbuilt.layered hkeys hwithin hcovers)

/-! ## A circle of copies -/

/-- Two variables take their types from each other, one of them also from an integer; a third one joins them with a number, and
a fourth one that with a parameter. -/
def circleFlow : Flow :=
  let var (index : Nat) (constraint : Constraint) (given : Option String) : TypeVar :=
    { id := ⟨index⟩, name := "x", position := default, body := .global, constraint
      fixed := given.bind (Lattice.ofTable Lattice.typesTable).typeNamed? }
  { Flow.empty with typeVars := #[var 0 (.join []) "int", var 1 (.join []) "num", var 2 (.join [⟨0⟩, ⟨3⟩]) none,
      var 3 (.copy ⟨2⟩) none, var 4 (.join [⟨3⟩, ⟨1⟩]) none, { var 5 (.join []) "string" with parameterIndex := some 0 },
      var 6 (.join [⟨4⟩, ⟨5⟩]) none] }

/-- The variables are evaluated against the direction in which types come. -/
def circleBody : Body := { id := .global, typeVars := [⟨6⟩, ⟨4⟩, ⟨3⟩, ⟨2⟩, ⟨1⟩, ⟨0⟩], parameters := [⟨5⟩] }

def circleContext : SolveContext :=
  { table := Lattice.typesTable, flow := circleFlow, lattice := .ofTable Lattice.typesTable, limits := {}, registry := ∅ }

/-- The first variable of the circle has the integer, and the last of all a number or a string. -/
theorem lower_supplied_circle : ∃ plan run, circleContext.plan circleBody = .ok plan ∧
    run ∈ (plan.solve circleContext.lattice circleContext.limits).1 ∧ run.capped = false ∧
    (run.binding.boundsOf ⟨2⟩).lower.names = ["int"] ∧ (run.binding.boundsOf ⟨6⟩).lower.names = ["num", "string"] ∧
    ∃ types : List SymbolId, (∀ type, type ∈ types ↔ circleContext.flow.Supplies circleBody ⟨6⟩ type) ∧
      ((run.binding.boundsOf ⟨6⟩).lower == circleContext.lattice.normalize
        (circleContext.lattice.unionOfAll types)) = true := by
  have hcopies : circleContext.flow.CopiesOnly circleBody := by
    have hcalls : ∀ id ∈ circleBody.typeVars, ∀ var ∈ circleContext.flow.typeVar? id, var.constraint.isCall = false := by
      decide +kernel
    have hdeclared : ∀ id ∈ circleBody.parameters, ∀ var ∈ circleContext.flow.typeVar? id, var.fixed.isSome = true := by
      decide +kernel
    exact ⟨hcalls, hdeclared⟩
  have hbuilt : circleContext.table.Built := by
    dsimp only [circleContext]
    exact Lattice.built_typesTable
  have hlattice : circleContext.lattice = .ofTable circleContext.table := by dsimp only [circleContext]
  have hdistinct : circleContext.lattice.DistinctNames := by decide +kernel
  have hsolved : (circleContext.plan circleBody).toOption.any (fun plan =>
      (plan.solve circleContext.lattice circleContext.limits).1.any fun run => !run.capped &&
        (run.binding.boundsOf ⟨2⟩).lower.names = ["int"] && (run.binding.boundsOf ⟨6⟩).lower.names = ["num", "string"]) =
      true := by
    decide +kernel
  cases hplan : circleContext.plan circleBody with
  | error =>
    rw [hplan] at hsolved
    nomatch hsolved
  | ok plan =>
    rw [hplan] at hsolved
    obtain ⟨run, hrun, hnames⟩ := List.any_eq_true.mp hsolved
    simp only [Bool.and_eq_true, Bool.not_eq_true', decide_eq_true_eq] at hnames
    obtain ⟨⟨hcapped, hfirst⟩, hlast⟩ := hnames
    exact ⟨plan, run, rfl, hrun, hcapped, hfirst, hlast,
      lower_supplied hbuilt hlattice hdistinct hcopies hplan hrun hcapped (.inl List.mem_cons_self)⟩

end SolveContext

end SoftTyping
