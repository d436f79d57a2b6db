import Mathlib.Logic.Relation
import SoftTyping.Proofs.Solver.Calls

/-!
# Arguments that copy a parameter

An argument that merely copies another variable is followed back, copy by copy, to the first parameter. Main statement: as many
steps as the body has variables are enough to come to it, and a circle of copies comes to none (`openParameter_exact`).
-/

namespace SoftTyping

open Relation

namespace Flow

variable {flow : Flow} {id source origin other : TypeVarId} {var : TypeVar} {index : Nat}

/-- A variable that is no parameter merely copies another. -/
def Copies (flow : Flow) (id source : TypeVarId) : Prop :=
  ∃ var, flow.typeVar? id = some var ∧ var.parameterIndex = none ∧ copied? var = some source

/-- A variable comes from another by copies. -/
abbrev CopiesFrom (flow : Flow) : TypeVarId → TypeVarId → Prop := Relation.ReflTransGen flow.Copies

/-- The variables from which a variable comes by copies belong to a body. -/
def StaysIn (flow : Flow) (body : Body) (id : TypeVarId) : Prop :=
  ∀ other, flow.CopiesFrom id other → other ∈ body.typeVars ∧ ∃ var, flow.typeVar? other = some var

theorem Copies.unique (h : flow.Copies id source) (h' : flow.Copies id other) : source = other := by
  obtain ⟨var, hvar, _, hsrc⟩ := h
  obtain ⟨var', hvar', _, hoth⟩ := h'
  cases hvar.symm.trans hvar'
  exact Option.some.inj (hsrc.symm.trans hoth)

theorem not_copies (hvar : flow.typeVar? origin = some var) (hix : var.parameterIndex = some index) :
    ¬ flow.Copies origin source := by
  rintro ⟨var', hvar', hno, _⟩
  cases hvar.symm.trans hvar'
  cases hix.symm.trans hno

section Ended

variable (hvar : flow.typeVar? origin = some var) (hix : var.parameterIndex = some index)
  (horg : flow.CopiesFrom id origin)

include hvar hix horg

theorem copiesFrom_of_copiesFrom (hoth : flow.CopiesFrom id other) : flow.CopiesFrom other origin := by
  induction hoth with
  | refl => exact horg
  | tail _ hcop ih =>
    rcases ih.cases_head with rfl | ⟨next, hnx, hrs⟩
    · exact absurd hcop (not_copies hvar hix)
    · rwa [hcop.unique hnx]

theorem eq_of_parameters {var' : TypeVar} {index' : Nat} (hoth : flow.CopiesFrom id other)
    (hvar' : flow.typeVar? other = some var') (hix' : var'.parameterIndex = some index') : other = origin := by
  rcases (copiesFrom_of_copiesFrom hvar hix horg hoth).cases_head with heq | ⟨_, hcop, _⟩
  · exact heq
  · exact absurd hcop (not_copies hvar' hix')

theorem not_circular : ¬ TransGen flow.Copies id id := by
  induction horg using ReflTransGen.head_induction_on with
  | refl =>
    intro h
    obtain ⟨_, hcop, _⟩ := TransGen.head'_iff.mp h
    exact not_copies hvar hix hcop
  | head hcop _ ih =>
    intro h
    obtain ⟨next, hnx, hback⟩ := TransGen.head'_iff.mp h
    obtain rfl := hcop.unique hnx
    exact ih (TransGen.tail' hback hcop)

theorem trace_of_parameter {vars : List TypeVarId} (hvars : ∀ other, flow.CopiesFrom id other → other ∈ vars) {steps : Nat}
    (hsteps : vars.length ≤ steps) :
    flow.trace steps id = .ok (if var.fixed.isSome then none else some (origin, index)) := by
  induction steps generalizing id vars with
  | zero =>
    have hmem := hvars id .refl
    rw [List.length_eq_zero_iff.mp (Nat.le_zero.mp hsteps)] at hmem
    nomatch hmem
  | succ steps ih =>
    have hback := not_circular hvar hix horg
    rcases horg.cases_head with rfl | ⟨next, hnx, hrs⟩
    · rw [trace, find_eq_ok.mpr hvar]
      simp [hix, bind, Except.bind]
    · have ⟨first, hfst, hno, hcop⟩ := hnx
      rw [trace, find_eq_ok.mpr hfst]
      simp only [bind, Except.bind, hno, hcop]
      refine @ih next hrs (vars.filter (· ≠ id)) (fun other hoth => ?_) ?_
      · refine List.mem_filter.mpr ⟨hvars other (hoth.head hnx), decide_eq_true ?_⟩
        rintro rfl
        exact hback (TransGen.head' hnx hoth)
      · have hlt : (vars.filter (· ≠ id)).length < vars.length :=
          List.length_filter_lt_length_iff_exists.mpr ⟨id, hvars id .refl, by simp⟩
        omega

end Ended

theorem trace_of_no_parameter (hknown : ∀ other, flow.CopiesFrom id other → ∃ var, flow.typeVar? other = some var)
    (hno : ∀ other var, flow.CopiesFrom id other → flow.typeVar? other = some var → var.parameterIndex = none)
    (steps : Nat) : flow.trace steps id = .ok none := by
  induction steps generalizing id with
  | zero => rfl
  | succ steps ih =>
    obtain ⟨var, hvar⟩ := hknown id .refl
    have hix := hno id var .refl hvar
    rw [trace, find_eq_ok.mpr hvar]
    simp only [bind, Except.bind, hix]
    split
    · next source hcop =>
      have hstp : flow.Copies id source := ⟨var, hvar, hix, hcop⟩
      exact ih (fun other hoth => hknown other (hoth.head hstp)) fun other var hoth => hno other var (hoth.head hstp)
    · rfl

end Flow

namespace SolveContext

/-- The parameter without a type that an argument copies in a run. -/
def openParameter (context : SolveContext) (body : Body) (run : Run) (id : TypeVarId) :
    Except Fault (Option (TypeVarId × Nat)) := do
  .ok (run.untyped? { id, origin := ← context.flow.trace (traceBound body) id })

/-- The arguments of a call are judged by the parameter that they copy. -/
theorem openParameter_operand {context : SolveContext} {body : Body} {id : TypeVarId} {call : CallRule}
    (h : context.rule body id = .ok (.call call)) (run : Run) {operand : Operand} (hopd : operand ∈ call.operands) :
    context.openParameter body run operand.id = .ok (run.untyped? operand) := by
  obtain ⟨_, _, _, _, hcl⟩ := rule_eq_call h
  obtain ⟨_, _, rfl, horg⟩ := Refusal.exists_left_of_forall₂ hcl.operands hopd
  rw [openParameter, horg]
  rfl

/-- A call is judged by the parameters that its arguments copy. For an argument whose copies stay in the body this is the first
parameter to which they come, if it has neither a declared type nor one in the run; more steps find nothing else, and copies
that lead back to where they have been find nothing. -/
theorem openParameter_exact (context : SolveContext) (body : Body) (run : Run) :
    (∀ id call, context.rule body id = .ok (.call call) → ∀ operand ∈ call.operands,
      context.openParameter body run operand.id = .ok (run.untyped? operand)) ∧
    ∀ id, context.flow.StaysIn body id → ∃ found, context.openParameter body run id = .ok found ∧
      (∀ origin index, found = some (origin, index) ↔ context.flow.CopiesFrom id origin ∧
        ∃ var, context.flow.typeVar? origin = some var ∧ var.parameterIndex = some index ∧ var.fixed = none ∧
          run.isFixed origin = false) ∧
      (∀ steps ≥ traceBound body, context.flow.trace steps id = context.flow.trace (traceBound body) id) ∧
      ∀ other, context.flow.CopiesFrom id other → Relation.TransGen context.flow.Copies other other → found = none := by
  refine ⟨fun id call h operand hopd => openParameter_operand h run hopd, fun id hin => ?_⟩
  by_cases hpar : ∃ origin index var, context.flow.CopiesFrom id origin ∧ context.flow.typeVar? origin = some var ∧
    var.parameterIndex = some index
  · obtain ⟨origin, index, var, horg, hvar, hix⟩ := hpar
    have htrace : ∀ steps ≥ traceBound body, context.flow.trace steps id = _ := fun steps hle =>
      Flow.trace_of_parameter hvar hix horg (fun other hoth => (hin other hoth).1) ((Nat.le_max_right _ _).trans hle)
    refine ⟨run.untyped? ⟨id, if var.fixed.isSome then none else some (origin, index)⟩, ?_, fun other place =>
      ⟨fun h => ?_, ?_⟩,
      fun steps hle => ?_, fun other hoth hback => ?_⟩
    · rw [openParameter, htrace _ (Nat.le_refl _)]
      rfl
    · obtain ⟨horigin, hopen⟩ := Option.filter_eq_some_iff.mp h
      split at horigin
      · cases horigin
      · next hfx =>
        cases horigin
        exact ⟨horg, var, hvar, hix, by simpa using hfx, by simpa using hopen⟩
    · rintro ⟨hoth, var', hvar', hix', hfx, hopen⟩
      obtain rfl := Flow.eq_of_parameters hvar hix horg hoth hvar' hix'
      cases hvar.symm.trans hvar'
      cases hix.symm.trans hix'
      simp [Run.untyped?, hfx, hopen]
    · rw [htrace steps hle, htrace _ (Nat.le_refl _)]
    · exact absurd hback (Flow.not_circular hvar hix (Flow.copiesFrom_of_copiesFrom hvar hix horg hoth))
  · have htrace : ∀ steps, context.flow.trace steps id = .ok none := by
      refine Flow.trace_of_no_parameter (fun other hoth => (hin other hoth).2) fun other var hoth hvar => ?_
      by_contra hix
      obtain ⟨index, hix⟩ := Option.ne_none_iff_exists'.mp hix
      exact hpar ⟨other, index, var, hoth, hvar, hix⟩
    refine ⟨none, ?_, fun origin index => ⟨by simp, ?_⟩, fun steps _ => ?_, fun _ _ _ => rfl⟩
    · rw [openParameter, htrace]
      rfl
    · rintro ⟨horg, var, hvar, hix, _⟩
      exact absurd ⟨origin, index, var, horg, hvar, hix⟩ hpar
    · rw [htrace, htrace]

/-- A parameter, the copy that a read makes of it, and an assignment of the copy. -/
def copyContext : SolveContext where
  table := .new 0
  flow :=
    let flow := (Flow.empty.add "x" .origin .global (.join [])).2
    let flow := flow.updateVariable ⟨0⟩ fun var => { var with parameterIndex := some 0 }
    let flow := (flow.add "x" .origin .global (.copy ⟨0⟩)).2
    (flow.add "y" .origin .global (.join [⟨1⟩])).2
  lattice := .ofTable (.new 0)
  limits := {}
  registry := ∅

theorem openParameter_exact_copy :
    copyContext.openParameter (copyContext.flow.body .global) { binding := { body := .global } } ⟨2⟩ =
      .ok (some (⟨0⟩, 0)) := by
  have hcopies : copyContext.flow.Copies ⟨2⟩ ⟨1⟩ ∧ copyContext.flow.Copies ⟨1⟩ ⟨0⟩ := ⟨⟨_, rfl, rfl, rfl⟩, _, rfl, rfl, rfl⟩
  have hin : copyContext.flow.StaysIn (copyContext.flow.body .global) ⟨2⟩ := by
    intro other hoth
    have hcas : other = ⟨2⟩ ∨ other = ⟨1⟩ ∨ other = ⟨0⟩ := by
      induction hoth with
      | refl => exact .inl rfl
      | tail _ hcop ih =>
        rcases ih with rfl | rfl | rfl
        · exact .inr (.inl (hcop.unique hcopies.1))
        · exact .inr (.inr (hcop.unique hcopies.2))
        · exact absurd hcop (Flow.not_copies rfl rfl)
    rcases hcas with rfl | rfl | rfl <;> exact ⟨by decide, _, rfl⟩
  obtain ⟨found, hf, hex, _⟩ := (openParameter_exact copyContext (copyContext.flow.body .global)
    { binding := { body := .global } }).2 ⟨2⟩ hin
  have hfst := (hex ⟨0⟩ 0).mpr ⟨.head hcopies.1 (.single hcopies.2), _, rfl, rfl, rfl, rfl⟩
  rw [hf, hfst]

end SolveContext

end SoftTyping
