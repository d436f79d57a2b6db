import SoftTyping.Proofs.Solver.Search

/-!
# What all runs of a body keep

A run starts with its declared parameters, applies rules, and gives parameters types at forks and when its passes are done. So
whatever these keep of a binding holds of every run to which a body comes (`Invariant.ends`).
-/

namespace SoftTyping

/-- What the start of a body has and everything that its runs do keeps. -/
structure Plan.Invariant (plan : Plan) (lattice : Lattice) (Inv : Binding → Prop) : Prop where
  start : Inv plan.start.binding
  apply : ∀ {run : Run} {id rule} (tolerant : Bool), (id, rule) ∈ plan.rules → Inv run.binding →
    Inv (run.apply lattice tolerant id rule).run.binding
  close : ∀ {run : Run}, Inv run.binding → Inv (plan.close lattice run).binding
  fork : ∀ {run : Run} {fork candidate}, Run.Forks plan.rules run fork → candidate ∈ fork.candidates → Inv run.binding →
    Inv (run.bindParameter fork.parameter fork.index candidate).binding

namespace Plan.Invariant

variable {plan : Plan} {lattice : Lattice} {Inv : Binding → Prop} {limits : Limits} {tolerant : Bool} {run : Run}
  (h : plan.Invariant lattice Inv)

include h

/-- Settling keeps an invariant. -/
theorem settle (hrun : Inv run.binding) (tolerant : Bool) (limit : Nat) :
    Inv (plan.settle lattice limit tolerant run).run.binding :=
  settle_keeps (fun r => Inv r.binding)
    (fun hr => Run.passes_keeps (fun r => Inv r.binding) (fun hr heq => heq ▸ hr) (h.apply tolerant) hr limit) h.close hrun

/-- An invariant holds where a branch of the search starts. -/
theorem starts (hsts : plan.Starts lattice limits tolerant run) : Inv run.binding := by
  induction hsts with
  | start => exact h.start
  | @branch tolerant _ _ _ _ _ hstl hcan ih =>
    have hrun := h.settle ih tolerant limits.passes
    rw [hstl] at hrun
    exact h.fork (settle_eq_forked hstl) hcan hrun
  | retry _ hstl _ ih =>
    have hrun := h.settle ih false limits.passes
    rw [hstl] at hrun
    exact hrun

/-- An invariant holds where a branch of the search ends. -/
theorem ends (hens : plan.Ends lattice limits tolerant run) : Inv run.binding := by
  obtain ⟨start, changed, hst, hstl⟩ := hens
  have hrun := h.settle (h.starts hst) tolerant limits.passes
  rw [hstl] at hrun
  exact hrun

end Plan.Invariant

end SoftTyping
