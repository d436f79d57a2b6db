import Mathlib.Data.List.Basic
import SoftTyping.Proofs.Solver.Evaluation

/-!
# Calls and accepted conversions

How a call is decided depends on what is known of its arguments and on whether conversions have been accepted already. A
call that converts an argument although none has been accepted does so in any case (`judgeWith_of_converting`), and one
that converts nothing although it could converts nothing in any case (`judgeWith_of_exact`).
-/

namespace SoftTyping

/-! ## The most specific candidate -/

theorem mostSpecific?_of_converting {candidates : List (Nat × Overload × Fit)} {chosen : Nat × Overload × Fit}
    (h : mostSpecific? 0 candidates = some chosen) (hcvg : chosen.2.2.converting = true) (conversions : Nat) :
    mostSpecific? conversions candidates = some chosen := by
  by_cases hexact : ∃ candidate ∈ candidates, candidate.2.2.converting = false
  · nomatch hcvg.symm.trans ((mem_eligible.mp (mem_eligible_of_mostSpecific? h)).2 rfl hexact)
  · have hsm : ∀ conversions, eligible conversions candidates = candidates := fun conversions => by
      rw [eligible, if_pos]
      simp at hexact ⊢
      exact .inl hexact
    rwa [mostSpecific?_eq, hsm] at h ⊢

theorem mostSpecific?_congr {first second : Nat} (h : first = 0 ↔ second = 0)
    (candidates : List (Nat × Overload × Fit)) : mostSpecific? first candidates = mostSpecific? second candidates := by
  have hne : (first != 0) = (second != 0) := by
    rw [Bool.eq_iff_iff, bne_iff_ne, bne_iff_ne]
    exact not_congr h
  simp only [mostSpecific?, hne]

namespace Run

variable {lattice : Lattice} {run run' : Run} {call : CallRule} {conversions first second : Nat} {result : Union}
  {converting : Bool}

/-! ## Deciding a call -/

theorem judge_eq_judgeWith (lattice : Lattice) (run : Run) (call : CallRule) :
    run.judge lattice call = run.judgeWith lattice run.binding.convertibleApplications call := rfl

/-- A call comes to the same whatever has been accepted, or its arguments all have types, overloads fit, and one of them
is chosen. -/
theorem judgeWith_cases (lattice : Lattice) (run : Run) (call : CallRule) :
    (∃ judgement, (∀ conversions, run.judgeWith lattice conversions call = judgement) ∧
      ∀ result converting, judgement ≠ .chosen result converting) ∨
    ∀ conversions, ∃ candidate,
      mostSpecific? conversions (lattice.candidates call.overloads (call.operands.map run.argument)) = some candidate ∧
      run.judgeWith lattice conversions call =
        .chosen (lattice.normalize candidate.2.1.result) candidate.2.2.converting := by
  unfold judgeWith
  dsimp only
  split
  · exact Or.inl ⟨_, fun _ => rfl, nofun⟩
  · have hhopeless : ∀ result converting,
        (if call.final then Judgement.refused (call.operands.map run.lowerOf) else .undecided) ≠
          .chosen result converting := by
      intro result converting
      split <;> nofun
    split
    · exact Or.inl ⟨_, fun _ => rfl, hhopeless⟩
    · split
      · exact Or.inl ⟨_, fun _ => rfl, nofun⟩
      · split
        · exact Or.inl ⟨_, fun _ => rfl, hhopeless⟩
        · next hcandidates =>
          cases run.firstUntyped? call.operands with
          | some found => exact Or.inl ⟨_, fun _ => rfl, nofun⟩
          | none =>
            refine Or.inr fun conversions => ?_
            obtain ⟨candidate, hcan⟩ := exists_mostSpecific? conversions (by simpa using hcandidates)
            exact ⟨candidate, hcan, by rw [hcan]⟩

theorem judgeWith_congr_conversions (h : first = 0 ↔ second = 0) :
    run.judgeWith lattice first call = run.judgeWith lattice second call := by
  simp only [judgeWith, mostSpecific?_congr h]

/-- A call that converts an argument when no conversion has been accepted does so in any case. -/
theorem judgeWith_of_converting (h : run.judgeWith lattice 0 call = .chosen result true) (conversions : Nat) :
    run.judgeWith lattice conversions call = .chosen result true := by
  rcases judgeWith_cases lattice run call with ⟨judgement, hsm, _⟩ | hcho
  · rw [hsm] at h ⊢
    exact h
  · obtain ⟨candidate, hcan, hjd⟩ := hcho 0
    rw [h] at hjd
    obtain ⟨rfl, hcvg⟩ := Judgement.chosen.inj hjd
    obtain ⟨candidate', hcan', hjd'⟩ := hcho conversions
    rw [mostSpecific?_of_converting hcan hcvg.symm conversions] at hcan'
    cases hcan'
    rw [hjd', ← hcvg]

/-- A call that converts nothing, whatever has been accepted, converts nothing when no conversion has been accepted. -/
theorem judgeWith_of_exact (h : run.judgeWith lattice conversions call = .chosen result false) :
    ∃ result', run.judgeWith lattice 0 call = .chosen result' false := by
  rcases judgeWith_cases lattice run call with ⟨judgement, hsm, hnot⟩ | hcho
  · rw [hsm] at h
    exact absurd h (hnot _ _)
  · obtain ⟨candidate, _, hjd⟩ := hcho 0
    cases hcvg : candidate.2.2.converting with
    | false => exact ⟨_, hcvg ▸ hjd⟩
    | true =>
      rw [hcvg] at hjd
      have := judgeWith_of_converting hjd conversions
      rw [h] at this
      nomatch this

theorem judgeWith_of_refused {arguments : List Union} (h : run.judgeWith lattice first call = .refused arguments) :
    run.judgeWith lattice second call = .refused arguments := by
  rcases judgeWith_cases lattice run call with ⟨judgement, hsm, _⟩ | hcho
  · rw [hsm] at h ⊢
    exact h
  · obtain ⟨candidate, _, hjd⟩ := hcho first
    rw [h] at hjd
    nomatch hjd

/-- A call is decided by what is known of its arguments. -/
theorem judgeWith_congr (h : ∀ operand ∈ call.operands, run.untyped? operand = run'.untyped? operand ∧
      run.binding.boundsOf operand.id = run'.binding.boundsOf operand.id) (conversions : Nat) :
    run.judgeWith lattice conversions call = run'.judgeWith lattice conversions call := by
  have hlw : ∀ operand ∈ call.operands, run.lowerOf operand = run'.lowerOf operand := by
    intro operand hopd
    rw [lowerOf, lowerOf, (h operand hopd).1, (h operand hopd).2]
  have harg : ∀ operand ∈ call.operands, run.argument operand = run'.argument operand := by
    intro operand hopd
    rw [argument, argument, (h operand hopd).1, (h operand hopd).2]
  have hop : call.operands.any (fun operand => (run.untyped? operand).isNone && (run.lowerOf operand).isEmpty) =
      call.operands.any (fun operand => (run'.untyped? operand).isNone && (run'.lowerOf operand).isEmpty) := by
    rw [Bool.eq_iff_iff, List.any_eq_true, List.any_eq_true]
    refine exists_congr fun operand => and_congr_right fun hopd => ?_
    rw [(h operand hopd).1, hlw operand hopd]
  have hfst : run.firstUntyped? call.operands = run'.firstUntyped? call.operands := by
    unfold firstUntyped?
    rw [← List.head?_filterMap, ← List.head?_filterMap]
    refine congrArg List.head? (List.filterMap_congr fun ⟨operand, place⟩ he => ?_)
    dsimp only
    rw [(h operand (List.fst_mem_of_mem_zipIdx he)).1]
  unfold judgeWith
  rw [List.map_congr_left hlw, List.map_congr_left harg, hop, hfst]

end Run

end SoftTyping
