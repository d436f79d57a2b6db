import SoftTyping.Proofs.Overload.Choice
import SoftTyping.Solver.Run

/-!
# Deciding a call

Main statement: a call forks only on a parameter without a type that one of its arguments copies, and over at least one type
(`judge_eq_fork`).
-/

namespace SoftTyping

/-! ## Lists that hold each element once -/

theorem mem_includeOnce {α : Type} [BEq α] {items : List α} {item a : α} (h : a ∈ includeOnce items item) :
    a ∈ items ∨ a = item := by
  unfold includeOnce at h
  split at h
  · exact Or.inl h
  · simpa using h

theorem mem_includeOnce_iff {α : Type} [BEq α] [LawfulBEq α] {items : List α} {item a : α} :
    a ∈ includeOnce items item ↔ a ∈ items ∨ a = item := by
  refine ⟨mem_includeOnce, fun h => ?_⟩
  unfold includeOnce
  split
  · next hmem =>
    rcases h with h | rfl
    · exact h
    · exact List.contains_iff_mem.mp hmem
  · simpa using h

theorem includeOnce_ne_nil {α : Type} [BEq α] (items : List α) (item : α) : includeOnce items item ≠ [] := by
  unfold includeOnce
  split
  · next h =>
    intro hnil
    rw [hnil] at h
    simp at h
  · simp

namespace Run

variable {lattice : Lattice} {run : Run} {call : CallRule} {fork : Fork} {candidates : List (Nat × Overload × Fit)}
  {origin : TypeVarId × Nat} {place : Nat}

/-! ## Forks -/

theorem mem_parameterTypesAt {type : ParameterType}
    (h : type ∈ parameterTypesAt candidates place) : ∃ candidate ∈ candidates, type ∈ candidate.2.1.parameters := by
  unfold parameterTypesAt at h
  suffices hfold : type ∈ [] ∨ ∃ candidate ∈ candidates, type ∈ candidate.2.1.parameters by
    exact hfold.resolve_left List.not_mem_nil
  generalize ([] : List ParameterType) = types at h ⊢
  induction candidates generalizing types with
  | nil => exact Or.inl h
  | cons candidate rest ih =>
    rcases ih _ h with h | ⟨other, hoth, h⟩
    · dsimp only at h
      cases hp : candidate.2.1.parameters[place]? with
      | none => rw [hp] at h; exact Or.inl h
      | some parameter =>
        rw [hp] at h
        rcases mem_includeOnce h with h | rfl
        · exact Or.inl h
        · exact Or.inr ⟨candidate, List.mem_cons_self, List.mem_of_getElem? hp⟩
    · exact Or.inr ⟨other, List.mem_cons_of_mem _ hoth, h⟩

theorem parameterTypesAt_ne_nil (hne : candidates ≠ [])
    (hplc : ∀ candidate ∈ candidates, place < candidate.2.1.parameters.length) :
    parameterTypesAt candidates place ≠ [] := by
  cases candidates with
  | nil => exact absurd rfl hne
  | cons candidate rest =>
    have hfst := hplc candidate List.mem_cons_self
    have hkt : includeOnce [] candidate.2.1.parameters[place] ≠ [] := includeOnce_ne_nil _ _
    rw [parameterTypesAt, List.foldl_cons, List.getElem?_eq_getElem hfst]
    dsimp only
    -- Once one candidate has put its type on the list, the others keep the list non-empty.
    generalize includeOnce [] candidate.2.1.parameters[place] = types at hkt ⊢
    clear hne hplc hfst
    induction rest generalizing types with
    | nil => exact hkt
    | cons other rest ih =>
      refine ih _ ?_
      dsimp only
      split
      · exact includeOnce_ne_nil _ _
      · exact hkt

theorem untyped?_eq_some {operand : Operand} :
    run.untyped? operand = some origin ↔ operand.origin = some origin ∧ run.isFixed origin.1 = false := by
  simp [untyped?, Option.filter_eq_some_iff]

theorem firstUntyped?_eq_some {operands : List Operand} (h : run.firstUntyped? operands = some (place, origin)) :
    place < operands.length ∧ ∃ operand ∈ operands, run.untyped? operand = some origin := by
  unfold firstUntyped? at h
  obtain ⟨⟨operand, index⟩, hmem, hso⟩ := List.exists_of_findSome?_eq_some h
  obtain ⟨found, hf, heq⟩ := Option.map_eq_some_iff.mp hso
  obtain ⟨rfl, rfl⟩ := Prod.mk.inj heq
  exact ⟨by simpa using List.snd_lt_of_mem_zipIdx hmem, operand, List.fst_mem_of_mem_zipIdx hmem, hf⟩

/-- A call forks on a parameter without a type that one of its arguments copies, over the types that its overloads have at
that place; there is at least one. -/
theorem judge_eq_fork (h : run.judge lattice call = .fork fork) :
    (∃ operand ∈ call.operands, operand.origin = some (fork.parameter, fork.index)) ∧
      run.isFixed fork.parameter = false ∧ fork.candidates ≠ [] ∧
      ∀ type ∈ fork.candidates, ∃ overload ∈ call.overloads, type ∈ overload.parameters := by
  simp only [judge, judgeWith] at h
  split at h
  · nomatch h
  · split at h
    · split at h <;> nomatch h
    · split at h
      · nomatch h
      · split at h
        · split at h <;> nomatch h
        · next hcandidates =>
          split at h
          · next place parameter index hfst =>
            cases h
            obtain ⟨hplc, operand, hopd, horg⟩ := firstUntyped?_eq_some hfst
            obtain ⟨horg, hfx⟩ := untyped?_eq_some.mp horg
            refine ⟨⟨operand, hopd, horg⟩, hfx, ?_, ?_⟩
            · refine parameterTypesAt_ne_nil (by simpa using hcandidates) fun candidate hc => ?_
              rw [← Lattice.length_eq_of_argumentsFit? (Lattice.mem_candidates.mp hc).2, List.length_map]
              exact hplc
            · intro type htp
              obtain ⟨candidate, hc, htp⟩ := mem_parameterTypesAt htp
              exact ⟨candidate.2.1, List.mem_of_getElem? (Lattice.mem_candidates.mp hc).1, htp⟩
          · split at h <;> nomatch h

end Run

end SoftTyping
