import SoftTyping.Proofs.Overload.Fit

/-!
# Which overload is chosen

Of the overloads that fit, the first of the lowest level is chosen, among those that convert nothing if there are any and no
conversion has been accepted yet (`Preferred`). Main statement: this determines the choice, which does not depend on overloads
that are not chosen (`mostSpecific?_candidates`).
-/

namespace SoftTyping

/-! ## Candidates -/

namespace Lattice

variable {lattice : Lattice} {overloads : List Overload} {arguments : List Argument} {index : Nat}
  {overload : Overload} {fit : Fit}

theorem mem_candidates : (index, overload, fit) ∈ lattice.candidates overloads arguments ↔
    overloads[index]? = some overload ∧ lattice.argumentsFit? arguments overload.parameters = some fit := by
  simp only [candidates, List.mem_filterMap, Option.map_eq_some_iff, Prod.mk.injEq, Prod.exists]
  constructor
  · rintro ⟨_, _, hmem, _, hfit, rfl, rfl, rfl⟩
    exact ⟨List.mem_zipIdx_iff_getElem?.mp hmem, hfit⟩
  · rintro ⟨hget, hfit⟩
    exact ⟨overload, index, List.mem_zipIdx_iff_getElem?.mpr hget, fit, hfit, rfl, rfl, rfl⟩

theorem candidates_eq_nil : lattice.candidates overloads arguments = [] ↔
    ∀ overload ∈ overloads, lattice.argumentsFit? arguments overload.parameters = none := by
  rw [List.eq_nil_iff_forall_not_mem]
  constructor
  · intro h overload hov
    obtain ⟨index, hix⟩ := List.mem_iff_getElem?.mp hov
    exact Option.eq_none_iff_forall_ne_some.mpr fun fit hfit => h (index, overload, fit) (mem_candidates.mpr ⟨hix, hfit⟩)
  · rintro h ⟨index, overload, fit⟩ hmem
    obtain ⟨hget, hfit⟩ := mem_candidates.mp hmem
    nomatch (h _ (List.mem_of_getElem? hget)).symm.trans hfit

theorem pairwise_candidates (lattice : Lattice) (overloads : List Overload) (arguments : List Argument) :
    (lattice.candidates overloads arguments).Pairwise fun a b => a.1 < b.1 := by
  have hindices : overloads.zipIdx.Pairwise fun a b => a.2 < b.2 := by
    rw [← List.pairwise_map, List.zipIdx_map_snd]
    exact List.pairwise_lt_range'
  refine hindices.filterMap _ fun a b hlt c hc d hd => ?_
  obtain ⟨_, _, rfl⟩ := Option.map_eq_some_iff.mp hc
  obtain ⟨_, _, rfl⟩ := Option.map_eq_some_iff.mp hd
  exact hlt

end Lattice

variable {candidates : List (Nat × Overload × Fit)} {chosen : Nat × Overload × Fit} {conversions : Nat}

/-- The candidates among which the most specific is looked for. -/
def eligible (conversions : Nat) (candidates : List (Nat × Overload × Fit)) : List (Nat × Overload × Fit) :=
  if (candidates.filter (fun candidate => !candidate.2.2.converting)).isEmpty || conversions != 0 then candidates
  else candidates.filter (fun candidate => !candidate.2.2.converting)

theorem mostSpecific?_eq (conversions : Nat) (candidates : List (Nat × Overload × Fit)) :
    mostSpecific? conversions candidates = lowestLevel? (eligible conversions candidates) := rfl

theorem mem_eligible : chosen ∈ eligible conversions candidates ↔ chosen ∈ candidates ∧
    (conversions = 0 → (∃ candidate ∈ candidates, candidate.2.2.converting = false) → chosen.2.2.converting = false) := by
  unfold eligible
  split
  · next h => simp at h; grind
  · next h => simp at h; grind

theorem eligible_sublist (conversions : Nat) (candidates : List (Nat × Overload × Fit)) :
    (eligible conversions candidates).Sublist candidates := by
  unfold eligible
  split
  · exact .refl _
  · exact List.filter_sublist

section

variable (h : mostSpecific? conversions candidates = some chosen)

include h

theorem mostSpecific?_eq_some : ∃ before after, eligible conversions candidates = before ++ chosen :: after ∧
      (∀ candidate ∈ before, chosen.2.2.level < candidate.2.2.level) ∧
      ∀ candidate ∈ after, chosen.2.2.level ≤ candidate.2.2.level := by
  rw [mostSpecific?_eq] at h
  generalize eligible conversions candidates = candidates at h ⊢
  cases candidates with
  | nil => nomatch h
  | cons first rest =>
    obtain ⟨before, found, after, hf, hspl, hbef, haf⟩ := exists_foldl_best
      (fun a b => a.2.2.level ≤ b.2.2.level) (fun _ _ => Nat.le_of_not_le) (fun _ _ _ => Nat.le_trans) first rest
    obtain rfl : found = chosen := hf.symm.trans (Option.some.inj h)
    exact ⟨before, after, hspl, fun candidate hcan => Nat.lt_of_not_le (hbef candidate hcan), haf⟩

theorem mem_eligible_of_mostSpecific? : chosen ∈ eligible conversions candidates := by
  obtain ⟨before, after, hspl, _⟩ := mostSpecific?_eq_some h
  simp [hspl]

theorem mem_of_mostSpecific? : chosen ∈ candidates :=
  (mem_eligible.mp (mem_eligible_of_mostSpecific? h)).1

end

theorem mostSpecific?_eq_none : mostSpecific? conversions candidates = none ↔ candidates = [] := by
  have hlowest : ∀ {list}, lowestLevel? list = none ↔ list = [] := fun {list} => by cases list <;> simp [lowestLevel?]
  rw [mostSpecific?_eq, hlowest, eligible]
  split
  · rfl
  · next hexact =>
    rw [Bool.or_eq_true, not_or, List.isEmpty_iff] at hexact
    refine ⟨fun h => absurd h hexact.1, ?_⟩
    rintro rfl
    exact absurd rfl hexact.1

theorem exists_mostSpecific? (conversions : Nat) (h : candidates ≠ []) :
    ∃ chosen, mostSpecific? conversions candidates = some chosen :=
  Option.ne_none_iff_exists'.mp (mt mostSpecific?_eq_none.mp h)

namespace Lattice

/-! ## The choice -/

variable {lattice : Lattice} {arguments : List Argument} {overloads : List Overload} {index : Nat}
  {overload : Overload} {fit : Fit}

/-- An overload fits without conversions, and none have been accepted. -/
def PrefersExact (lattice : Lattice) (overloads : List Overload) (arguments : List Argument) (conversions : Nat) : Prop :=
  conversions = 0 ∧ ∃ overload ∈ overloads, ∃ level, lattice.argumentsFit? arguments overload.parameters = some ⟨level, false⟩

/-- The overload at a place fits; without conversions, where this is preferred. -/
def Eligible (lattice : Lattice) (overloads : List Overload) (arguments : List Argument) (conversions : Nat)
    (index : Nat) (overload : Overload) (fit : Fit) : Prop :=
  overloads[index]? = some overload ∧ lattice.argumentsFit? arguments overload.parameters = some fit ∧
    (lattice.PrefersExact overloads arguments conversions → fit.converting = false)

/-- The first eligible overload of the lowest level. -/
structure Preferred (lattice : Lattice) (overloads : List Overload) (arguments : List Argument) (conversions : Nat)
    (index : Nat) (overload : Overload) (fit : Fit) : Prop where
  eligible : lattice.Eligible overloads arguments conversions index overload fit
  least : ∀ place other otherFit, lattice.Eligible overloads arguments conversions place other otherFit →
    fit.level ≤ otherFit.level ∧ (place < index → fit.level < otherFit.level)

theorem mem_eligible_candidates :
    (index, overload, fit) ∈ SoftTyping.eligible conversions (lattice.candidates overloads arguments) ↔
    lattice.Eligible overloads arguments conversions index overload fit := by
  rw [mem_eligible, mem_candidates, Eligible, and_assoc, PrefersExact, and_imp]
  refine and_congr_right fun _ => and_congr_right fun _ => imp_congr_right fun _ => imp_congr_left ?_
  constructor
  · rintro ⟨⟨place, other, level, converting⟩, hmem, rfl⟩
    obtain ⟨hget, hfit⟩ := mem_candidates.mp hmem
    exact ⟨other, List.mem_of_getElem? hget, level, hfit⟩
  · rintro ⟨other, hmem, level, hfit⟩
    obtain ⟨place, hget⟩ := List.mem_iff_getElem?.mp hmem
    exact ⟨(place, other, ⟨level, false⟩), mem_candidates.mpr ⟨hget, hfit⟩, rfl⟩

theorem preferred_of_mostSpecific?
    (h : mostSpecific? conversions (lattice.candidates overloads arguments) = some (index, overload, fit)) :
    lattice.Preferred overloads arguments conversions index overload fit := by
  obtain ⟨before, after, hspl, hbef, haf⟩ := mostSpecific?_eq_some h
  have hsorted := (lattice.pairwise_candidates overloads arguments).sublist (eligible_sublist conversions _)
  rw [hspl, List.pairwise_append, List.pairwise_cons] at hsorted
  refine ⟨mem_eligible_candidates.mp (by rw [hspl]; simp), fun place other otherFit hoth => ?_⟩
  have hmem := mem_eligible_candidates.mpr hoth
  rw [hspl, List.mem_append, List.mem_cons] at hmem
  rcases hmem with hmem | heq | hmem
  · exact ⟨Nat.le_of_lt (hbef _ hmem), fun _ => hbef _ hmem⟩
  · cases heq
    exact ⟨Nat.le_refl _, fun hlt => absurd hlt (Nat.lt_irrefl _)⟩
  · exact ⟨haf _ hmem, fun hlt => absurd hlt (Nat.lt_asymm (hsorted.2.1.1 _ hmem))⟩

theorem Preferred.mostSpecific?_eq (h : lattice.Preferred overloads arguments conversions index overload fit) :
    mostSpecific? conversions (lattice.candidates overloads arguments) = some (index, overload, fit) := by
  have hne := List.ne_nil_of_mem (mem_candidates.mpr ⟨h.eligible.1, h.eligible.2.1⟩)
  obtain ⟨⟨place, other, otherFit⟩, hcho⟩ := exists_mostSpecific? conversions hne
  have h' := preferred_of_mostSpecific? hcho
  have hle := h.least _ _ _ h'.eligible
  have hle' := h'.least _ _ _ h.eligible
  obtain rfl : place = index := by omega
  obtain rfl : other = overload := Option.some.inj (h'.eligible.1.symm.trans h.eligible.1)
  rw [hcho, Option.some.inj (h'.eligible.2.1.symm.trans h.eligible.2.1)]

theorem Preferred.eraseIdx (h : lattice.Preferred overloads arguments conversions index overload fit) {removed : Nat}
    (hne : removed ≠ index) : lattice.Preferred (overloads.eraseIdx removed) arguments conversions
      (if removed < index then index - 1 else index) overload fit := by
  have hget : (overloads.eraseIdx removed)[if removed < index then index - 1 else index]? = some overload := by
    rw [List.getElem?_eraseIdx, ← h.eligible.1]
    grind
  have hexact : lattice.PrefersExact (overloads.eraseIdx removed) arguments conversions ↔
      lattice.PrefersExact overloads arguments conversions := by
    refine and_congr_right fun hzero => ⟨fun ⟨other, hmem, hfit⟩ => ⟨other, List.mem_of_mem_eraseIdx hmem, hfit⟩,
      fun hexists => ?_⟩
    refine ⟨overload, List.mem_of_getElem? hget, fit.level, ?_⟩
    rw [h.eligible.2.1, ← h.eligible.2.2 ⟨hzero, hexists⟩]
  refine ⟨⟨hget, h.eligible.2.1, fun hprefers => h.eligible.2.2 (hexact.mp hprefers)⟩, fun place other otherFit hoth => ?_⟩
  rw [Eligible, hexact, List.getElem?_eraseIdx] at hoth
  have := h.least (if place < removed then place else place + 1) other otherFit ⟨by rw [← hoth.1]; split <;> rfl, hoth.2⟩
  grind

/-- Of the overloads of a function one is chosen unless none has as many parameters as there are arguments and accepts each of
these. The one that is chosen fits, and without conversions if none have been accepted and some overload fits so. Its level is
the lowest among the overloads that fit as it has to, and lower than that of each of them that stands before it. To leave out an
overload that is not chosen changes nothing. -/
theorem mostSpecific?_candidates (lattice : Lattice) (overloads : List Overload) (arguments : List Argument)
    (binding : Binding) :
    let conversions := binding.convertibleApplications
    (mostSpecific? conversions (lattice.candidates overloads arguments) = none ↔
        ∀ overload ∈ overloads, ¬ (arguments.length = overload.arity ∧ ∀ {argument parameter},
          (argument, parameter) ∈ arguments.zip overload.parameters →
            ∀ member ∈ lattice.membersOf argument, lattice.Accepts parameter member)) ∧
      ∀ index overload fit, mostSpecific? conversions (lattice.candidates overloads arguments) = some (index, overload, fit) →
        overloads[index]? = some overload ∧ lattice.argumentsFit? arguments overload.parameters = some fit ∧
        (lattice.PrefersExact overloads arguments conversions → fit.converting = false) ∧
        (∀ place other otherFit, lattice.Eligible overloads arguments conversions place other otherFit →
          fit.level ≤ otherFit.level ∧ (place < index → fit.level < otherFit.level)) ∧
        ∀ removed ≠ index, mostSpecific? conversions (lattice.candidates (overloads.eraseIdx removed) arguments) =
          some (if removed < index then index - 1 else index, overload, fit) := by
  intro conversions
  refine ⟨?_, fun index overload fit hcho => ?_⟩
  · rw [mostSpecific?_eq_none, candidates_eq_nil]
    simp only [Overload.arity, ← List.forall₂_iff_zip, ← argumentsFit?_isSome, Option.not_isSome_iff_eq_none]
  · have h := preferred_of_mostSpecific? hcho
    exact ⟨h.eligible.1, h.eligible.2.1, h.eligible.2.2, h.least, fun removed hne => (h.eraseIdx hne).mostSpecific?_eq⟩

end Lattice

end SoftTyping
