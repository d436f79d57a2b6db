import Mathlib.Data.List.Forall2
import SoftTyping.Overload.Choice
import SoftTyping.Proofs.Promotion

/-!
# How arguments fit

Arguments fit parameters if there are as many of the one as of the other and each parameter accepts all types of its argument
but the erroneous one (`argumentsFit?_isSome`). A type fits a parameter as it fits best any type of it, so that it is converted
where a conversion costs less than each promotion (`converting_argumentsFit?`).
-/

namespace SoftTyping

/-! ## The first of the best -/

/-- Keeping the better of two, and the earlier of equals, keeps the first of the best. -/
theorem exists_foldl_best {α : Type} (le : α → α → Prop) [DecidableRel le] (htotal : ∀ a b, ¬ le a b → le b a)
    (htrans : ∀ a b c, le a b → le b c → le a c) (first : α) (rest : List α) :
    ∃ before best after, rest.foldl (fun best next => if le best next then best else next) first = best ∧
      first :: rest = before ++ best :: after ∧ (∀ a ∈ before, ¬ le a best) ∧ ∀ a ∈ after, le best a := by
  induction rest using List.reverseRecOn with
  | nil => exact ⟨[], first, [], rfl, rfl, nofun, nofun⟩
  | append_singleton rest next ih =>
    obtain ⟨before, best, after, hbest, hspl, hbef, haf⟩ := ih
    rw [List.foldl_append, List.foldl_cons, List.foldl_nil, hbest]
    by_cases hle : le best next
    · refine ⟨before, best, after ++ [next], if_pos hle, by rw [← List.cons_append, hspl]; simp, hbef, ?_⟩
      simpa [or_imp, forall_and] using ⟨haf, hle⟩
    · -- What came before is worse than the new best, for it would be as good as the old one otherwise.
      refine ⟨first :: rest, next, [], if_neg hle, rfl, fun a ha hnx => ?_, nofun⟩
      rw [hspl, List.mem_append, List.mem_cons] at ha
      rcases ha with ha | rfl | ha
      · exact hbef a ha (htrans a next best hnx (htotal best next hle))
      · exact hle hnx
      · exact hle (htrans best a next (haf a ha) hnx)

namespace Fit

theorem le_iff {a b : Fit} : a.le b = true ↔
    a.level < b.level ∨ a.level = b.level ∧ (a.converting = true → b.converting = true) := by
  cases ha : a.converting <;> cases hb : b.converting <;> simp [le, ha, hb]

theorem best?_eq_some {fits : List Fit} {best : Fit} (h : best? fits = some best) :
    best ∈ fits ∧ ∀ fit ∈ fits, best.le fit = true := by
  cases fits with
  | nil => nomatch h
  | cons first rest =>
    have htotal : ∀ a b : Fit, ¬ a.le b = true → b.le a = true := by
      simp only [le_iff]
      grind
    have htrans : ∀ a b c : Fit, a.le b = true → b.le c = true → a.le c = true := by
      simp only [le_iff]
      grind
    obtain ⟨before, found, after, hf, hspl, hbef, haf⟩ := exists_foldl_best (fun a b => a.le b = true) htotal htrans first rest
    obtain rfl : found = best := hf.symm.trans (Option.some.inj h)
    rw [hspl]
    refine ⟨by simp, fun fit hfit => ?_⟩
    rw [List.mem_append, List.mem_cons] at hfit
    rcases hfit with hfit | rfl | hfit
    · exact htotal _ _ (hbef fit hfit)
    · exact le_iff.mpr (.inr ⟨rfl, id⟩)
    · exact haf fit hfit

theorem best?_isSome {fits : List Fit} : (best? fits).isSome = true ↔ ∃ fit, fit ∈ fits := by
  cases fits <;> simp [best?]

end Fit

/-- The types that an argument may have, as far as they are known. -/
def Argument.symbols : Argument → List SymbolId
  | .untyped => []
  | .typed union => union.symbols

namespace Lattice

variable {lattice : Lattice} {parameter : ParameterType} {member target : SymbolId} {members : List SymbolId} {fit best : Fit}
  {arguments : List Argument} {parameters : List ParameterType}

/-! ## One type of an argument -/

/-- A type reaches another through a conversion. -/
def Converts (lattice : Lattice) (a b : SymbolId) : Prop := (lattice.conversionLevel? a b).isSome = true

/-- A parameter accepts a type: it has an erroneous type, or one that this type promotes to, or converts to where it may. -/
def Accepts (lattice : Lattice) (parameter : ParameterType) (member : SymbolId) : Prop :=
  ∃ target ∈ parameter.bound.symbols, target = lattice.erroneous ∨ lattice.Promotes member target ∨
    parameter.convertible = true ∧ lattice.Converts member target

/-- A type reaches a parameter by a conversion that costs less than each of its promotions to the parameter. -/
def ConvertsFirst (lattice : Lattice) (parameter : ParameterType) (member : SymbolId) : Prop :=
  parameter.convertible = true ∧ lattice.erroneous ∉ parameter.bound.symbols ∧
    ∃ target ∈ parameter.bound.symbols, lattice.promotionLevel? member target = none ∧
      ∃ cost, lattice.conversionLevel? member target = some cost ∧
        ∀ other ∈ parameter.bound.symbols, ∀ level, lattice.promotionLevel? member other = some level → cost < level

/-- How a type fits a parameter. -/
def bestFit? (lattice : Lattice) (parameter : ParameterType) (member : SymbolId) : Option Fit :=
  Fit.best? (parameter.bound.symbols.filterMap (lattice.memberFit? parameter.convertible member))

/-- The three ways in which a type fits another. -/
theorem memberFit?_eq_some {convertible : Bool} : lattice.memberFit? convertible member target = some fit ↔
    target = lattice.erroneous ∧ fit = .exact ∨
      target ≠ lattice.erroneous ∧ (∃ level, lattice.promotionLevel? member target = some level ∧ fit = ⟨level, false⟩) ∨
      target ≠ lattice.erroneous ∧ lattice.promotionLevel? member target = none ∧ convertible = true ∧
        ∃ cost, lattice.conversionLevel? member target = some cost ∧ fit = ⟨cost, true⟩ := by
  unfold memberFit?
  split
  · next heq => simp [heq, eq_comm]
  · next hne =>
    cases lattice.promotionLevel? member target <;> cases convertible <;> simp [hne, eq_comm]

theorem bestFit?_isSome : (lattice.bestFit? parameter member).isSome = true ↔ lattice.Accepts parameter member := by
  rw [bestFit?, Fit.best?_isSome]
  simp only [List.mem_filterMap]
  rw [exists_comm]
  refine exists_congr fun target => ?_
  rw [exists_and_left]
  refine and_congr_right fun _ => ?_
  rw [← Option.isSome_iff_exists, memberFit?, Promotes, Converts]
  split
  · next heq => simp [heq]
  · next hne =>
    cases lattice.promotionLevel? member target <;> cases parameter.convertible <;> simp [hne]

theorem converting_bestFit? (h : lattice.bestFit? parameter member = some best) :
    best.converting = true ↔ lattice.ConvertsFirst parameter member := by
  obtain ⟨hbest, hleast⟩ := Fit.best?_eq_some h
  have hmem : ∀ {fit}, fit ∈ parameter.bound.symbols.filterMap (lattice.memberFit? parameter.convertible member) ↔ _ :=
    List.mem_filterMap
  constructor
  · intro hcvg
    obtain ⟨target, ht, hfit⟩ := hmem.mp hbest
    obtain ⟨_, rfl⟩ | ⟨_, _, _, rfl⟩ | ⟨hne, hno, hcvb, cost, hcost, rfl⟩ := memberFit?_eq_some.mp hfit
    · nomatch hcvg
    · nomatch hcvg
    have herr : lattice.erroneous ∉ parameter.bound.symbols := by
      intro herr
      have := Fit.le_iff.mp (hleast .exact (hmem.mpr ⟨_, herr, memberFit?_eq_some.mpr (.inl ⟨rfl, rfl⟩)⟩))
      simp [Fit.exact] at this
    refine ⟨hcvb, herr, target, ht, hno, cost, hcost, fun other hoth level hlv => ?_⟩
    have hne' : other ≠ lattice.erroneous := fun heq => herr (heq ▸ hoth)
    have := Fit.le_iff.mp (hleast ⟨level, false⟩
      (hmem.mpr ⟨other, hoth, memberFit?_eq_some.mpr (.inr (.inl ⟨hne', level, hlv, rfl⟩))⟩))
    simpa using this
  · rintro ⟨hcvb, herr, target, ht, hno, cost, hcost, hcheaper⟩
    have hne : target ≠ lattice.erroneous := fun heq => herr (heq ▸ ht)
    have hle := Fit.le_iff.mp (hleast ⟨cost, true⟩
      (hmem.mpr ⟨target, ht, memberFit?_eq_some.mpr (.inr (.inr ⟨hne, hno, hcvb, cost, hcost, rfl⟩))⟩))
    obtain ⟨other, hoth, hfit⟩ := hmem.mp hbest
    obtain ⟨rfl, _⟩ | ⟨_, level, hlv, rfl⟩ | ⟨_, _, _, _, _, rfl⟩ := memberFit?_eq_some.mp hfit
    · exact absurd hoth herr
    · have := hcheaper other hoth level hlv
      simp only [Bool.false_eq_true] at hle
      omega
    · rfl

/-! ## Arguments -/

theorem membersFit?_cons : lattice.membersFit? parameter (member :: members) = some fit ↔
    ∃ best, lattice.bestFit? parameter member = some best ∧ ∃ others, lattice.membersFit? parameter members = some others ∧
      ⟨max best.level others.level, best.converting || others.converting⟩ = fit := by
  simp only [membersFit?, bestFit?, Option.bind_eq_bind, Option.bind_eq_some_iff, Option.some.injEq]

theorem membersFit?_isSome : (lattice.membersFit? parameter members).isSome = true ↔
    ∀ member ∈ members, lattice.Accepts parameter member := by
  induction members with
  | nil => simp [membersFit?]
  | cons member members ih =>
    rw [List.forall_mem_cons, ← bestFit?_isSome, ← ih]
    simp [Option.isSome_iff_exists, membersFit?_cons]

theorem converting_membersFit? (h : lattice.membersFit? parameter members = some fit) :
    fit.converting = true ↔ ∃ member ∈ members, lattice.ConvertsFirst parameter member := by
  induction members generalizing fit with
  | nil =>
    cases h
    simp [Fit.exact]
  | cons member members ih =>
    obtain ⟨best, hbest, others, hoths, rfl⟩ := membersFit?_cons.mp h
    rw [List.exists_mem_cons_iff, ← converting_bestFit? hbest, ← ih hoths, Bool.or_eq_true]

/-- The types of an argument that have to fit: those that are not erroneous. -/
def membersOf (lattice : Lattice) (argument : Argument) : List SymbolId :=
  argument.symbols.filter fun member => member != lattice.erroneous

theorem mem_membersOf {argument : Argument} :
    member ∈ lattice.membersOf argument ↔ member ∈ argument.symbols ∧ member ≠ lattice.erroneous := by
  rw [membersOf, List.mem_filter, bne_iff_ne]

theorem argumentsFit?_cons {argument : Argument} :
    lattice.argumentsFit? (argument :: arguments) (parameter :: parameters) = some fit ↔
    ∃ first, lattice.membersFit? parameter (lattice.membersOf argument) = some first ∧
      ∃ others, lattice.argumentsFit? arguments parameters = some others ∧
        ⟨first.level + others.level, first.converting || others.converting⟩ = fit := by
  cases argument <;>
    simp only [argumentsFit?, argumentFit?, membersOf, Argument.symbols, List.filter_nil, membersFit?, Option.bind_eq_bind,
      Option.bind_eq_some_iff, Option.some.injEq]

/-- Arguments fit exactly if there are as many as parameters and each is accepted. -/
theorem argumentsFit?_isSome : (lattice.argumentsFit? arguments parameters).isSome = true ↔
    List.Forall₂ (fun argument parameter => ∀ member ∈ lattice.membersOf argument, lattice.Accepts parameter member)
      arguments parameters := by
  induction arguments generalizing parameters with
  | nil => cases parameters <;> simp [argumentsFit?]
  | cons argument arguments ih =>
    cases parameters with
    | nil => simp [argumentsFit?]
    | cons parameter parameters =>
      rw [List.forall₂_cons, ← membersFit?_isSome, ← ih]
      simp [Option.isSome_iff_exists, argumentsFit?_cons]

theorem length_eq_of_argumentsFit? (h : lattice.argumentsFit? arguments parameters = some fit) :
    arguments.length = parameters.length :=
  (argumentsFit?_isSome.mp (Option.isSome_of_eq_some h)).length_eq

theorem converting_argumentsFit? (h : lattice.argumentsFit? arguments parameters = some fit) :
    fit.converting = true ↔ ∃ slot ∈ arguments.zip parameters, ∃ member ∈ lattice.membersOf slot.1,
      lattice.ConvertsFirst slot.2 member := by
  induction arguments generalizing parameters fit with
  | nil =>
    cases parameters with
    | nil =>
      cases h
      simp [Fit.exact]
    | cons => nomatch h
  | cons argument arguments ih =>
    cases parameters with
    | nil => nomatch h
    | cons parameter parameters =>
      obtain ⟨first, hfst, others, hoths, rfl⟩ := argumentsFit?_cons.mp h
      rw [List.zip_cons_cons, List.exists_mem_cons_iff, ← converting_membersFit? hfst, ← ih hoths, Bool.or_eq_true]

end Lattice

end SoftTyping
