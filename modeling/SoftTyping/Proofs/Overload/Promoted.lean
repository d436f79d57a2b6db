import SoftTyping.Proofs.Lattice.Join
import SoftTyping.Proofs.Overload.Fit

/-!
# Conversions and promotions of arguments

How an argument fits tells whether a type of it is converted. It is where a conversion costs less than each promotion
(`converting_argumentFit?`), so a type that promotes may count as converted (`converting_although_promoted`). Where nothing is
converted, what promotes to an argument that fits fits as well (`argumentsFit?_of_promotes`).
-/

namespace SoftTyping

namespace Lattice

variable {lattice : Lattice} {table : SymbolTable} {parameter : ParameterType} {member : SymbolId} {fit : Fit}

/-- A type reaches a parameter through conversions only. -/
def OnlyConverts (lattice : Lattice) (parameter : ParameterType) (member : SymbolId) : Prop :=
  lattice.erroneous ∉ parameter.bound.symbols ∧ ∀ target ∈ parameter.bound.symbols, ¬ lattice.Promotes member target

theorem OnlyConverts.convertsFirst (h : lattice.OnlyConverts parameter member) (haccepts : lattice.Accepts parameter member) :
    lattice.ConvertsFirst parameter member := by
  have hno : ∀ target ∈ parameter.bound.symbols, lattice.promotionLevel? member target = none := fun target ht =>
    Option.not_isSome_iff_eq_none.mp (h.2 target ht)
  obtain ⟨target, ht, rfl | hpm | ⟨hcvb, hcv⟩⟩ := haccepts
  · exact absurd ht h.1
  · exact absurd hpm (h.2 target ht)
  · obtain ⟨cost, hcost⟩ := Option.isSome_iff_exists.mp hcv
    refine ⟨hcvb, h.1, target, ht, hno target ht, cost, hcost, fun other hoth level hlv => ?_⟩
    nomatch (hno other hoth).symm.trans hlv

/-- Where an argument fits a parameter, the fit counts as converting exactly if, of some type that is not erroneous, a
conversion to the parameter costs less than each promotion. A type that reaches the parameter through conversions only makes it
so; without such a type it is so only where a conversion costs less than a promotion. An overload counts as converting if one
of its arguments does. -/
theorem converting_argumentFit? {argument : Union} (h : lattice.argumentFit? argument parameter = some fit) :
    (fit.converting = true ↔
        ∃ member ∈ argument.symbols, member ≠ lattice.erroneous ∧ lattice.ConvertsFirst parameter member) ∧
      ((∃ member ∈ argument.symbols, member ≠ lattice.erroneous ∧ lattice.OnlyConverts parameter member) →
        fit.converting = true) ∧
      (fit.converting = true →
        (∃ member ∈ argument.symbols, member ≠ lattice.erroneous ∧ lattice.OnlyConverts parameter member) ∨
        ∃ member ∈ argument.symbols, member ≠ lattice.erroneous ∧ ∃ target ∈ parameter.bound.symbols,
          ∃ other ∈ parameter.bound.symbols, ∃ cost level, lattice.conversionLevel? member target = some cost ∧
            lattice.promotionLevel? member other = some level ∧ cost < level) ∧
      ∀ arguments (overload : Overload) total, lattice.argumentsFit? arguments overload.parameters = some total →
        (total.converting = true ↔ ∃ slot ∈ arguments.zip overload.parameters, ∃ member ∈ lattice.membersOf slot.1,
          lattice.ConvertsFirst slot.2 member) := by
  have hmembers : lattice.membersFit? parameter (lattice.membersOf (.typed argument)) = some fit := h
  have hiff := converting_membersFit? hmembers
  simp only [mem_membersOf, Argument.symbols, and_assoc] at hiff
  refine ⟨hiff, ?_, fun hcvg => ?_, fun _ _ _ => converting_argumentsFit?⟩
  · rintro ⟨member, hmember, hne, honly⟩
    have haccepts := membersFit?_isSome.mp (Option.isSome_of_eq_some hmembers) member (mem_membersOf.mpr ⟨hmember, hne⟩)
    exact hiff.mpr ⟨member, hmember, hne, honly.convertsFirst haccepts⟩
  · obtain ⟨member, hmember, hne, hfst⟩ := hiff.mp hcvg
    by_cases honly : lattice.OnlyConverts parameter member
    · exact .inl ⟨member, hmember, hne, honly⟩
    · obtain ⟨_, herr, target, ht, _, cost, hcost, hcheaper⟩ := hfst
      obtain ⟨other, hoth, hpm⟩ : ∃ other ∈ parameter.bound.symbols, lattice.Promotes member other := by
        simpa [OnlyConverts, herr] using honly
      obtain ⟨level, hlv⟩ := Option.isSome_iff_exists.mp hpm
      exact .inr ⟨member, hmember, hne, target, ht, other, hoth, cost, level, hcost, hlv, hcheaper other hoth level hlv⟩

/-- The lattice of the standard types and conversions. -/
def standardLattice : Lattice :=
  ofTable ((SymbolTable.withLibraries 0 [Library.standardTypes ++ Library.standardConversions]).toOption.getD default)

/-- A Boolean value is converted to be a number. -/
theorem converting_argumentFit?_bool :
    let numbers : ParameterType := ⟨namedUnion standardLattice ["int", "float"], true⟩
    standardLattice.argumentFit? (namedUnion standardLattice ["int", "bool"]) numbers = some ⟨1, true⟩ ∧
      ∃ member ∈ (namedUnion standardLattice ["int", "bool"]).symbols, member ≠ standardLattice.erroneous ∧
        standardLattice.ConvertsFirst numbers member := by
  intro numbers
  have hfit : standardLattice.argumentFit? (namedUnion standardLattice ["int", "bool"]) numbers = some ⟨1, true⟩ := by
    decide +kernel
  exact ⟨hfit, (converting_argumentFit? hfit).1.mp rfl⟩

/-- A whole number, which promotes to a scalar value, counts as converted where a text is accepted as well. -/
theorem converting_although_promoted :
    let parameter : ParameterType := ⟨namedUnion standardLattice ["scalar", "string"], true⟩
    let whole := namedUnion standardLattice ["int"]
    standardLattice.argumentFit? whole parameter = some ⟨1, true⟩ ∧
      ¬ ∃ member ∈ whole.symbols, member ≠ standardLattice.erroneous ∧ standardLattice.OnlyConverts parameter member := by
  intro parameter whole
  refine ⟨by decide +kernel, ?_⟩
  unfold OnlyConverts Promotes
  decide +kernel

/-! ## Arguments that promote -/

variable {below above : List Argument} {parameters : List ParameterType} {a b : SymbolId}

/-- Every type that one argument may have promotes to one that another may have. -/
def Below (lattice : Lattice) (first second : Argument) : Prop :=
  ∀ a ∈ first.symbols, ∃ b ∈ second.symbols, lattice.Promotes a b

theorem eq_erroneous_of_promotes (hbuilt : table.Built) (h : (ofTable table).Promotes a (ofTable table).erroneous) :
    a = (ofTable table).erroneous := by
  obtain ⟨n, hpth⟩ := promotes_iff_path.mp h
  cases n with
  | zero =>
    cases hpth
    rfl
  | succ n =>
    obtain ⟨b, _, hed⟩ := hpth.exists_last
    exact absurd (SymbolTable.mem_ascent.mp hed) hbuilt.not_hasParent

theorem Accepts.of_promotes (hcvb : parameter.convertible = false) (h : (ofTable table).Accepts parameter b)
    (hpm : (ofTable table).Promotes a b) : (ofTable table).Accepts parameter a := by
  obtain ⟨target, ht, rfl | hpm' | ⟨hcv, _⟩⟩ := h
  · exact ⟨_, ht, .inl rfl⟩
  · exact ⟨target, ht, .inr (.inl (hpm.trans hpm'))⟩
  · nomatch hcvb.symm.trans hcv

theorem isSome_argumentsFit?_of_below (hbuilt : table.Built) (hpn : ∀ parameter ∈ parameters, parameter.convertible = false)
    (hbel : List.Forall₂ (ofTable table).Below below above)
    (h : ((ofTable table).argumentsFit? above parameters).isSome = true) :
    ((ofTable table).argumentsFit? below parameters).isSome = true := by
  rw [argumentsFit?_isSome] at h ⊢
  induction hbel generalizing parameters with
  | nil => exact h
  | cons hfst _ ih =>
    cases h with
    | cons haccepts hrs =>
      obtain ⟨hcvb, hpn⟩ := List.forall_mem_cons.mp hpn
      refine .cons (fun member hmember => ?_) (ih hpn hrs)
      obtain ⟨hsym, hne⟩ := mem_membersOf.mp hmember
      obtain ⟨b, hb, hpm⟩ := hfst member hsym
      refine .of_promotes hcvb (haccepts b (mem_membersOf.mpr ⟨hb, ?_⟩)) hpm
      rintro rfl
      exact hne (eq_erroneous_of_promotes hbuilt hpm)

/-- In the lattice of a table that libraries and passes build, and for an overload that converts nothing: where all types of
arguments promote to types of others and these fit, they fit as well, without conversions; and an argument may be replaced by
its normal form. -/
theorem argumentsFit?_of_promotes (hbuilt : table.Built) {overload : Overload}
    (hconvertible : overload.hasConvertibleParameters = false) :
    let lattice := ofTable table
    (∀ below above, List.Forall₂ lattice.Below below above → (lattice.argumentsFit? above overload.parameters).isSome = true →
        ∃ level, lattice.argumentsFit? below overload.parameters = some ⟨level, false⟩) ∧
      ∀ before union after,
        (lattice.argumentsFit? (before ++ .typed (lattice.normalize union) :: after) overload.parameters).isSome =
          (lattice.argumentsFit? (before ++ .typed union :: after) overload.parameters).isSome := by
  intro lattice
  have hpars : ∀ parameter ∈ overload.parameters, parameter.convertible = false := by
    simpa [Overload.hasConvertibleParameters] using hconvertible
  have hreplace : ∀ {first second : Union}, lattice.Covers second first → ∀ before after,
      (lattice.argumentsFit? (before ++ .typed second :: after) overload.parameters).isSome = true →
      (lattice.argumentsFit? (before ++ .typed first :: after) overload.parameters).isSome = true := by
    intro first second hcov before after
    have hsm : ∀ arguments, List.Forall₂ lattice.Below arguments arguments := fun arguments =>
      List.forall₂_same.mpr fun argument _ a ha => ⟨a, ha, .refl lattice a⟩
    exact isSome_argumentsFit?_of_below hbuilt hpars (List.rel_append (hsm before) (.cons hcov (hsm after)))
  refine ⟨fun below above hbel habove => ?_, fun before union after => ?_⟩
  · obtain ⟨⟨level, converting⟩, hfit⟩ :=
      Option.isSome_iff_exists.mp (isSome_argumentsFit?_of_below hbuilt hpars hbel habove)
    obtain rfl : converting = false := by
      rw [Bool.eq_false_iff]
      intro hcvg
      obtain ⟨slot, hslot, _, _, hcvb, _⟩ := (converting_argumentsFit? hfit).mp hcvg
      nomatch (hpars slot.2 (List.of_mem_zip hslot).2).symm.trans hcvb
    exact ⟨level, hfit⟩
  · rw [Bool.eq_iff_iff]
    refine ⟨hreplace (covers_normalize hbuilt.layered union) before after, hreplace (covers_of_subset ?_) before after⟩
    exact within_normalize union

/-- Whole numbers and texts fit where numbers and scalar values do. -/
theorem argumentsFit?_of_promotes_numbers :
    let lattice := ofTable typesTable
    let arguments := fun names : List (List String) => names.map fun names => Argument.typed (namedUnion lattice names)
    let overload : Overload := ⟨⟨0, 0⟩, [⟨namedUnion lattice ["num"], false⟩, ⟨namedUnion lattice ["mixed"], false⟩], ∅⟩
    typesTable.Built ∧ overload.hasConvertibleParameters = false ∧
      ∃ level, lattice.argumentsFit? (arguments [["int"], ["string", "int"]]) overload.parameters = some ⟨level, false⟩ := by
  intro lattice arguments overload
  refine ⟨built_typesTable, rfl, ?_⟩
  refine (argumentsFit?_of_promotes built_typesTable rfl).1 (arguments [["int"], ["string", "int"]])
    (arguments [["num"], ["scalar"]]) (.cons ?_ (.cons ?_ .nil)) ?_
  · unfold Below Promotes
    decide +kernel
  · unfold Below Promotes
    decide +kernel
  · decide +kernel

end Lattice

end SoftTyping
