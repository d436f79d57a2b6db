import SoftTyping.Proofs.Lattice

/-!
# Promotion

Main statement: one type promotes to another at the least number of edges that lead up to it (`promotionLevel?_shortest`). One
union covers another if every type of the other promotes to one of its own. Normalising keeps what a union covers
(`covers_normalize`), and so does extending it, as long as no two types go by one name.
-/

namespace SoftTyping.Lattice

variable {lattice : Lattice} {table : SymbolTable} {a b c : SymbolId} {u v : Union}

/-! ## Promotion -/

/-- A type promotes to another. -/
def Promotes (lattice : Lattice) (a b : SymbolId) : Prop := (lattice.promotionLevel? a b).isSome = true

theorem Promotes.refl (lattice : Lattice) (a : SymbolId) : lattice.Promotes a a := by
  rw [Promotes, promotionLevel?, if_pos rfl]
  rfl

theorem promotes_iff_path : (ofTable table).Promotes a b ↔ ∃ n, Graph.Path table.ascent n a b := by
  refine Option.isSome_iff_exists.trans ⟨fun ⟨level, hlv⟩ => ?_, fun ⟨n, hpth⟩ => ?_⟩
  · exact ⟨level, (promotionLevel?_eq_some.mp hlv).1⟩
  · obtain ⟨level, _, hdist⟩ := hpth.exists_isDistance
    exact ⟨level, promotionLevel?_eq_some.mpr hdist⟩

theorem Promotes.trans (h : (ofTable table).Promotes a b) (h' : (ofTable table).Promotes b c) :
    (ofTable table).Promotes a c := by
  obtain ⟨n, hpth⟩ := promotes_iff_path.mp h
  obtain ⟨m, hpth'⟩ := promotes_iff_path.mp h'
  exact promotes_iff_path.mpr ⟨n + m, hpth.trans hpth'⟩

/-- What a conversion costs is one level more than the least from a type that is converted to. -/
theorem conversionLevel?_eq_some {cost : Nat} : (ofTable table).conversionLevel? a b = some cost ↔
    ∃ level, cost = level + 1 ∧
      (∃ converted, table.ConvertsTo a converted ∧ (ofTable table).promotionLevel? converted b = some level) ∧
      ∀ converted other, table.ConvertsTo a converted →
        (ofTable table).promotionLevel? converted b = some other → level ≤ other := by
  unfold conversionLevel?
  cases he : Lattice.entry? (ofTable table) a with
  | none =>
    refine ⟨nofun, fun ⟨_, _, ⟨_, ⟨data, hmem, _⟩, _⟩, _⟩ => absurd hmem (entry?_eq_none he data)⟩
  | some entry =>
    obtain ⟨data, hmem, rfl⟩ := entry?_eq_some he
    have hcv : ∀ {converted}, table.ConvertsTo a converted ↔ converted ∈ data.conversions := by
      refine fun {converted} => ⟨fun ⟨data', hmem', h⟩ => ?_, fun h => ⟨data, hmem, h⟩⟩
      exact SymbolTable.mem_types_unique hmem hmem' ▸ h
    simp only [hcv, Option.map_eq_some_iff, List.min?_eq_some_iff, List.mem_filterMap, forall_exists_index, and_imp]
    grind

theorem conversionLevel?_eq_none : (ofTable table).conversionLevel? a b = none ↔
    ∀ converted, table.ConvertsTo a converted → (ofTable table).promotionLevel? converted b = none := by
  unfold conversionLevel?
  cases he : Lattice.entry? (ofTable table) a with
  | none => exact ⟨fun _ _ ⟨data, hmem, _⟩ => absurd hmem (entry?_eq_none he data), fun _ => rfl⟩
  | some entry =>
    obtain ⟨data, hmem, rfl⟩ := entry?_eq_some he
    simp only [Option.map_eq_none_iff, List.min?_eq_none_iff, List.filterMap_eq_nil_iff]
    refine ⟨fun h converted ⟨data', hmem', hconverted⟩ => ?_, fun h converted hconverted =>
      h converted ⟨data, hmem, hconverted⟩⟩
    exact h converted (SymbolTable.mem_types_unique hmem hmem' ▸ hconverted)

/-- In the lattice of any table, whatever the parents of its types are: one type promotes to another at the least number of
edges that lead up to it, at level zero exactly to itself, and not at all if no edges lead there. So the level of a detour is
not exceeded. A conversion costs one level more than the least from a type that is converted to, and there is none if no
such type promotes. -/
theorem promotionLevel?_shortest (table : SymbolTable) (a b : SymbolId) :
    (∀ level, (ofTable table).promotionLevel? a b = some level ↔
        table.Ascends level a b ∧ ∀ n, table.Ascends n a b → level ≤ n) ∧
      ((ofTable table).promotionLevel? a b = none ↔ ∀ n, ¬ table.Ascends n a b) ∧
      ((ofTable table).promotionLevel? a b = some 0 ↔ a = b) ∧
      (∀ c n m, (ofTable table).promotionLevel? a c = some n → (ofTable table).promotionLevel? c b = some m →
        ∃ level ≤ n + m, (ofTable table).promotionLevel? a b = some level) ∧
      (∀ cost, (ofTable table).conversionLevel? a b = some cost ↔ ∃ level, cost = level + 1 ∧
        (∃ converted, table.ConvertsTo a converted ∧ (ofTable table).promotionLevel? converted b = some level) ∧
        ∀ converted other, table.ConvertsTo a converted →
          (ofTable table).promotionLevel? converted b = some other → level ≤ other) ∧
      ((ofTable table).conversionLevel? a b = none ↔
        ∀ converted, table.ConvertsTo a converted → (ofTable table).promotionLevel? converted b = none) := by
  refine ⟨fun level => ?_, ?_, ?_, fun c n m hn hm => ?_, fun _ => conversionLevel?_eq_some, conversionLevel?_eq_none⟩
  · simp only [promotionLevel?_eq_some, SymbolTable.ascends_iff_path, Graph.IsDistance]
  · rw [← Option.not_isSome_iff_eq_none, ← not_exists]
    simp only [SymbolTable.ascends_iff_path]
    exact not_congr promotes_iff_path
  · rw [promotionLevel?_eq_some]
    refine ⟨fun h => ?_, fun h => h ▸ Graph.isDistance_self⟩
    cases h.1
    rfl
  · have hpath := (promotionLevel?_eq_some.mp hn).1.trans (promotionLevel?_eq_some.mp hm).1
    obtain ⟨level, hle, hdistance⟩ := hpath.exists_isDistance
    exact ⟨level, hle, promotionLevel?_eq_some.mpr hdistance⟩

/-! ## Covering -/

/-- Every type of a union promotes to one of those of another. -/
def Covers (lattice : Lattice) (u v : Union) : Prop := ∀ a ∈ v.symbols, ∃ b ∈ u.symbols, lattice.Promotes a b

theorem Covers.trans {w : Union} (h : (ofTable table).Covers u v) (h' : (ofTable table).Covers v w) :
    (ofTable table).Covers u w := by
  intro a ha
  obtain ⟨b, hb, hab⟩ := h' a ha
  obtain ⟨c, hc, hbc⟩ := h b hb
  exact ⟨c, hc, hab.trans hbc⟩

/-- What is left out of a normal union promotes to something that is not. -/
theorem covers_normalize (hlay : table.Layered) (u : Union) : (ofTable table).Covers ((ofTable table).normalize u) u := by
  intro a ha
  -- The rank falls with every step to a member above.
  induction hrank : table.rank (table.coreType? mixedName) a using Nat.strong_induction_on generalizing a with
  | _ rank ih =>
  obtain ⟨⟨name, a⟩, he, rfl⟩ := List.mem_map.mp ha
  cases hbel : u.symbols.any ((ofTable table).isBelow a) with
  | false =>
    refine ⟨a, List.mem_map.mpr ⟨(name, a), List.mem_filter.mpr ⟨he, ?_⟩, rfl⟩, .refl _ a⟩
    change (!u.symbols.any ((ofTable table).isBelow a)) = true
    rw [hbel]
    rfl
  | true =>
    obtain ⟨b, hb, hab⟩ := List.any_eq_true.mp hbel
    obtain ⟨c, hc, hbc⟩ := ih _ (hrank ▸ rank_lt_of_isBelow hlay hab) b hb rfl
    have hpm : (ofTable table).Promotes a b := (Bool.and_eq_true_iff.mp hab).2
    exact ⟨c, hc, hpm.trans hbc⟩

theorem covers_of_subset (h : ∀ entry ∈ v.members.entries, entry ∈ u.members.entries) : lattice.Covers u v := by
  intro a ha
  obtain ⟨entry, he, rfl⟩ := List.mem_map.mp ha
  exact ⟨entry.2, List.mem_map_of_mem (h entry he), .refl lattice entry.2⟩

theorem covers_of_beq (hagrees : u.Agrees v) (h : (u == v) = true) : lattice.Covers u v := by
  refine covers_of_subset fun ⟨name, a⟩ he => ?_
  obtain ⟨b, hb⟩ := Union.mem_names.mp ((Union.beq_iff_names.mp h name).mpr (Union.mem_names.mpr ⟨a, he⟩))
  exact hagrees hb he ▸ hb

end SoftTyping.Lattice
