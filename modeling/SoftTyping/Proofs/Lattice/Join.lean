import SoftTyping.Proofs.Analysis.Built
import SoftTyping.Proofs.Promotion

/-!
# Joins of unions

In a lattice without circles, normalising a union keeps the members that promote to no other, and these cover all of them. So
a union has the normal form of each part of it that covers it (`mem_normalize_of_covers`), from which follow the laws of
joining. Main statement: on the unions that hold types by their names, joining is commutative and associative, and joining a
union with itself normalises it (`join_laws`); a union that is not normal is changed by it (`join_self_ne`).
-/

namespace SoftTyping.Lattice

variable {lattice : Lattice} {table : SymbolTable} {a b : SymbolId} {u v w all : Union} {entry : String × SymbolId}

/-- The names in a union are those of its types. -/
def Keys (lattice : Lattice) (u : Union) : Prop := ∀ entry ∈ u.members.entries, lattice.nameOf? entry.2 = some entry.1

instance (lattice : Lattice) (u : Union) : Decidable (lattice.Keys u) :=
  inferInstanceAs (Decidable (∀ entry ∈ u.members.entries, lattice.nameOf? entry.2 = some entry.1))

/-- The union of some types. -/
def unionOfAll (lattice : Lattice) (types : List SymbolId) : Union :=
  (types.map lattice.unionOf).foldl Union.extend ∅

/-- All members of one union are members of another. -/
def Within (u v : Union) : Prop := ∀ entry ∈ u.members.entries, entry ∈ v.members.entries

/-! ## Normal forms -/

theorem mem_normalize : entry ∈ (lattice.normalize u).members.entries ↔
    entry ∈ u.members.entries ∧ ∀ b ∈ u.symbols, lattice.Promotes entry.2 b → b = entry.2 := by
  refine List.mem_filter.trans (and_congr_right fun _ => ?_)
  rw [Bool.not_eq_true', List.any_eq_false]
  refine forall₂_congr fun b _ => ?_
  rw [isBelow, Bool.and_eq_true, bne_iff_ne, not_and', not_not]
  exact forall_congr' fun _ => eq_comm

theorem within_normalize (u : Union) : Within (lattice.normalize u) u := fun _ he => (mem_normalize.mp he).1

theorem eq_of_promotes (hlay : table.Layered) (h : (ofTable table).Promotes a b) (h' : (ofTable table).Promotes b a) :
    a = b := by
  by_contra hne
  have hbel : ∀ {c d}, c ≠ d → (ofTable table).Promotes c d → (ofTable table).isBelow c d = true := fun hne h =>
    Bool.and_eq_true_iff.mpr ⟨bne_iff_ne.mpr hne, h⟩
  exact Nat.lt_asymm (rank_lt_of_isBelow hlay (hbel hne h)) (rank_lt_of_isBelow hlay (hbel (Ne.symm hne) h'))

/-- A union has the normal form of each part that covers it. -/
theorem mem_normalize_of_covers (hlay : table.Layered) (hks : (ofTable table).Keys v) (hwi : Within u v)
    (hcov : (ofTable table).Covers u v) :
    entry ∈ ((ofTable table).normalize u).members.entries ↔ entry ∈ ((ofTable table).normalize v).members.entries := by
  rw [mem_normalize, mem_normalize]
  constructor
  · rintro ⟨he, hmaximal⟩
    refine ⟨hwi entry he, fun b hb hpm => ?_⟩
    -- What covers `b` lies above the entry, so it is the entry.
    obtain ⟨c, hc, hbc⟩ := hcov b hb
    obtain rfl := hmaximal c hc (hpm.trans hbc)
    exact eq_of_promotes hlay hbc hpm
  · rintro ⟨he, hmaximal⟩
    obtain ⟨c, hc, hpm⟩ := hcov entry.2 (List.mem_map_of_mem he)
    obtain ⟨other, hoth, rfl⟩ := List.mem_map.mp hc
    have hsm := hmaximal other.2 (List.mem_map_of_mem (hwi other hoth)) hpm
    obtain rfl : other = entry := by
      refine Prod.ext (Option.some.inj ?_) hsm
      rw [← hks other (hwi other hoth), ← hks entry he, hsm]
    refine ⟨hoth, fun b hb => hmaximal b ?_⟩
    obtain ⟨name, hnm⟩ := Union.mem_symbols.mp hb
    exact Union.mem_symbols.mpr ⟨name, hwi _ hnm⟩

/-! ## Parts of one union -/

theorem Within.agrees (hu : Within u all) (hv : Within v all) : u.Agrees v := by
  intro name a b ha hb
  have ha' := OrderedMap.get?_eq_some_iff.mpr (hu _ ha)
  have hb' := OrderedMap.get?_eq_some_iff.mpr (hv _ hb)
  exact Option.some.inj (ha'.symm.trans hb')

theorem Within.extend (hu : Within u all) (hv : Within v all) : Within (u.extend v) all := fun entry he =>
  (Union.mem_or_mem_of_mem_extend he).elim (hu entry) (hv entry)

theorem Within.keys (h : Within u all) (hks : lattice.Keys all) : lattice.Keys u := fun entry he => hks entry (h entry he)

/-! ## Laws of joining -/

/-- Joining two parts that together cover a union gives its normal form. -/
theorem mem_join_of_covers (hlay : table.Layered) (hks : (ofTable table).Keys all) (hu : Within u all)
    (hv : Within v all)
    (hcov : ∀ entry ∈ all.members.entries,
      ∃ other, (other ∈ u.members.entries ∨ other ∈ v.members.entries) ∧ (ofTable table).Promotes entry.2 other.2) :
    entry ∈ ((ofTable table).join u v).members.entries ↔ entry ∈ ((ofTable table).normalize all).members.entries := by
  refine mem_normalize_of_covers hlay hks (hu.extend hv) fun a ha => ?_
  obtain ⟨entry, he, rfl⟩ := List.mem_map.mp ha
  obtain ⟨other, hoth, hpm⟩ := hcov entry he
  exact ⟨other.2, List.mem_map_of_mem ((Union.mem_extend (hu.agrees hv)).mpr hoth), hpm⟩

theorem exists_mem_normalize (hlay : table.Layered) (he : entry ∈ u.members.entries) :
    ∃ other ∈ ((ofTable table).normalize u).members.entries, (ofTable table).Promotes entry.2 other.2 := by
  obtain ⟨b, hb, hpm⟩ := covers_normalize hlay u entry.2 (List.mem_map_of_mem he)
  obtain ⟨other, hoth, rfl⟩ := List.mem_map.mp hb
  exact ⟨other, hoth, hpm⟩

section

variable (hlay : table.Layered) (hks : (ofTable table).Keys all) (hu : Within u all) (hv : Within v all)
include hlay hks hu hv

theorem join_comm : ((ofTable table).join u v == (ofTable table).join v u) = true := by
  have hpts : Within (v.extend u) all := hv.extend hu
  refine Union.beq_of_entries ((mem_join_of_covers hlay (hpts.keys hks) (fun entry he => ?_) (fun entry he => ?_)
    fun entry he => ?_))
  · exact (Union.mem_extend (hv.agrees hu)).mpr (.inr he)
  · exact (Union.mem_extend (hv.agrees hu)).mpr (.inl he)
  · exact ⟨entry, ((Union.mem_extend (hv.agrees hu)).mp he).symm, .refl _ _⟩

theorem join_of_covers (h : (ofTable table).Covers v u) :
    ((ofTable table).join u v == (ofTable table).normalize v) = true := by
  have hpts : Within (u.extend v) all := hu.extend hv
  have hright : Within v (u.extend v) := fun entry he => (Union.mem_extend (hu.agrees hv)).mpr (.inr he)
  refine Union.beq_of_entries (mem_normalize_of_covers hlay (hpts.keys hks) hright fun a ha => ?_).symm
  obtain ⟨name, hnm⟩ := Union.mem_symbols.mp ha
  rcases Union.mem_or_mem_of_mem_extend hnm with hnm | hnm
  · exact h a (Union.mem_symbols.mpr ⟨name, hnm⟩)
  · exact ⟨a, Union.mem_symbols.mpr ⟨name, hnm⟩, .refl _ a⟩

theorem join_assoc (hw : Within w all) : ((ofTable table).join ((ofTable table).join u v) w ==
    (ofTable table).join u ((ofTable table).join v w)) = true := by
  have huv := hu.extend hv
  have hvw := hv.extend hw
  have hmem : ∀ {entry}, entry ∈ ((u.extend v).extend w).members.entries ↔
      (entry ∈ u.members.entries ∨ entry ∈ v.members.entries) ∨ entry ∈ w.members.entries := by
    intro entry
    rw [Union.mem_extend (huv.agrees hw), Union.mem_extend (hu.agrees hv)]
  have hthree := (huv.extend hw).keys hks
  refine Union.beq_of_entries fun {entry} => Iff.trans (mem_join_of_covers hlay hthree ?_ ?_ ?_)
    (mem_join_of_covers hlay hthree ?_ ?_ ?_).symm
  · exact fun entry he => hmem.mpr (.inl ((Union.mem_extend (hu.agrees hv)).mp (within_normalize _ entry he)))
  · exact fun entry he => hmem.mpr (.inr he)
  · intro entry he
    rcases hmem.mp he with he | he
    · obtain ⟨other, hoth, hpm⟩ := exists_mem_normalize hlay ((Union.mem_extend (hu.agrees hv)).mpr he)
      exact ⟨other, .inl hoth, hpm⟩
    · exact ⟨entry, .inr he, .refl _ _⟩
  · exact fun entry he => hmem.mpr (.inl (.inl he))
  · intro entry he
    rcases (Union.mem_extend (hv.agrees hw)).mp (within_normalize _ entry he) with he | he
    · exact hmem.mpr (.inl (.inr he))
    · exact hmem.mpr (.inr he)
  · intro entry he
    rcases or_assoc.mp (hmem.mp he) with he | he
    · exact ⟨entry, .inl he, .refl _ _⟩
    · obtain ⟨other, hoth, hpm⟩ := exists_mem_normalize hlay ((Union.mem_extend (hv.agrees hw)).mpr he)
      exact ⟨other, .inr hoth, hpm⟩

end

theorem normalize_beq_iff : (lattice.normalize u == u) = true ↔
    ∀ a ∈ u.symbols, ∀ b ∈ u.symbols, lattice.Promotes a b → b = a := by
  constructor
  · intro h a ha
    obtain ⟨name, hnm⟩ := Union.mem_symbols.mp ha
    obtain ⟨b, hb⟩ := Union.mem_names.mp ((Union.beq_iff_names.mp h name).mpr (Union.mem_names.mpr ⟨a, hnm⟩))
    obtain rfl : b = a := (within_normalize u).agrees (fun _ he => he) hb hnm
    exact (mem_normalize.mp hb).2
  · refine fun h => Union.beq_of_entries fun {entry} => mem_normalize.trans (and_iff_left_of_imp fun he => ?_)
    exact h entry.2 (List.mem_map_of_mem he)

/-- Unions whose types have different names are parts of one. -/
theorem exists_within (hu : lattice.Keys u) (hv : lattice.Keys v) (hw : lattice.Keys w)
    (hdis : ∀ a ∈ u.symbols ++ v.symbols ++ w.symbols, ∀ b ∈ u.symbols ++ v.symbols ++ w.symbols,
      lattice.nameOf? a = lattice.nameOf? b → a = b) :
    ∃ all, lattice.Keys all ∧ Within u all ∧ Within v all ∧ Within w all := by
  simp only [List.mem_append, Union.mem_symbols] at hdis
  have huv : u.Agrees v := fun name a b ha hb =>
    hdis a (.inl (.inl ⟨name, ha⟩)) b (.inl (.inr ⟨name, hb⟩)) ((hu _ ha).trans (hv _ hb).symm)
  have hks : lattice.Keys (u.extend v) := fun entry he =>
    (Union.mem_or_mem_of_mem_extend he).elim (hu entry) (hv entry)
  have huvw : (u.extend v).Agrees w := by
    intro name a b ha hb
    refine hdis a (.inl ?_) b (.inr ⟨name, hb⟩) ((hks _ ha).trans (hw _ hb).symm)
    exact (Union.mem_or_mem_of_mem_extend ha).imp (⟨name, ·⟩) (⟨name, ·⟩)
  refine ⟨(u.extend v).extend w, fun entry he => ?_, fun entry he => ?_, fun entry he => ?_, fun entry he => ?_⟩
  · exact (Union.mem_or_mem_of_mem_extend he).elim (hks entry) (hw entry)
  · exact (Union.mem_extend huvw).mpr (.inl ((Union.mem_extend huv).mpr (.inl he)))
  · exact (Union.mem_extend huvw).mpr (.inl ((Union.mem_extend huv).mpr (.inr he)))
  · exact (Union.mem_extend huvw).mpr (.inr he)

/-- In the lattice of a table that libraries and passes build, of unions that hold types by their names: normalising keeps the
members that promote to no other, to one of which every member promotes, so that something is left where there is something;
normalising twice is normalising once; joining is commutative and associative, and normalises where one union covers the
other. Joined with itself, a union is equal to what it was if and only if it is normal. -/
theorem join_laws (hbuilt : table.Built) {u v w : Union} (hu : (ofTable table).Keys u) (hv : (ofTable table).Keys v)
    (hw : (ofTable table).Keys w)
    (hdistinct : ∀ a ∈ u.symbols ++ v.symbols ++ w.symbols, ∀ b ∈ u.symbols ++ v.symbols ++ w.symbols,
      (ofTable table).nameOf? a = (ofTable table).nameOf? b → a = b) :
    let lattice := ofTable table
    (∀ entry, entry ∈ (lattice.normalize u).members.entries ↔
        entry ∈ u.members.entries ∧ ∀ b ∈ u.symbols, lattice.Promotes entry.2 b → b = entry.2) ∧
      (∀ a ∈ u.symbols, ∃ b ∈ (lattice.normalize u).symbols, lattice.Promotes a b) ∧
      (u.isEmpty = false → (lattice.normalize u).isEmpty = false) ∧
      (lattice.normalize (lattice.normalize u) == lattice.normalize u) = true ∧
      (lattice.join u v == lattice.join v u) = true ∧
      (lattice.join (lattice.join u v) w == lattice.join u (lattice.join v w)) = true ∧
      (lattice.join u u == lattice.normalize u) = true ∧
      ((lattice.join u u == u) = true ↔ ∀ a ∈ u.symbols, ∀ b ∈ u.symbols, lattice.Promotes a b → b = a) ∧
      ((∀ a ∈ u.symbols, ∃ b ∈ v.symbols, lattice.Promotes a b) → (lattice.join u v == lattice.normalize v) = true) := by
  intro lattice
  have hlayered := hbuilt.layered
  obtain ⟨all, hkeys, hu, hv, hw⟩ := exists_within hu hv hw hdistinct
  have hself := join_of_covers hlayered hkeys hu hu fun a ha => ⟨a, ha, .refl lattice a⟩
  refine ⟨fun _ => mem_normalize, covers_normalize hlayered u, fun hempty => ?_, ?_, join_comm hlayered hkeys hu hv,
    join_assoc hlayered hkeys hu hv hw, hself, ?_, join_of_covers hlayered hkeys hu hv⟩
  · obtain ⟨entry, hentry⟩ := List.exists_mem_of_ne_nil _ (List.isEmpty_eq_false_iff.mp hempty)
    obtain ⟨other, hother, _⟩ := exists_mem_normalize hlayered hentry
    exact List.isEmpty_eq_false_iff.mpr (List.ne_nil_of_mem hother)
  · exact Union.beq_of_entries (mem_normalize_of_covers hlayered (hu.keys hkeys) (within_normalize u)
      (covers_normalize hlayered u))
  · rw [← normalize_beq_iff, Union.beq_iff_names, Union.beq_iff_names]
    exact forall_congr' fun name => by rw [Union.beq_iff_names.mp hself name]

/-! ## Unions of standard types -/

/-- The table of the standard types. -/
def typesTable : SymbolTable := (SymbolTable.withLibraries 0 [Library.standardTypes]).toOption.getD default

theorem built_typesTable : typesTable.Built := SymbolTable.built_withLibraries (Refusal.eq_ok_getD _ (by decide +kernel))

/-- The union of some types by their names. -/
def namedUnion (lattice : Lattice) (names : List String) : Union :=
  lattice.unionOfAll (names.filterMap lattice.typeNamed?)

/-- Joined in any order, numbers, strings and scalar types give the scalar types. -/
theorem join_laws_scalar :
    let lattice := ofTable typesTable
    let numbers := namedUnion lattice ["int", "num"]
    let strings := namedUnion lattice ["string"]
    let scalars := namedUnion lattice ["bool", "scalar"]
    (lattice.join (lattice.join numbers strings) scalars).names = ["scalar"] ∧
      (lattice.join (lattice.join numbers strings) scalars == lattice.join numbers (lattice.join strings scalars)) = true := by
  refine ⟨by decide +kernel, (join_laws built_typesTable ?_ ?_ ?_ ?_).2.2.2.2.2.1⟩
  all_goals decide +kernel

/-- A union that holds a type and one above it is not what it was when it is joined with itself. -/
theorem join_self_ne : typesTable.Built ∧ ∃ u, (ofTable typesTable).Keys u ∧
    ((ofTable typesTable).join u u == u) = false :=
  ⟨built_typesTable, namedUnion (ofTable typesTable) ["int", "num"], by decide +kernel, by decide +kernel⟩

end SoftTyping.Lattice
