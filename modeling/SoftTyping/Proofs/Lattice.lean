import Mathlib.Data.Finset.Max
import SoftTyping.Lattice
import SoftTyping.Proofs.Graph
import SoftTyping.Proofs.SymbolTable.Libraries

/-!
# The lattice of a table

A type promotes to another at the level of their distance along the edges to parents (`promotionLevel?_eq_some`). Where the
parents of types are primitive and were declared before them, and classes have none (`Layered`), no chain of edges leads back
(`rank_lt`). So a union that has members has one that lies below no other, which normalising keeps: what has a type keeps one
(`keepsTypes_ofTable`).
-/

namespace SoftTyping

open SymbolTable

namespace SymbolTable

variable {table : SymbolTable} {id parent : SymbolId} {data : TypeData} {mixed : Option SymbolId} {symbol : Symbol}

theorem mem_types : (id, data) ∈ table.types ↔ ∃ symbol, table.symbol? id = some symbol ∧ symbol.type? = some data := by
  unfold types allSymbols
  simp only [List.mem_filterMap, List.mem_map, Prod.exists]
  constructor
  · rintro ⟨_, symbol, ⟨_, index, hmem, heq⟩, hdt⟩
    obtain ⟨rfl, rfl⟩ := Prod.mk.inj heq
    obtain ⟨found, hf, heq⟩ := Option.map_eq_some_iff.mp hdt
    obtain ⟨rfl, rfl⟩ := Prod.mk.inj heq
    refine ⟨_, ?_, hf⟩
    rw [symbol?, if_pos rfl]
    simpa using List.mem_zipIdx_iff_getElem?.mp hmem
  · rintro ⟨symbol, hsym, hdt⟩
    obtain ⟨hgen, hget⟩ := symbol?_eq_some hsym
    refine ⟨id, symbol, ⟨symbol, id.index, ?_, ?_⟩, by rw [hdt, Option.map_some]⟩
    · rw [List.mem_zipIdx_iff_getElem?]
      simpa using hget
    · rw [← hgen]

theorem find?_types {id' : SymbolId} (h : table.types.find? (fun entry => entry.1 = id) = some (id', data)) :
    id' = id ∧ ∃ symbol, table.symbol? id = some symbol ∧ symbol.type? = some data := by
  have hid : id' = id := by simpa using List.find?_some h
  subst hid
  exact ⟨rfl, mem_types.mp (List.mem_of_find?_eq_some h)⟩

theorem mem_types_unique {data' : TypeData} (h : (id, data) ∈ table.types) (h' : (id, data') ∈ table.types) : data = data' := by
  obtain ⟨symbol, hsym, hdt⟩ := mem_types.mp h
  obtain ⟨symbol', hsym', hdt'⟩ := mem_types.mp h'
  cases hsym.symm.trans hsym'
  exact Option.some.inj (hdt.symm.trans hdt')

/-- The edges of the lattice: a type lies below those of its parents that are types, and a class without parents below the
type of all values, unless it is that type. -/
def HasParent (table : SymbolTable) (id parent : SymbolId) : Prop :=
  ∃ data parentData, (id, data) ∈ table.types ∧ (parent, parentData) ∈ table.types ∧
    (parent ∈ data.parents ∨
      data.parents = [] ∧ data.kind = .classType ∧ table.coreType? mixedName = some parent ∧ parent ≠ id)

/-- The parents of a type in the lattice of a table. -/
abbrev ascent (table : SymbolTable) : SymbolId → List SymbolId := parentsOf table.types (table.coreType? mixedName)

theorem mem_ascent : parent ∈ table.ascent id ↔ table.HasParent id parent := by
  unfold ascent parentsOf
  split
  · next hfind =>
    refine ⟨nofun, fun ⟨data, _, hmem, _⟩ => ?_⟩
    exact absurd (List.find?_eq_none.mp hfind _ hmem) (by simp)
  · next id' data hfind =>
    obtain ⟨rfl, htp⟩ := find?_types hfind
    have hmem : (id', data) ∈ table.types := mem_types.mpr htp
    have hisType : table.types.any (fun entry => entry.1 = parent) = true ↔
        ∃ parentData, (parent, parentData) ∈ table.types := by
      simp
    have hlsd : parent ∈ (if data.parents.isEmpty && data.kind = .classType then
          ((table.coreType? mixedName).filter (fun top => top != id')).toList else data.parents) ↔
        parent ∈ data.parents ∨
          data.parents = [] ∧ data.kind = .classType ∧ table.coreType? mixedName = some parent ∧ parent ≠ id' := by
      split
      · next hclass =>
        obtain ⟨hnil, hk⟩ : data.parents = [] ∧ data.kind = .classType := by simpa using hclass
        simp [hnil, hk, Option.filter_eq_some_iff]
      · next hclass =>
        refine ⟨.inl, fun h => h.resolve_right fun ⟨hnil, hk, _⟩ => hclass ?_⟩
        simp [hnil, hk]
    rw [List.mem_filter, hisType, hlsd]
    constructor
    · rintro ⟨h, parentData, hprt⟩
      exact ⟨data, parentData, hmem, hprt, h⟩
    · rintro ⟨data', parentData, hmem', hprt, h⟩
      cases mem_types_unique hmem hmem'
      exact ⟨h, parentData, hprt⟩

/-- As many edges as some number lead from one type up to another. -/
inductive Ascends (table : SymbolTable) : Nat → SymbolId → SymbolId → Prop where
  | refl (id : SymbolId) : Ascends table 0 id id
  | step {n : Nat} {id parent top : SymbolId} (edge : table.HasParent id parent) (rest : Ascends table n parent top) :
    Ascends table (n + 1) id top

theorem ascends_iff_path {n : Nat} {a b : SymbolId} : table.Ascends n a b ↔ Graph.Path table.ascent n a b := by
  constructor <;> intro h
  · induction h with
    | refl id => exact .refl id
    | step edge _ ih => exact .step (mem_ascent.mpr edge) ih
  · induction h with
    | refl id => exact .refl id
    | step edge _ ih => exact .step (mem_ascent.mp edge) ih

/-- A conversion to another type has been declared for a type. -/
def ConvertsTo (table : SymbolTable) (id target : SymbolId) : Prop :=
  ∃ data, (id, data) ∈ table.types ∧ target ∈ data.conversions

/-- The parents of a type are primitive and were declared before it, and a class has none. -/
structure Layered (table : SymbolTable) : Prop where
  classes : ∀ {id data}, (id, data) ∈ table.types → data.kind = .classType → data.parents = []
  parents : ∀ {id data}, (id, data) ∈ table.types → ∀ parent ∈ data.parents,
    parent.index < id.index ∧ table.IsPrimitive parent.index

theorem Sound.layered (h : table.Sound) : table.Layered := by
  refine ⟨fun hmem => ?_, fun hmem => ?_⟩ <;> obtain ⟨symbol, hsym, hdt⟩ := mem_types.mp hmem
  · exact (h.admits (symbol?_eq_some hsym).2).classes _ hdt
  · exact (h.admits (symbol?_eq_some hsym).2).parents _ hdt

/-- A number that falls along every edge to a parent: the place of a primitive type; classes come behind all of these,
but for one that stands for all values. -/
def rank (table : SymbolTable) (mixed : Option SymbolId) (id : SymbolId) : Nat :=
  if table.types.any (fun entry => decide (entry.1 = id ∧ entry.2.kind = .classType)) then
    if mixed = some id then 0 else table.symbols.size + 1
  else id.index

theorem rank_of_class (hsym : table.symbol? id = some symbol)
    (hdt : symbol.type? = some data) (hk : data.kind = .classType) (hmixed : mixed ≠ some id) :
    table.rank mixed id = table.symbols.size + 1 := by
  unfold rank
  rw [if_pos, if_neg hmixed]
  exact List.any_eq_true.mpr ⟨(id, data), mem_types.mpr ⟨symbol, hsym, hdt⟩, decide_eq_true ⟨rfl, hk⟩⟩

theorem rank_of_primitive (h : ∀ symbol data, table.symbol? id = some symbol →
    symbol.type? = some data → data.kind ≠ .classType) : table.rank mixed id = id.index := by
  unfold rank
  rw [if_neg]
  intro hany
  obtain ⟨⟨other, data⟩, hmem, he⟩ := List.any_eq_true.mp hany
  obtain ⟨rfl, hk⟩ := of_decide_eq_true he
  obtain ⟨symbol, hsym, hdt⟩ := mem_types.mp hmem
  exact h symbol data hsym hdt hk

theorem rank_le_size (hmixed : mixed = some id)
    (hsym : table.symbol? id = some symbol) : table.rank mixed id ≤ table.symbols.size := by
  unfold rank
  rw [if_pos hmixed]
  have := (Array.getElem?_eq_some_iff.mp (symbol?_eq_some hsym).2).1
  split <;> omega

/-- The rank falls along every edge to a parent. -/
theorem rank_lt (hlay : table.Layered) (h : parent ∈ table.ascent id) :
    table.rank (table.coreType? mixedName) parent < table.rank (table.coreType? mixedName) id := by
  obtain ⟨data, parentData, hmem, hprt, hed⟩ := mem_ascent.mp h
  obtain ⟨symbol, hsym, hdt⟩ := mem_types.mp hmem
  obtain hed | ⟨_, hk, hmixed, hne⟩ := hed
  · -- A parent that is written down is primitive, and so is the type itself.
    obtain ⟨hlt, parentSymbol, parentData', hget, hprtData, hprtKind⟩ := hlay.parents hmem parent hed
    have hk : data.kind ≠ .classType := by
      intro hk
      rw [hlay.classes hmem hk] at hed
      nomatch hed
    rw [rank_of_primitive, rank_of_primitive]
    · exact hlt
    · intro symbol' data' hsym' hdt'
      cases mem_types_unique hmem (mem_types.mpr ⟨symbol', hsym', hdt'⟩)
      exact hk
    · intro symbol' data' hsym' hdt'
      cases hget.symm.trans (symbol?_eq_some hsym').2
      cases hprtData.symm.trans hdt'
      exact hprtKind
  · -- A class without parents lies below the type of all values.
    obtain ⟨parentSymbol, hprtSymbol, _⟩ := mem_types.mp hprt
    have htop : table.coreType? mixedName ≠ some id := by
      rw [hmixed]
      exact fun heq => hne (Option.some.inj heq)
    rw [rank_of_class hsym hdt hk htop]
    exact Nat.lt_succ_of_le (rank_le_size hmixed hprtSymbol)

end SymbolTable

namespace Lattice

variable {table : SymbolTable} {a b : SymbolId}

/-! ## Promotion -/

theorem entry?_eq_some {entry : LatticeEntry} (h : Lattice.entry? (ofTable table) a = some entry) :
    ∃ data, (a, data) ∈ table.types ∧ entry = ⟨a, data.absoluteName, data.conversions,
      Graph.distances table.ascent table.types.length a⟩ := by
  have hid : entry.id = a := by simpa using List.find?_some h
  obtain ⟨⟨id, data⟩, hmem, rfl⟩ := List.mem_map.mp (List.mem_of_find?_eq_some h)
  cases hid
  exact ⟨data, hmem, rfl⟩

theorem entry?_eq_none (h : Lattice.entry? (ofTable table) a = none) (data : TypeData) : (a, data) ∉ table.types := by
  intro hmem
  exact absurd (List.find?_eq_none.mp h _ (List.mem_map_of_mem hmem)) (by simp)

theorem nameOf?_ofTable {name : String} : (ofTable table).nameOf? a = some name ↔ table.IsTypeNamed a name := by
  constructor
  · intro h
    obtain ⟨entry, he, rfl⟩ := Option.map_eq_some_iff.mp h
    obtain ⟨data, hmem, rfl⟩ := entry?_eq_some he
    obtain ⟨symbol, hsym, hdt⟩ := mem_types.mp hmem
    exact ⟨symbol, data, hsym, hdt, rfl⟩
  · rintro ⟨symbol, data, hsym, hdt, rfl⟩
    have hmem : (a, data) ∈ table.types := mem_types.mpr ⟨symbol, hsym, hdt⟩
    cases he : Lattice.entry? (ofTable table) a with
    | none => exact absurd hmem (entry?_eq_none he data)
    | some entry =>
      obtain ⟨data', hmem', rfl⟩ := entry?_eq_some he
      rw [nameOf?, he, mem_types_unique hmem hmem']
      rfl

/-- A type promotes to another at their distance in the lattice. -/
theorem promotionLevel?_eq_some {level : Nat} :
    (ofTable table).promotionLevel? a b = some level ↔ Graph.IsDistance table.ascent level a b := by
  unfold promotionLevel?
  split
  · next heq =>
    subst heq
    exact ⟨fun h => Option.some.inj h ▸ Graph.isDistance_self, fun h => congrArg some (Graph.isDistance_self.eq h)⟩
  · next hne =>
    split
    · next he =>
      refine ⟨nofun, fun ⟨hpth, _⟩ => ?_⟩
      cases hpth with
      | refl => exact absurd rfl hne
      | step edge _ =>
        obtain ⟨data, _, hmem, _⟩ := mem_ascent.mp edge
        exact absurd hmem (entry?_eq_none he data)
    · next entry he =>
      obtain ⟨data, _, rfl⟩ := entry?_eq_some he
      constructor
      · intro h
        obtain ⟨found, hf, rfl⟩ := Option.map_eq_some_iff.mp h
        obtain rfl : found.1 = b := by simpa using List.find?_some hf
        exact (Graph.mem_distances.mp (List.mem_of_find?_eq_some hf)).1
      · intro hdist
        have hbo : level ≤ table.types.length := by
          rw [← List.length_map Prod.fst]
          refine hdist.le_length fun c d hed => ?_
          obtain ⟨_, parentData, _, hprt, _⟩ := mem_ascent.mp hed
          exact List.mem_map_of_mem hprt
        have hmem : (b, level) ∈ Graph.distances table.ascent table.types.length a :=
          Graph.mem_distances.mpr ⟨hdist, hbo⟩
        have hso : ((Graph.distances table.ascent table.types.length a).find? (fun ancestor => ancestor.1 = b)).isSome = true :=
          List.find?_isSome.mpr ⟨(b, level), hmem, decide_eq_true rfl⟩
        obtain ⟨found, hf⟩ := Option.isSome_iff_exists.mp hso
        obtain rfl : found.1 = b := by simpa using List.find?_some hf
        rw [hf, Option.map_some, (Graph.mem_distances.mp (List.mem_of_find?_eq_some hf)).1.eq hdist]

theorem rank_lt_of_isBelow (hlay : table.Layered) (h : (ofTable table).isBelow a b = true) :
    table.rank (table.coreType? mixedName) b < table.rank (table.coreType? mixedName) a := by
  obtain ⟨hne, hlv⟩ := Bool.and_eq_true_iff.mp h
  obtain ⟨level, hlv⟩ := Option.isSome_iff_exists.mp hlv
  have hpth := (promotionLevel?_eq_some.mp hlv).1
  have hle := hpth.rank_add_le fun _ _ hed => rank_lt hlay hed
  cases level with
  | zero =>
    cases hpth
    simp at hne
  | succ level => omega

/-! ## Unions that have members -/

/-- Nothing that has a type is left without one. -/
structure KeepsTypes (lattice : Lattice) : Prop where
  normalize : ∀ union : Union, union.isEmpty = false → (lattice.normalize union).isEmpty = false
  erroneous : lattice.erroneousUnion.isEmpty = false
  mixed : lattice.mixedUnion.isEmpty = false

theorem isEmpty_normalize {lattice : Lattice} (h : lattice.KeepsTypes) (union : Union) :
    (lattice.normalize union).isEmpty = union.isEmpty := by
  cases hem : union.isEmpty with
  | false => exact h.normalize union hem
  | true =>
    have hnil : union.members.entries = [] := List.isEmpty_iff.mp hem
    simp [Lattice.normalize, Union.filter, OrderedMap.filter, Union.isEmpty, OrderedMap.isEmpty, hnil]

theorem isEmpty_unionOf {symbol : Symbol} {data : TypeData} (hsym : table.symbol? a = some symbol)
    (hdt : symbol.type? = some data) : ((ofTable table).unionOf a).isEmpty = false := by
  rw [unionOf, nameOf?_ofTable.mpr ⟨symbol, data, hsym, hdt, rfl⟩]
  rfl

/-- In the lattice of a sound table, nothing that has a type is left without one. -/
theorem keepsTypes_ofTable (hsd : table.Sound) : (ofTable table).KeepsTypes := by
  have herr : (ofTable table).erroneousUnion.isEmpty = false := by
    obtain ⟨symbol, hsym, htp⟩ := hsd.erroneous
    obtain ⟨data, hdt⟩ := Option.isSome_iff_exists.mp htp
    have hfst : table.symbol? table.erroneousType = some symbol := (if_pos rfl).trans hsym
    exact isEmpty_unionOf hfst hdt
  refine ⟨fun union hun => ?_, herr, ?_⟩
  · -- A member of the lowest rank lies below no other.
    obtain ⟨first, rest, hes⟩ := List.exists_cons_of_ne_nil (List.isEmpty_eq_false_iff.mp hun)
    have hne : union.members.entries.toFinset.Nonempty := ⟨first, by simp [hes]⟩
    obtain ⟨least, hleast, hmin⟩ := union.members.entries.toFinset.exists_min_image
      (fun entry => table.rank (table.coreType? mixedName) entry.2) hne
    have hmem : least ∈ ((ofTable table).normalize union).members.entries := by
      refine List.mem_filter.mpr ⟨List.mem_toFinset.mp hleast, ?_⟩
      rw [Bool.not_eq_true', List.any_eq_false]
      intro other hoth hbel
      obtain ⟨entry, he, rfl⟩ := List.mem_map.mp hoth
      exact Nat.not_lt.mpr (hmin entry (List.mem_toFinset.mpr he)) (rank_lt_of_isBelow hsd.layered hbel)
    exact List.isEmpty_eq_false_iff.mpr (List.ne_nil_of_mem hmem)
  · unfold mixedUnion
    split
    · next mixed hmixed =>
      obtain ⟨symbol, data, hsym, hdt, _⟩ := coreType?_eq_some hmixed
      exact isEmpty_unionOf hsym hdt
    · exact herr

end Lattice

end SoftTyping
