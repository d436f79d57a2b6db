import SoftTyping.Proofs.Analysis.Built

/-!
# The names in declared unions

A signature may name types in any case, and the unions of an overload hold each type by the name as it is written. Main
statement: two names in the unions that libraries declare stand for one type if and only if they differ at most in case, so that
a union holds each type once, and is equal to another if and only if it has the same types, where the names are those of the
types, and else need not (`registered_unions`).
-/

namespace SoftTyping

open Text

/-- The unions that an overload takes and gives. -/
def Overload.unions (overload : Overload) : List Union := overload.result :: overload.parameters.map (·.bound)

namespace SymbolTable

variable {table table' : SymbolTable} {id type : SymbolId} {symbol : Symbol} {scope : ScopeId} {name key : String} {u v : Union}

/-- The unions of all overloads. -/
def unions (table : SymbolTable) : List Union :=
  (table.symbols.toList.flatMap fun symbol => (symbol.method?.map (·.overloads)).getD []).flatMap Overload.unions

theorem mem_unions : u ∈ table.unions ↔ ∃ id symbol data overload, table.symbol? id = some symbol ∧
    symbol.method? = some data ∧ overload ∈ data.overloads ∧ u ∈ overload.unions := by
  constructor
  · intro h
    obtain ⟨overload, hov, hu⟩ := List.mem_flatMap.mp h
    obtain ⟨symbol, hsym, hov⟩ := List.mem_flatMap.mp hov
    obtain ⟨index, hget⟩ := List.mem_iff_getElem?.mp hsym
    cases hmth : symbol.method? with
    | none => simp [hmth] at hov
    | some data =>
      rw [Array.getElem?_toList] at hget
      exact ⟨⟨table.generation, index⟩, symbol, data, overload, (if_pos rfl).trans hget, hmth, by simpa [hmth] using hov, hu⟩
  · rintro ⟨id, symbol, data, overload, hsym, hmth, hov, hu⟩
    have hmem : symbol ∈ table.symbols.toList := Array.mem_toList_iff.mpr (Array.mem_of_getElem? (symbol?_eq_some hsym).2)
    exact List.mem_flatMap.mpr ⟨overload, List.mem_flatMap.mpr ⟨symbol, hmem, by simpa [hmth] using hov⟩, hu⟩

/-- Every name in a union is that of a built-in type, the first of this name. -/
structure Keyed (table : SymbolTable) : Prop where
  represented : table.Represented
  named : ∀ {id symbol data}, table.symbol? id = some symbol → symbol.type? = some data → data.absoluteName = symbol.name
  unions : ∀ {u key type}, u ∈ table.unions → (key, type) ∈ u.members.entries → table.coreType? key = some type

/-! ## The first type of a name -/

/-- The first type of a name stays so when others are declared, and types stay types. -/
theorem coreType?_mono (h : table.Represented) (heds : table.Edits table')
    (htps : ∀ {id symbol}, table.symbol? id = some symbol →
      ∃ symbol', table'.symbol? id = some symbol' ∧ symbol'.type?.isSome = symbol.type?.isSome)
    (htp : table.coreType? name = some type) : table'.coreType? name = some type := by
  rw [coreType?_eq h.placed.rooted] at htp
  rw [coreType?_eq (heds.represented h).placed.rooted, coreScope, heds.keepsScopes.generation]
  obtain ⟨added, hadd⟩ := heds.exists_fileOf table.coreScope (lowerCase name)
  obtain ⟨hfit, before, after, hfile, hbef⟩ := List.find?_eq_some_iff_append.mp htp
  have hsm : ∀ other ∈ table.fileOf table.coreScope (lowerCase name),
      table'.fits name .insensitive (fun symbol => symbol.type?.isSome) other =
        table.fits name .insensitive (fun symbol => symbol.type?.isSome) other := by
    intro other hoth
    obtain ⟨symbol, _, hsym, _⟩ := h.kept hoth
    obtain ⟨symbol', hsym', hk⟩ := htps hsym
    simp [fits, hsym, hsym', hk]
  rw [hfile] at hsm
  refine List.find?_eq_some_iff_append.mpr ⟨?_, before, after ++ added, ?_, fun other hoth => ?_⟩
  · rw [hsm type (by simp), hfit]
  · rw [← coreScope, hadd, hfile, List.append_assoc, List.cons_append]
  · rw [hsm other (by simp [hoth])]
    exact hbef other hoth

/-! ## What a declaration does -/

namespace Keyed

variable (h : table.Keyed)

include h

/-- A change after which types have the names that they had, and overloads are those of before or of signatures. -/
theorem step (heds : table.Edits table')
    (htps : ∀ {id symbol}, table.symbol? id = some symbol →
      ∃ symbol', table'.symbol? id = some symbol' ∧ symbol'.type?.isSome = symbol.type?.isSome)
    (hnmd : ∀ {id symbol data}, table'.symbol? id = some symbol → symbol.type? = some data → data.absoluteName = symbol.name)
    (hovs : ∀ {id symbol data overload}, table'.symbol? id = some symbol → symbol.method? = some data →
      overload ∈ data.overloads → (∀ u ∈ overload.unions, u ∈ table.unions) ∨
        ∃ method signature, table.builtinOverload method signature = .ok overload) : table'.Keyed := by
  refine ⟨heds.represented h.represented, hnmd, fun {u key type} hu he => coreType?_mono h.represented heds htps ?_⟩
  obtain ⟨id, symbol, data, overload, hsym, hmth, hov, hu⟩ := mem_unions.mp hu
  obtain hold | ⟨_, _, hov⟩ := hovs hsym hmth hov
  · exact h.unions (hold u hu) he
  · obtain ⟨hpars, names, hresult⟩ := builtinUnion_of_overload hov
    rcases List.mem_cons.mp hu with rfl | hu
    · exact coreType?_of_builtinUnion hresult he
    · obtain ⟨parameter, hpar, rfl⟩ := List.mem_map.mp hu
      obtain ⟨_, hbo⟩ := hpars parameter hpar
      exact coreType?_of_builtinUnion hbo he

theorem define (hdef : SymbolTable.define scope symbol table = .ok id table') (hnew : table.IsBuiltin scope symbol) :
    table'.Keyed := by
  obtain ⟨home, _, hsyms⟩ := symbol?_define hdef
  refine h.step (Equips.define hdef hnew).edits (fun {other old} hold => ⟨old, ?_, rfl⟩) (fun {other found data} hf hdt => ?_)
    (fun {other found data overload} hf hdt hov => ?_)
  · obtain ⟨_, _, _, _, rfl, _⟩ := define_eq_ok hdef
    rw [hsyms, if_neg (ne_of_symbol? hold), hold]
  · rw [hsyms] at hf
    split at hf
    · cases hf
      exact (hnew.types data hdt).2.1
    · exact h.named hf hdt
  · rw [hsyms] at hf
    split at hf
    · cases hf
      nomatch (hnew.methods data hdt).1 ▸ hov
    · exact .inl fun u hu => mem_unions.mpr ⟨other, found, data, overload, hf, hdt, hov, hu⟩

theorem update {change : Symbol → Symbol} {x : Unit} (hup : updateSymbol id change table = .ok x table')
    (hchg : ∀ symbol, table.Furnishes symbol (change symbol)) : table'.Keyed := by
  refine h.step (Equips.update hup hchg).edits (fun {other old} hoth => ?_) (fun {other new data} hnew hdt => ?_)
    (fun {other new data overload} hnew hdt hov => ?_)
  · rw [symbol?_updateSymbol hup, hoth]
    split
    · exact ⟨_, rfl, by rw [← Option.isSome_map, (hchg old).type, Option.isSome_map]⟩
    · exact ⟨old, rfl, rfl⟩
  · obtain ⟨old, hoth, rfl | ⟨_, rfl⟩⟩ := exists_of_updateSymbol hup hnew
    · exact h.named hoth hdt
    · obtain ⟨data', hdt', hnm, _⟩ := exists_type_of_map (hchg old).type hdt
      exact hnm.symm.trans ((h.named hoth hdt').trans (hchg old).name.symm)
  · obtain ⟨old, hoth, rfl | ⟨_, rfl⟩⟩ := exists_of_updateSymbol hup hnew
    · exact .inl fun u hu => mem_unions.mpr ⟨other, _, data, overload, hoth, hdt, hov, hu⟩
    · rcases (hchg old).overloads with hsm | hovs
      · exact .inl fun u hu => mem_unions.mpr ⟨other, old, data, overload, hoth, hsm ▸ hdt, hov, hu⟩
      · exact .inr (hovs data hdt overload hov)

end Keyed

theorem keyed_new (generation : Generation) : (new generation).Keyed := by
  refine ⟨represented_new generation, fun {id symbol data} hsym hdt => ?_, fun {u key type} hu => ?_⟩
  · cases symbol_of_new (symbol?_eq_some hsym).2
    cases hdt
    rfl
  · obtain ⟨id, symbol, data, overload, hsym, hmth, _⟩ := mem_unions.mp hu
    cases symbol_of_new (symbol?_eq_some hsym).2
    nomatch hmth

theorem keyed_registered (generation : Generation) (declarations : List BuiltinDeclaration) :
    (registered generation declarations).Keyed := by
  refine keeps_of_changes (equips_registered generation declarations) (fun hequips h => ?_) (keyed_new generation)
  cases hequips with
  | define hdef hnew => exact h.define hdef hnew
  | update hup hchg => exact h.update hup hchg

/-! ## Names and types -/

theorem IsTypeNamed.unique {name' : String} (h : table.IsTypeNamed type name) (h' : table.IsTypeNamed type name') :
    name = name' := by
  obtain ⟨symbol, data, hsym, hdt, rfl⟩ := h
  obtain ⟨symbol', data', hsym', hdt', rfl⟩ := h'
  cases hsym.symm.trans hsym'
  cases hdt.symm.trans hdt'
  rfl

/-- A union holds its types by their absolute names. -/
def IsCanonical (table : SymbolTable) (u : Union) : Prop :=
  ∀ {key type}, (key, type) ∈ u.members.entries → table.IsTypeNamed type key

theorem IsCanonical.nodup_symbols (h : table.IsCanonical u) : u.symbols.Nodup := by
  refine (u.members.nodup.of_map _).map_on fun entry he other hoth heq => ?_
  exact Prod.ext ((h he).unique (heq ▸ h hoth)) heq

theorem Keyed.isTypeNamed (h : table.Keyed) (hu : u ∈ table.unions) (he : (key, type) ∈ u.members.entries) :
    ∃ name, table.IsTypeNamed type name ∧ lowerCase name = lowerCase key := by
  obtain ⟨symbol, data, hsym, hdt, storage, hfile⟩ := coreType?_eq_some (h.unions hu he)
  obtain ⟨_, _, hsym', hkey, _⟩ := h.represented.kept hfile
  cases hsym.symm.trans hsym'
  exact ⟨data.absoluteName, ⟨symbol, data, hsym, hdt, rfl⟩, by rw [h.named hsym hdt, hkey]⟩

theorem Keyed.type_eq_iff {key' : String} {type' : SymbolId} (h : table.Keyed) (hu : u ∈ table.unions) (hv : v ∈ table.unions)
    (he : (key, type) ∈ u.members.entries) (he' : (key', type') ∈ v.members.entries) :
    type = type' ↔ lowerCase key = lowerCase key' := by
  constructor
  · rintro rfl
    obtain ⟨name, hnm, hkey⟩ := h.isTypeNamed hu he
    obtain ⟨name', hnm', hkey'⟩ := h.isTypeNamed hv he'
    rw [← hkey, ← hkey', hnm.unique hnm']
  · intro hlower
    have hfst := h.unions hu he
    have hsnd := h.unions hv he'
    rw [coreType?_eq h.represented.placed.rooted] at hfst hsnd
    rw [hlower] at hfst
    exact Option.some.inj (hfst.symm.trans hsnd)

theorem Keyed.beq_iff_symbols (h : table.Keyed) (hu : u ∈ table.unions) (hv : v ∈ table.unions) (hcu : table.IsCanonical u)
    (hcv : table.IsCanonical v) : (u == v) = true ↔ ∀ type, type ∈ u.symbols ↔ type ∈ v.symbols := by
  have hsub : ∀ {u v : Union}, u ∈ table.unions → v ∈ table.unions → (∀ name ∈ u.names, name ∈ v.names) →
      ∀ type ∈ u.symbols, type ∈ v.symbols := by
    intro u v hu hv hnms type htp
    obtain ⟨key, he⟩ := Union.mem_symbols.mp htp
    obtain ⟨type', he'⟩ := Union.mem_names.mp (hnms key (Union.mem_names.mpr ⟨type, he⟩))
    exact (h.type_eq_iff hu hv he he').mpr rfl ▸ Union.mem_symbols.mpr ⟨key, he'⟩
  have hsup : ∀ {u v : Union}, table.IsCanonical u → table.IsCanonical v → (∀ type ∈ u.symbols, type ∈ v.symbols) →
      ∀ name ∈ u.names, name ∈ v.names := by
    intro u v hcu hcv htps key hkey
    obtain ⟨type, he⟩ := Union.mem_names.mp hkey
    obtain ⟨key', he'⟩ := Union.mem_symbols.mp (htps type (Union.mem_symbols.mpr ⟨key, he⟩))
    exact (hcu he).unique (hcv he') ▸ Union.mem_names.mpr ⟨type, he'⟩
  rw [Union.beq_iff_names]
  exact ⟨fun heq type => ⟨hsub hu hv (fun _ => (heq _).mp) type, hsub hv hu (fun _ => (heq _).mpr) type⟩,
    fun heq name => ⟨hsup hcu hcv (fun _ => (heq _).mp) name, hsup hcv hcu (fun _ => (heq _).mpr) name⟩⟩

/-- After declarations of libraries, made or refused, with names in any case: each name in a union of an overload stands for a
type that has this absolute name but for the case of letters; two names, of whatever unions, stand for one type if and only if
they differ at most in case; and where unions hold their types by absolute names, they hold no type twice and are equal if and
only if they have the same types. -/
theorem registered_unions (generation : Generation) (declarations : List BuiltinDeclaration) :
    let table := registered generation declarations
    (∀ {u key type}, u ∈ table.unions → (key, type) ∈ u.members.entries →
        table.coreType? key = some type ∧ ∃ name, table.IsTypeNamed type name ∧ lowerCase name = lowerCase key) ∧
      (∀ {u v key key' type type'}, u ∈ table.unions → v ∈ table.unions → (key, type) ∈ u.members.entries →
        (key', type') ∈ v.members.entries → (type = type' ↔ lowerCase key = lowerCase key')) ∧
      ∀ {u v}, u ∈ table.unions → v ∈ table.unions → table.IsCanonical u → table.IsCanonical v →
        u.symbols.Nodup ∧ ((u == v) = true ↔ ∀ type, type ∈ u.symbols ↔ type ∈ v.symbols) := by
  intro table
  have h : table.Keyed := keyed_registered generation declarations
  exact ⟨fun hu he => ⟨h.unions hu he, h.isTypeNamed hu he⟩, h.type_eq_iff,
    fun hu hv hcu hcv => ⟨hcu.nodup_symbols, h.beq_iff_symbols hu hv hcu hcv⟩⟩

/-- A signature that names a type in two ways gives a union with two names for one type, and not equal to the union of the
type. -/
theorem registered_unions_respelled :
    let table := registered 0 [.type "int" [], .method .function "f" ["-> INT | int", "-> int"]]
    ∃ u ∈ table.unions, ∃ v ∈ table.unions, u.names = ["INT", "int"] ∧ u.symbols = [⟨0, 1⟩, ⟨0, 1⟩] ∧ v.symbols = [⟨0, 1⟩] ∧
      (u == v) = false := by
  decide +kernel

end SymbolTable

end SoftTyping
