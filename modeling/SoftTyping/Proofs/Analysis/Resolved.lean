import SoftTyping.Proofs.Analysis.Aliases
import SoftTyping.Proofs.Analysis.Checked

/-!
# Resolving names in any order

The pass that binds names changes the table in which it looks them up, but nothing that is declared in it. A resolver that
reads declarations only (`ReadsDeclarations`) finds for every identifier what it finds as soon as the program is declared,
whatever names have been bound. The resolvers that every analysis has are of this kind (`readsDeclarations_of_mem_standard`);
of those that are added to them it has to be assumed.
-/

namespace SoftTyping

open Refusal

namespace Resolver

open SymbolTable

variable {table table' : SymbolTable} {use : SymbolId}

section Extends

variable (hdec : table.IsDeclared) (h : table.Extends table') (identifier : Identifier)

include h in
theorem generation_of_extends : table'.generation = table.generation :=
  (congrArg SymbolTable.generation h.frame : table'.frame.generation = table.frame.generation)

include h in
theorem enclosingNamespace_of_extends (scope : ScopeId) : table'.enclosingNamespace scope = table.enclosingNamespace scope := by
  rw [← enclosingNamespace_frame, h.frame, enclosingNamespace_frame]

include h in
theorem useNamed?_of_extends (block : ScopeId) (name : String) : table'.useNamed? block name = table.useNamed? block name := by
  rw [← useNamed?_frame, h.frame, useNamed?_frame]

include hdec h

theorem lookup_of_extends (scope : ScopeId) (name : String) :
    lookup table' identifier scope name = lookup table identifier scope name := by
  rw [lookup, lookup, find?_of_extends hdec.owned h (accepts_outline _)]

theorem throughAlias_of_extends (huse : table.IsAlias use) (rest : Option String) :
    throughAlias table' identifier use rest = throughAlias table identifier use rest := by
  obtain ⟨entry, target, he, ht, _⟩ := huse
  obtain ⟨entry', he', hout⟩ := h.symbols he
  have ht' : entry'.aliasTarget? = some target := by
    rw [← Symbol.aliasTarget?_outline, hout, Symbol.aliasTarget?_outline, ht]
  rw [throughAlias, throughAlias, symbol_eq_ok.mpr he, symbol_eq_ok.mpr he']
  simp only [bind, Except.bind, ht, ht', Symbol.position_of_outline hout]
  rw [userAbsolute_of_extends hdec.owned h rfl rfl]

omit hdec in
theorem hides_of_extends {declaration : SymbolId} {entry declared : Symbol} (huse : table.symbol? use = some entry)
    (hdeclaration : table.symbol? declaration = some declared) :
    hides table' use declaration = hides table use declaration := by
  obtain ⟨entry', he', hout⟩ := h.symbols huse
  obtain ⟨declared', hdec', hout'⟩ := h.symbols hdeclaration
  rw [hides, hides, symbol_eq_ok.mpr huse, symbol_eq_ok.mpr he', symbol_eq_ok.mpr hdeclaration, symbol_eq_ok.mpr hdec']
  simp only [bind, Except.bind, Symbol.position_of_outline hout, Symbol.position_of_outline hout',
    Symbol.scope_of_outline hout, Symbol.scope_of_outline hout']

theorem userLocal_of_extends : userLocal table' identifier = userLocal table identifier := by
  unfold userLocal
  split
  · rw [← variableScope_frame, h.frame, variableScope_frame]
    simp only [lookup_of_extends hdec h]
  · rw [enclosingNamespace_of_extends h]
    refine bind_congr fun block => ?_
    rw [lookup_of_extends hdec h]
    cases hlookup : lookup table identifier block identifier.name with
    | error fault => rfl
    | ok declared =>
      simp only [bind, Except.bind]
      split
      · rfl
      · rw [useNamed?_of_extends h]
        cases huse : table.useNamed? block identifier.name with
        | error fault => rfl
        | ok use =>
          cases use with
          | none => rfl
          | some use =>
            have hal := hdec.aliased (mem_usesOf_of_useNamed? huse)
            have hthrough := throughAlias_of_extends hdec h identifier hal none
            cases hsym : declared.symbol with
            | none => exact hthrough
            | some declaration =>
              obtain ⟨found, hf, heq⟩ := bind_eq_ok.mp hlookup
              cases heq
              cases hsym
              obtain ⟨entry, _, he, _⟩ := hal
              obtain ⟨other, hoth, _⟩ := find?_eq_some hf
              simp only [hides_of_extends h he hoth, hthrough]

theorem userFallback_of_extends : userFallback table' identifier = userFallback table identifier := by
  have hsc : table'.defaultNamespace = table.defaultNamespace := by
    rw [defaultNamespace, defaultNamespace, generation_of_extends h]
  unfold userFallback
  rw [← storageScope_frame, h.frame, storageScope_frame, hsc]
  simp only [lookup_of_extends hdec h]

theorem userRelative_of_extends : userRelative table' identifier = userRelative table identifier := by
  unfold userRelative
  rw [enclosingNamespace_of_extends h]
  refine bind_congr fun block => ?_
  have habsolute : ∀ name, userAbsolute table' identifier name = userAbsolute table identifier name :=
    fun name => userAbsolute_of_extends hdec.owned h rfl rfl
  have hnm : table'.absoluteName block identifier.name = table.absoluteName block identifier.name := by
    rw [← absoluteName_frame, h.frame, absoluteName_frame]
  cases splitHead? identifier.name with
  | none => simp only [bind, Except.bind, hnm, habsolute]
  | some parts =>
    simp only [bind, Except.bind, useNamed?_of_extends h, hnm, habsolute]
    cases huse : table.useNamed? block parts.1 with
    | error fault => rfl
    | ok use =>
      cases use with
      | none => rfl
      | some use =>
        exact throughAlias_of_extends hdec h identifier (hdec.aliased (mem_usesOf_of_useNamed? huse)) (some parts.2)

theorem coreLocal_of_extends (name : String) : coreLocal table' identifier name = coreLocal table identifier name := by
  rw [coreLocal, coreLocal, lookup_of_extends hdec h, coreScope, coreScope, generation_of_extends h]

end Extends

/-! ## What is found -/

/-- What was found, and the alias on the way to it, are symbols of a table. -/
structure Within (table : SymbolTable) (found : Resolution) : Prop where
  symbol : ∀ {id}, found.symbol = some id → ∃ entry, table.symbol? id = some entry
  throughAlias : ∀ {id}, found.throughAlias = some id → ∃ entry, table.symbol? id = some entry

variable {identifier : Identifier} {found : Resolution} {resolvers : List Resolver} {name : String}

theorem within_nothing (table : SymbolTable) : Within table .nothing := ⟨nofun, nofun⟩

theorem within_lookup {scope : ScopeId} (h : lookup table identifier scope name = .ok found) : Within table found := by
  obtain ⟨symbol, hsym, h⟩ := bind_eq_ok.mp h
  cases h
  refine ⟨fun {id} hid => ?_, nofun⟩
  cases hid
  obtain ⟨entry, he, _⟩ := find?_eq_some hsym
  exact ⟨entry, he⟩

theorem within_userAbsolute (h : userAbsolute table identifier name = .ok found) : Within table found := by
  unfold userAbsolute at h
  split at h
  · cases h
    exact within_nothing table
  · split at h
    · cases h
      exact within_nothing table
    · exact within_lookup h

theorem within_throughAlias {rest : Option String}
    (h : Resolver.throughAlias table identifier use rest = .ok found) : Within table found := by
  obtain ⟨entry, he, h⟩ := bind_eq_ok.mp h
  split at h
  · cases h
    exact within_nothing table
  · obtain ⟨absolute, habsolute, h⟩ := bind_eq_ok.mp h
    cases h
    exact ⟨(within_userAbsolute habsolute).symbol, fun huse => ⟨entry, by cases huse; exact symbol_eq_ok.mp he⟩⟩

theorem within_userLocal (h : userLocal table identifier = .ok found) : Within table found := by
  unfold userLocal at h
  split at h
  · obtain ⟨_, _, h⟩ := bind_eq_ok.mp h
    exact within_lookup h
  · obtain ⟨block, _, h⟩ := bind_eq_ok.mp h
    obtain ⟨declared, hdec, h⟩ := bind_eq_ok.mp h
    split at h
    · cases h
      exact within_lookup hdec
    · obtain ⟨use, _, h⟩ := bind_eq_ok.mp h
      split at h
      · cases h
        exact within_lookup hdec
      · exact within_throughAlias h
      · obtain ⟨hidden, _, h⟩ := bind_eq_ok.mp h
        split at h
        · exact within_throughAlias h
        · cases h
          exact within_lookup hdec

theorem within_userFallback (h : userFallback table identifier = .ok found) : Within table found := by
  unfold userFallback at h
  split at h
  · cases h
    exact within_nothing table
  · obtain ⟨storage, _, h⟩ := bind_eq_ok.mp h
    split at h
    · cases h
      exact within_nothing table
    · exact within_lookup h

theorem within_userRelative (h : userRelative table identifier = .ok found) : Within table found := by
  obtain ⟨block, _, h⟩ := bind_eq_ok.mp h
  have habsolute : ∀ {result}, (table.absoluteName block identifier.name >>= userAbsolute table identifier) = .ok result →
      Within table result := by
    intro result h
    obtain ⟨name, _, h⟩ := bind_eq_ok.mp h
    exact within_userAbsolute h
  split at h
  · obtain ⟨_, _, h⟩ := bind_eq_ok.mp h
    obtain ⟨use, _, h⟩ := bind_eq_ok.mp h
    dsimp only at h
    split at h
    · exact within_throughAlias h
    · exact habsolute h
  · exact habsolute h

theorem within_coreLocal (h : coreLocal table identifier name = .ok found) : Within table found := by
  unfold coreLocal at h
  split at h
  · cases h
    exact within_nothing table
  · exact within_lookup h

/-! ## Resolvers that read declarations only -/

/-- A way to look identifiers up goes by what is declared. It finds symbols of the table only, and it does not see what names
are bound to: in a table that extends another it finds what it finds there. -/
structure ReadsDeclarations (look : SymbolTable → Identifier → Except Fault Resolution) : Prop where
  keeps : ∀ {table table' : SymbolTable}, table.IsDeclared → table.Extends table' →
    ∀ identifier, look table' identifier = look table identifier
  within : ∀ {table : SymbolTable} {identifier : Identifier} {found : Resolution}, table.IsDeclared →
    look table identifier = .ok found → Within table found

theorem readsDeclarations_nothing : ReadsDeclarations fun _ _ => .ok .nothing :=
  ⟨fun _ _ _ => rfl, fun {table _ _} _ h => by cases h; exact within_nothing table⟩

theorem readsDeclarations_find {places : Places} (hnear : ReadsDeclarations places.near)
    (hfallback : ReadsDeclarations places.fallback) (habsolute : ReadsDeclarations places.absolute)
    (hrelative : ReadsDeclarations places.relative) : ReadsDeclarations places.find := by
  refine ⟨fun hdec hext identifier => ?_, fun {table identifier found} hdec h => ?_⟩
  · simp only [Places.find, hnear.keeps hdec hext, hfallback.keeps hdec hext, habsolute.keeps hdec hext,
      hrelative.keeps hdec hext]
  · unfold Places.find at h
    split at h
    · exact habsolute.within hdec h
    · exact hrelative.within hdec h
    · obtain ⟨near, hnr, h⟩ := bind_eq_ok.mp h
      split at h
      · cases h
        exact hnear.within hdec hnr
      · exact hfallback.within hdec h

theorem readsDeclarations_user : ReadsDeclarations user.resolve :=
  readsDeclarations_find ⟨userLocal_of_extends, fun _ => within_userLocal⟩
    ⟨userFallback_of_extends, fun _ => within_userFallback⟩
    ⟨fun hdec hext _ => userAbsolute_of_extends hdec.owned hext rfl rfl, fun _ => within_userAbsolute⟩
    ⟨userRelative_of_extends, fun _ => within_userRelative⟩

theorem readsDeclarations_superGlobals : ReadsDeclarations superGlobals.resolve := by
  refine readsDeclarations_find ⟨fun hdec hext identifier => ?_, fun {table _ _} _ h => ?_⟩ readsDeclarations_nothing
    readsDeclarations_nothing readsDeclarations_nothing
  · simp only [superGlobal, lookup_of_extends hdec hext, superGlobalScope, generation_of_extends hext]
  · dsimp only [superGlobal] at h
    split at h
    · exact within_lookup h
    · cases h
      exact within_nothing table

theorem readsDeclarations_core : ReadsDeclarations core.resolve := by
  refine readsDeclarations_find ⟨fun hdec hext identifier => coreLocal_of_extends hdec hext identifier _,
    fun _ => within_coreLocal⟩ readsDeclarations_nothing ⟨fun hdec hext identifier => ?_, fun {table _ _} _ h => ?_⟩
    readsDeclarations_nothing
  · simp only [coreAbsolute, coreLocal_of_extends hdec hext]
  · dsimp only [coreAbsolute] at h
    split at h
    · exact within_coreLocal h
    · cases h
      exact within_nothing table

theorem readsDeclarations_of_mem_standard {resolver : Resolver} (h : resolver ∈ standard) :
    ReadsDeclarations resolver.resolve := by
  simp only [standard, List.mem_cons, List.not_mem_nil, or_false] at h
  rcases h with rfl | rfl | rfl
  · exact readsDeclarations_user
  · exact readsDeclarations_superGlobals
  · exact readsDeclarations_core

section All

variable (hdec : table.IsDeclared) (hres : ∀ resolver ∈ resolvers, ReadsDeclarations resolver.resolve)

include hdec hres

/-- What resolvers find that read declarations only does not depend on what names have been bound to. -/
theorem resolveAll_of_extends (h : table.Extends table') (identifier : Identifier) :
    resolveAll resolvers table' identifier = resolveAll resolvers table identifier := by
  have hfst : ∀ last, resolveFirst table' identifier resolvers last = resolveFirst table identifier resolvers last := by
    induction resolvers with
    | nil => exact fun _ => rfl
    | cons resolver rest ih =>
      rw [List.forall_mem_cons] at hres
      intro last
      simp only [resolveFirst, hres.1.keeps hdec h, ih hres.2]
  exact hfst .nothing

theorem within_resolveAll (h : resolveAll resolvers table identifier = .ok found) : Within table found := by
  have hfst : ∀ last, Within table last → resolveFirst table identifier resolvers last = .ok found →
      Within table found := by
    clear h
    induction resolvers with
    | nil =>
      intro last hls h
      cases h
      exact hls
    | cons resolver rest ih =>
      rw [List.forall_mem_cons] at hres
      intro last hls h
      obtain ⟨first, hfst, h⟩ := bind_eq_ok.mp h
      have hwi := hres.1.within hdec hfst
      split at h
      · cases h
        exact hwi
      · refine ih hres.2 _ ?_ h
        split <;> assumption
  exact hfst .nothing (within_nothing table) h

end All

end Resolver

/-- Names are looked up in the table of a program by resolvers that read declarations only. -/
structure NameRules.Reliable (rules : NameRules) (table : SymbolTable) : Prop where
  declared : table.IsDeclared
  resolvers : ∀ resolver ∈ rules.resolvers, Resolver.ReadsDeclarations resolver.resolve

end SoftTyping
