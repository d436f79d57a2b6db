import SoftTyping.Analyser
import SoftTyping.Proofs.SymbolTable.Represented

/-!
# Tables in which libraries are declared

The table with which a run starts is sound (`sound_withLibraries`): as long as only libraries are declared there are no
classes, so that the types that a declaration names are primitive, and they were declared before, under this name but for
the case of letters.
-/

namespace SoftTyping.SymbolTable

open Refusal SymbolTable Step

variable {table table' : SymbolTable} {id : SymbolId} {name : String} {libraries : List Library} {generation : Generation}
  {scope : ScopeId} {symbol : Symbol} {library : Library} {u : Unit} {R : SymbolTable → SymbolTable → Prop}
  {change : Symbol → Symbol} {fault : Fault}

/-! ## Looking up built-ins -/

theorem find?_eq_some {rule : CaseRule} {accept : Symbol → Bool} (h : table.find? scope name rule accept = .ok (some id)) :
    ∃ symbol, table.symbol? id = some symbol ∧ accept symbol = true ∧
      ∃ storage, id ∈ table.fileOf storage (Text.lowerCase name) := by
  obtain ⟨named, hnmd, hf⟩ := bind_eq_ok.mp h
  have hmem := List.mem_of_find?_eq_some (Except.ok.inj hf)
  obtain ⟨storage, _, hnmd⟩ := bind_eq_ok.mp hnmd
  obtain ⟨entry, he, hnmd⟩ := bind_eq_ok.mp hnmd
  cases hnmd
  have hfits := List.find?_some (Except.ok.inj hf)
  unfold fits at hfits
  split at hfits
  · next symbol hsym =>
    refine ⟨symbol, hsym, (Bool.and_eq_true_iff.mp hfits).2, storage, ?_⟩
    rwa [fileOf, scope_eq_ok.mp he, Option.bind_some]
  · cases hfits

theorem coreType?_eq (h : table.Rooted) (name : String) :
    table.coreType? name = (table.fileOf table.coreScope (Text.lowerCase name)).find?
      (table.fits name .insensitive fun symbol => symbol.type?.isSome) := by
  obtain ⟨entry, path, he, hk⟩ := h.special 1 (by omega)
  have hself := storageScope_of_home (h.home_self he (by rw [Scope.isConditional, hk]))
  rw [hk] at hself
  rw [coreType?, findCore?, coreScope, find?_eq_ok hself he]

theorem coreType?_eq_some (h : table.coreType? name = some id) :
    ∃ symbol data, table.symbol? id = some symbol ∧ symbol.type? = some data ∧
      ∃ storage, id ∈ table.fileOf storage (Text.lowerCase name) := by
  unfold coreType? findCore? at h
  split at h
  · next found hf =>
    subst h
    obtain ⟨symbol, hsym, htp, hfile⟩ := find?_eq_some hf
    obtain ⟨data, hdt⟩ := Option.isSome_iff_exists.mp htp
    exact ⟨symbol, data, hsym, hdt, hfile⟩
  · nomatch h

theorem builtinType_eq_ok (h : table.builtinType name = .ok id) : table.coreType? name = some id := by
  unfold builtinType at h
  split at h
  · next hf => rw [hf, Except.ok.inj h]
  · nomatch h

theorem builtinUnion_single {union : Union} (h : table.builtinUnion [name] = .ok union) :
    ∃ type, union = .single name type := by
  unfold builtinUnion at h
  rw [List.foldlM_cons] at h
  obtain ⟨next, hnx, h⟩ := bind_eq_ok.mp h
  obtain ⟨type, _, hun⟩ := bind_eq_ok.mp hnx
  cases hun
  cases h
  exact ⟨type, rfl⟩

theorem coreType?_of_builtinUnion {names : List String} {union : Union} {key : String} {type : SymbolId}
    (h : table.builtinUnion names = .ok union) (he : (key, type) ∈ union.members.entries) :
    table.coreType? key = some type := by
  have hfold : ∀ {start : Union}, (∀ {key type}, (key, type) ∈ start.members.entries → table.coreType? key = some type) →
      names.foldlM (fun union name => do .ok (union.insert name (← table.builtinType name))) start =
        (.ok union : Except Fault Union) → table.coreType? key = some type := by
    clear h
    induction names with
    | nil =>
      intro start hst hfold
      cases hfold
      exact hst he
    | cons name rest ih =>
      intro start hst hfold
      rw [List.foldlM_cons] at hfold
      obtain ⟨next, hnx, hfold⟩ := bind_eq_ok.mp hfold
      obtain ⟨found, htp, hnx⟩ := bind_eq_ok.mp hnx
      cases hnx
      refine ih (fun {other type} hoth => ?_) hfold
      have hget := OrderedMap.get?_eq_some_iff.mpr hoth
      rw [Union.insert, OrderedMap.get?_insert] at hget
      split at hget
      · next heq =>
        cases hget
        exact heq ▸ builtinType_eq_ok htp
      · exact hst (OrderedMap.get?_eq_some_iff.mp hget)
  refine hfold ?_ h
  rintro _ _ ⟨⟩

/-- The unions of an overload are of the types that its signature names. -/
theorem builtinUnion_of_overload {method : SymbolId} {signature : Signature} {overload : Overload}
    (h : table.builtinOverload method signature = .ok overload) :
    (∀ parameter ∈ overload.parameters, ∃ name, table.builtinUnion [name] = .ok parameter.bound) ∧
      ∃ names, table.builtinUnion names = .ok overload.result := by
  unfold builtinOverload at h
  obtain ⟨parameters, hpars, h⟩ := bind_eq_ok.mp h
  obtain ⟨result, hresult, h⟩ := bind_eq_ok.mp h
  cases h
  refine ⟨fun parameter hpar => ?_, _, hresult⟩
  obtain ⟨written, _, hwr⟩ := exists_left_of_forall₂ (mapM_eq_ok.mp hpars) hpar
  obtain ⟨bound, hbo, hmake⟩ := bind_eq_ok.mp hwr
  cases hmake
  exact ⟨_, hbo⟩

/-! ## Declaring libraries -/

/-- A table to which only libraries have added: its types are no classes, and the erroneous type is neither kept under a name
nor the parent of another. -/
structure IsBuiltinOnly (table : SymbolTable) : Prop where
  sound : table.Sound
  types : ∀ {index : Nat} {symbol : Symbol} {data : TypeData}, table.symbols[index]? = some symbol → symbol.type? = some data →
    data.kind ≠ .classType ∧ data.absoluteName = symbol.name ∧ table.erroneousType ∉ data.parents
  represented : table.Represented
  unfiled : ∀ storage key, table.erroneousType ∉ table.fileOf storage key

theorem isBuiltinOnly_new (generation : Generation) : (new generation).IsBuiltinOnly := by
  have hone : ∀ {index : Nat} {symbol : Symbol}, (new generation).symbols[index]? = some symbol → symbol.name = erroneousName ∧
      symbol.data = .type { kind := .erroneous, absoluteName := erroneousName } := by
    intro index symbol h
    cases symbol_of_new h
    exact ⟨rfl, rfl⟩
  refine ⟨⟨⟨_, rfl, rfl⟩, fun {index symbol} h => ?_⟩, fun {index symbol data} h hdt => ?_, represented_new generation,
    fun storage key => ?_⟩
  · obtain ⟨_, hdt⟩ := hone h
    refine ⟨fun data h => ?_, fun data h => ?_, fun data h => ?_, fun data h => ?_⟩
    all_goals simp only [Symbol.type?, Symbol.method?, hdt] at h
    · cases h
      exact fun _ => rfl
    · cases h
      rintro _ ⟨⟩
    · cases h
    · cases h
  · obtain ⟨hnm, hsym⟩ := hone h
    simp only [Symbol.type?, hsym] at hdt
    cases hdt
    exact ⟨by decide, hnm.symm, List.not_mem_nil⟩
  · rw [fileOf_new]
    exact List.not_mem_nil

section

variable (h : table.IsBuiltinOnly)

include h

theorem IsBuiltinOnly.coreType? (htp : table.coreType? name = some id) :
    id.index < table.symbols.size ∧ table.IsPrimitive id.index := by
  obtain ⟨symbol, data, hsym, hdt, _⟩ := coreType?_eq_some htp
  obtain ⟨_, hget⟩ := symbol?_eq_some hsym
  exact ⟨(Array.getElem?_eq_some_iff.mp hget).1, symbol, data, hget, hdt, (h.types hget hdt).1⟩

theorem IsBuiltinOnly.namesTypes {names : List String} {union : Union}
    (hun : table.builtinUnion names = .ok union) : table.NamesTypes union := by
  rintro ⟨key, type⟩ he
  obtain ⟨symbol, data, hsym, hdt, storage, hfile⟩ := coreType?_eq_some (coreType?_of_builtinUnion hun he)
  obtain ⟨found, _, hf, hnm, _⟩ := h.represented.kept hfile
  cases hsym.symm.trans hf
  exact ⟨_, ⟨symbol, data, hsym, hdt, rfl⟩, by rw [(h.types (symbol?_eq_some hsym).2 hdt).2.1, hnm]⟩

theorem IsBuiltinOnly.admitsOverload {method : SymbolId} {signature : Signature}
    {overload : Overload} (hov : table.builtinOverload method signature = .ok overload) :
    table.AdmitsOverload overload := by
  obtain ⟨hpars, _, hresult⟩ := builtinUnion_of_overload hov
  refine ⟨fun parameter hpar => ?_, h.namesTypes hresult⟩
  obtain ⟨_, hbo⟩ := hpars parameter hpar
  exact ⟨⟨_, builtinUnion_single hbo⟩, h.namesTypes hbo⟩

theorem IsBuiltinOnly.define (hnew : table.IsBuiltin scope symbol)
    (hdef : SymbolTable.define scope symbol table = .ok id table') : table'.IsBuiltinOnly := by
  have hparents : ∀ data, symbol.type? = some data → ∀ parent ∈ data.parents, ∃ name, table.coreType? name = some parent := by
    intro data hdt parent hprt
    obtain ⟨name, hnm⟩ := (hnew.types data hdt).2.2 parent hprt
    exact ⟨name, builtinType_eq_ok hnm⟩
  have hadm : ∀ home, table.Admits table.symbols.size { symbol with scope := home } := by
    refine fun home => ⟨fun data hdt hk => ?_, fun data hdt parent hprt => ?_, fun data hdt _ overload hov => ?_,
      fun data hdt parameter hpar => ?_⟩
    · nomatch (hnew.types data hdt).1.symm.trans hk
    · obtain ⟨_, hnm⟩ := hparents data hdt parent hprt
      exact h.coreType? hnm
    · nomatch (hnew.methods data hdt).1 ▸ hov
    · nomatch (hnew.methods data hdt).2 ▸ hpar
  refine ⟨(h.sound.define hadm hdef).1, fun {index other data} hoth hdt => ?_,
    (Equips.define hdef hnew).edits.represented h.represented, fun storage key hmem => ?_⟩
  · obtain ⟨home, storage, _, _, _, rfl⟩ := define_eq_ok hdef
    dsimp only at hoth
    rw [Array.getElem?_push] at hoth
    split at hoth
    · cases hoth
      refine ⟨by rw [(hnew.types data hdt).1]; decide, (hnew.types data hdt).2.1, fun hprt => ?_⟩
      obtain ⟨_, hnm⟩ := hparents data hdt _ hprt
      obtain ⟨_, _, _, _, storage, hfile⟩ := coreType?_eq_some hnm
      exact h.unfiled storage _ hfile
    · exact h.types hoth hdt
  · -- The erroneous type was declared first, so that it is none that is declared now.
    obtain ⟨_, hfst, _⟩ := h.sound.erroneous
    have hlt := (Array.getElem?_eq_some_iff.mp hfst).1
    have hcas := mem_fileOf_define hdef hmem
    obtain ⟨_, _, _, _, rfl, rfl⟩ := define_eq_ok hdef
    rcases hcas with hold | ⟨heq, _⟩
    · exact h.unfiled storage key hold
    · exact Nat.ne_of_lt hlt (congrArg SymbolId.index heq)

theorem IsBuiltinOnly.admits {symbol' : Symbol} {index : Nat} (hfs : table.Furnishes symbol symbol')
    (hadm : table.Admits index symbol) : table.Admits index symbol' := by
  refine ⟨fun data hdt hk => ?_, fun data hdt parent hprt => ?_, fun data hdt hbi overload hov => ?_,
    fun data hdt parameter hpar => ?_⟩
  · obtain ⟨old, hold, _, hkind, hparents⟩ := exists_type_of_map hfs.type hdt
    exact hparents ▸ hadm.classes old hold (hkind.trans hk)
  · obtain ⟨old, hold, _, _, hparents⟩ := exists_type_of_map hfs.type hdt
    exact hadm.parents old hold parent (hparents ▸ hprt)
  · rcases hfs.overloads with hsm | hovs
    · exact hadm.builtins data (hsm ▸ hdt) hbi overload hov
    · obtain ⟨_, _, hmade⟩ := hovs data hdt overload hov
      exact h.admitsOverload hmade
  · have hsm := hfs.method
    rw [hdt, Option.map_some] at hsm
    obtain ⟨old, hold, hsm⟩ := Option.map_eq_some_iff.mp hsm.symm
    exact hadm.parameters old hold parameter ((Prod.mk.inj hsm).2 ▸ hpar)

theorem IsBuiltinOnly.update {change : Symbol → Symbol} (hup : updateSymbol id change table = .ok u table')
    (hchg : ∀ symbol, table.Furnishes symbol (change symbol)) : table'.IsBuiltinOnly := by
  have hrep := (Equips.update hup hchg).edits.represented h.represented
  have hunf : ∀ storage key, table.erroneousType ∉ table'.fileOf storage key := by
    intro storage key
    rw [fileOf_updateSymbol hup]
    exact h.unfiled storage key
  obtain ⟨_, rfl⟩ := updateSymbol_eq_ok hup
  refine ⟨h.sound.modify (fun symbol _ => ?_) fun symbol _ => h.admits (hchg symbol), fun {index symbol data} hsym hdt => ?_,
    hrep, hunf⟩
  · refine ⟨fun hvar => (hchg symbol).var ▸ hvar, fun old hold => ?_⟩
    obtain ⟨data, hdt, hnm, hk, _⟩ := exists_type_of_map (hchg symbol).type.symm hold
    exact ⟨data, hdt, hk, hnm⟩
  · dsimp only at hsym
    rw [Array.getElem?_modify] at hsym
    split at hsym
    · obtain ⟨old, hold, rfl⟩ := Option.map_eq_some_iff.mp hsym
      obtain ⟨oldData, holdData, habsolute, hk, hparents⟩ := exists_type_of_map (hchg old).type hdt
      rw [← hk, ← habsolute, ← hparents, (hchg old).name]
      exact h.types hold holdData
    · exact h.types hsym hdt

end

/-! ## Declarations that may be refused -/

theorem updateSymbol_eq_error {fault : Fault} (h : updateSymbol id change table = .error fault table') : table' = table := by
  rcases bind_eq_error.mp h with hrfu | ⟨_, _, _, hmodify⟩
  · exact (query_eq_error.mp hrfu).2
  · nomatch hmodify

theorem leads_updateSymbol_of (hR : IsOrder R)
    (hok : ∀ u table', updateSymbol id change table = .ok u table' → R table table') :
    Leads R (updateSymbol id change) table :=
  .of_result hok fun _ _ hup => updateSymbol_eq_error hup ▸ hR.refl _

theorem updateScope_eq_error {change : Scope → Scope} {fault : Fault}
    (h : updateScope scope change table = .error fault table') : table.scope? scope = none ∧ table' = table := by
  rcases bind_eq_error.mp h with hrfu | ⟨_, _, _, hmodify⟩
  · obtain ⟨hno, rfl⟩ := query_eq_error.mp hrfu
    rw [SymbolTable.scope] at hno
    split at hno
    · cases hno
    · next he => exact ⟨he, rfl⟩
  · cases hmodify

theorem define_eq_error {fault : Fault} (h : define scope symbol table = .error fault table') : table' = table ∨
    ∃ home storage, table.storageScope scope = .ok storage ∧ table.scope? storage = none ∧
      table' = (table.pushSymbol { symbol with scope := some home }).2 := by
  simp only [define, bind_eq_error, query_eq_error, query_eq_ok] at h
  rcases h with ⟨_, rfl⟩ | ⟨home, _, ⟨_, rfl⟩, ⟨_, rfl⟩ | ⟨storage, _, ⟨hsto, rfl⟩, hadd | ⟨_, _, hadd, h⟩⟩⟩
  · exact .inl rfl
  · exact .inl rfl
  · cases hadd
  · obtain ⟨rfl, rfl⟩ := addDetached_eq_ok hadd
    rcases h with hup | ⟨_, _, _, hpure⟩
    · obtain ⟨hno, rfl⟩ := updateScope_eq_error hup
      exact .inr ⟨home, storage, hsto, hno, rfl⟩
    · cases hpure

theorem leads_define_of (hR : IsOrder R) (hok : ∀ id table', define scope symbol table = .ok id table' → R table table')
    (hpu : ∀ home, R table (table.pushSymbol { symbol with scope := some home }).2) :
    Leads R (define scope symbol) table := by
  refine .of_result hok fun fault table' hdef => ?_
  obtain rfl | ⟨home, _, _, _, rfl⟩ := define_eq_error hdef
  · exact hR.refl _
  · exact hpu home

theorem Rooted.define_eq_error (h : table.Rooted) (hdef : SymbolTable.define scope symbol table = .error fault table') :
    table' = table := by
  obtain rfl | ⟨_, storage, hsto, hno, _⟩ := SymbolTable.define_eq_error hdef
  · rfl
  · obtain ⟨kept, hkt⟩ := h.scope?_storageScope hsto
    rw [hno] at hkt
    cases hkt

/-- A declaration is made by declaring a symbol, by adding a conversion, or by giving a function the overloads that its
signatures stand for. -/
theorem leads_declare_of (hR : IsOrder R)
    (hdef : ∀ {table scope symbol}, table.IsBuiltin scope symbol → Leads R (SymbolTable.define scope symbol) table)
    (hcon : ∀ {table} id target, Leads R (updateSymbol id (·.mapType fun data =>
      if target ∈ data.conversions then data else { data with conversions := data.conversions ++ [target] })) table)
    (hovs : ∀ {table : SymbolTable} {method overloads} {signatures : List Signature},
      signatures.mapM (table.builtinOverload method) = .ok overloads →
      Leads R (updateSymbol method (·.mapMethod fun data => { data with overloads })) table)
    (declaration : BuiltinDeclaration) : Leads R (declare declaration) table := by
  cases declaration with
  | type name parents =>
    refine Leads.map hR ?_
    refine Leads.query_bind hR fun ids hids => Leads.get_bind (hdef ⟨.inl rfl, nofun, ?_, nofun⟩)
    rintro _ ⟨⟩
    refine ⟨rfl, rfl, fun parent hprt => ?_⟩
    obtain ⟨written, _, hwr⟩ := exists_left_of_forall₂ (mapM_eq_ok.mp hids) hprt
    exact ⟨written, hwr⟩
  | conversion source target =>
    refine Leads.bind hR ?_ fun _ _ _ => Leads.pure hR _
    exact Leads.query_bind hR fun source _ => Leads.query_bind hR fun target _ => hcon source target
  | const name type =>
    refine Leads.map hR ?_
    exact Leads.query_bind hR fun type _ => Leads.get_bind (hdef ⟨.inl rfl, nofun, nofun, nofun⟩)
  | method kind name signatures =>
    refine Leads.map hR ?_
    refine Leads.query_bind hR fun signatures _ => Leads.get_bind ?_
    refine Leads.bind hR (hdef ⟨.inl rfl, nofun, nofun, by rintro _ ⟨⟩; exact ⟨rfl, rfl⟩⟩) fun method table _ => ?_
    refine Leads.query_bind hR fun overloads hov => ?_
    exact Leads.bind hR (hovs hov) fun _ _ _ => Leads.pure hR _
  | superGlobal name type =>
    refine Leads.map hR ?_
    refine Leads.query_bind hR fun type htp => Leads.get_bind (hdef ⟨.inr rfl, fun data hdt => ⟨rfl, ?_⟩, nofun, nofun⟩)
    cases hdt
    refine ⟨rfl, rfl, ?_⟩
    rintro _ ⟨⟩
    obtain ⟨symbol, data, hsym, hdt, _⟩ := coreType?_eq_some (builtinType_eq_ok htp)
    exact ⟨_, symbol, data, hsym, hdt, rfl⟩

/-- A declaration changes a table as libraries do, also where it is refused. -/
theorem leads_equips (declaration : BuiltinDeclaration) : Leads (fun table table' =>
    table.Represented → Relation.ReflTransGen Equips table table' ∧ table'.Represented) (declare declaration) table := by
  have hO : IsOrder fun table table' : SymbolTable =>
      table.Represented → Relation.ReflTransGen Equips table table' ∧ table'.Represented := by
    refine ⟨fun _ h => ⟨.refl, h⟩, fun hfst hsnd h => ?_⟩
    obtain ⟨hequips, h⟩ := hfst h
    exact ⟨hequips.trans (hsnd h).1, (hsnd h).2⟩
  have hsingle : ∀ {table table' : SymbolTable}, table.Equips table' →
      table.Represented → Relation.ReflTransGen Equips table table' ∧ table'.Represented :=
    fun hequips h => ⟨.single hequips, hequips.edits.represented h⟩
  refine leads_declare_of hO (fun hnew => ?_) (fun id target => ?_) (fun {table method overloads signatures} hovs => ?_)
    declaration
  · refine .of_result (fun id table' hdef => hsingle (.define hdef hnew)) fun fault table' hdef h => ?_
    rw [h.rooted.define_eq_error hdef]
    exact ⟨.refl, h⟩
  · refine leads_updateSymbol_of hO fun _ table' hup => hsingle (.update hup fun symbol => ?_)
    obtain ⟨name, position, scope, data⟩ := symbol
    cases data <;> refine ⟨rfl, rfl, rfl, ?_, rfl, .inl rfl⟩
    case type data =>
      simp only [Symbol.mapType, Symbol.type?, Option.map_some]
      split <;> rfl
    all_goals rfl
  · refine leads_updateSymbol_of hO fun _ table' hup => hsingle (.update hup fun symbol => ?_)
    obtain ⟨name, position, scope, data⟩ := symbol
    cases data <;> refine ⟨rfl, rfl, rfl, rfl, rfl, ?_⟩
    case method data =>
      refine .inr fun data hdt overload hov => ?_
      cases hdt
      obtain ⟨signature, _, hsignature⟩ := exists_left_of_forall₂ (mapM_eq_ok.mp hovs) hov
      exact ⟨method, signature, hsignature⟩
    all_goals exact .inl rfl

/-- The table after declarations of libraries, of which any may be refused. -/
def registered (generation : Generation) (declarations : List BuiltinDeclaration) : SymbolTable :=
  declarations.foldl (fun table declaration => (declare declaration).leaves table) (new generation)

theorem equips_registered (generation : Generation) (declarations : List BuiltinDeclaration) :
    Relation.ReflTransGen Equips (new generation) (registered generation declarations) := by
  have hrun : ∀ table : SymbolTable, table.Represented → Relation.ReflTransGen Equips table
      (declarations.foldl (fun table declaration => (declare declaration).leaves table) table) := by
    induction declarations with
    | nil => exact fun _ _ => .refl
    | cons declaration rest ih =>
      intro table h
      obtain ⟨hequips, h⟩ := leads_equips declaration h
      exact hequips.trans (ih _ h)
  exact hrun _ (represented_new generation)

theorem isBuiltinOnly_registered (generation : Generation) (declarations : List BuiltinDeclaration) :
    (registered generation declarations).IsBuiltinOnly := by
  refine keeps_of_changes (equips_registered generation declarations) (fun hequips hold => ?_) (isBuiltinOnly_new generation)
  cases hequips with
  | define hdef hnew => exact hold.define hnew hdef
  | update hup hchg => exact hold.update hup hchg

theorem foldl_of_declareAll (h : SymbolTable.declareAll library table = .ok u table') :
    library.foldl (fun table declaration => (declare declaration).leaves table) table = table' := by
  induction library generalizing table with
  | nil =>
    obtain ⟨_, rfl⟩ := Step.pure_eq_ok.mp h
    rfl
  | cons declaration rest ih =>
    simp only [SymbolTable.declareAll, Step.bind_eq_ok] at h
    obtain ⟨_, _, hfst, hrs⟩ := h
    rw [List.foldl_cons, leaves_of_eq_ok hfst, ih hrs]

section

variable (h : withLibraries generation libraries = .ok table)

include h

theorem eq_registered : table = registered generation libraries.flatten := by
  unfold withLibraries at h
  split at h
  · next hdcl =>
    cases h
    exact (foldl_of_declareAll hdcl).symm
  · nomatch h

theorem equips_withLibraries : Relation.ReflTransGen Equips (new generation) table :=
  eq_registered h ▸ equips_registered generation _

theorem isBuiltinOnly_withLibraries : table.IsBuiltinOnly :=
  eq_registered h ▸ isBuiltinOnly_registered generation _

theorem rooted_withLibraries : table.Rooted := (isBuiltinOnly_withLibraries h).represented.rooted

/-- The table with which a run starts is sound. -/
theorem sound_withLibraries : table.Sound :=
  (isBuiltinOnly_withLibraries h).sound

end

end SoftTyping.SymbolTable
