import SoftTyping.Proofs.Refusal
import SoftTyping.Proofs.Step
import SoftTyping.Proofs.Union
import SoftTyping.SymbolTable.Initialised
import SoftTyping.SymbolTable.Lookup

/-!
# Sound symbol tables

What holds of every table that is made by declaring: the first symbol is a type, the parents of a type are primitive and
were declared before it, a class has none, what a built-in takes has a type, and the parameters of a function are
variables (`Sound`). Adding a symbol and changing one keep this if the symbol fits (`Admits`).
-/

namespace SoftTyping

open Step SymbolTable

attribute [ext] SymbolId ScopeId

@[simp] theorem Symbol.method?_mapMethod (symbol : Symbol) (change : MethodData → MethodData) :
    (symbol.mapMethod change).method? = symbol.method?.map change := by
  obtain ⟨name, position, scope, data⟩ := symbol
  cases data <;> rfl

@[simp] theorem Symbol.var?_mapMethod (symbol : Symbol) (change : MethodData → MethodData) :
    (symbol.mapMethod change).var? = symbol.var? := by
  obtain ⟨name, position, scope, data⟩ := symbol
  cases data <;> rfl

@[simp] theorem Symbol.scope_mapMethod (symbol : Symbol) (change : MethodData → MethodData) :
    (symbol.mapMethod change).scope = symbol.scope := by
  obtain ⟨name, position, scope, data⟩ := symbol
  cases data <;> rfl

@[simp] theorem Symbol.var?_mapVariable (symbol : Symbol) (change : VariableData → VariableData) :
    (symbol.mapVariable change).var? = symbol.var?.map change := by
  obtain ⟨name, position, scope, data⟩ := symbol
  cases data <;> rfl

namespace SymbolTable

variable {table table' : SymbolTable} {id : SymbolId} {index : Nat} {symbol : Symbol} {change : Symbol → Symbol}
  {scope : ScopeId}

/-- A symbol is a variable. -/
def IsVariable (table : SymbolTable) (id : SymbolId) : Prop :=
  ∃ symbol, table.symbol? id = some symbol ∧ symbol.var?.isSome = true

/-- The symbol at a place is a type, and no class. -/
def IsPrimitive (table : SymbolTable) (index : Nat) : Prop :=
  ∃ symbol data, table.symbols[index]? = some symbol ∧ symbol.type? = some data ∧ data.kind ≠ .classType

/-- A symbol is a type of some name. -/
def IsTypeNamed (table : SymbolTable) (id : SymbolId) (name : String) : Prop :=
  ∃ symbol data, table.symbol? id = some symbol ∧ symbol.type? = some data ∧ data.absoluteName = name

/-- The names in a union are those of its types, but for the case of letters. -/
def NamesTypes (table : SymbolTable) (union : Union) : Prop := union.NamedBy table.IsTypeNamed

/-- What a table asks of an overload of a built-in. -/
structure AdmitsOverload (table : SymbolTable) (overload : Overload) : Prop where
  bounds : ∀ parameter ∈ overload.parameters, (∃ name type, parameter.bound = .single name type) ∧
    table.NamesTypes parameter.bound
  result : table.NamesTypes overload.result

/-- What a table asks of the symbol at a place. -/
structure Admits (table : SymbolTable) (index : Nat) (symbol : Symbol) : Prop where
  classes : ∀ data, symbol.type? = some data → data.kind = .classType → data.parents = []
  parents : ∀ data, symbol.type? = some data → ∀ parent ∈ data.parents,
    parent.index < index ∧ table.IsPrimitive parent.index
  builtins : ∀ data, symbol.method? = some data → data.isBuiltin = true →
    ∀ overload ∈ data.overloads, table.AdmitsOverload overload
  parameters : ∀ data, symbol.method? = some data → ∀ id ∈ data.parameters, table.IsVariable id

/-- A table that is made by declaring. -/
structure Sound (table : SymbolTable) : Prop where
  erroneous : ∃ symbol, table.symbols[0]? = some symbol ∧ symbol.type?.isSome = true
  admits : ∀ {index symbol}, table.symbols[index]? = some symbol → table.Admits index symbol

theorem admits_of_none (htp : symbol.type? = none) (hmth : symbol.method? = none) : table.Admits index symbol := by
  refine ⟨?_, ?_, ?_, ?_⟩ <;> intro data h
  · rw [htp] at h
    nomatch h
  · rw [htp] at h
    nomatch h
  · rw [hmth] at h
    nomatch h
  · rw [hmth] at h
    nomatch h

theorem admits_of_type {type : TypeData} (hsym : symbol.data = .type type)
    (hclass : type.kind = .classType → type.parents = [])
    (hparents : ∀ parent ∈ type.parents, parent.index < index ∧ table.IsPrimitive parent.index) :
    table.Admits index symbol := by
  refine ⟨?_, ?_, ?_, ?_⟩ <;> intro data h <;> simp only [Symbol.type?, Symbol.method?, hsym] at h
  · cases h
    exact hclass
  · cases h
    exact hparents
  · nomatch h
  · nomatch h

theorem admits_of_method {method : MethodData} (hsym : symbol.data = .method method)
    (hbuiltins : method.isBuiltin = true → ∀ overload ∈ method.overloads, table.AdmitsOverload overload)
    (hpars : ∀ id ∈ method.parameters, table.IsVariable id) : table.Admits index symbol := by
  refine ⟨?_, ?_, ?_, ?_⟩ <;> intro data h <;> simp only [Symbol.type?, Symbol.method?, hsym] at h
  · nomatch h
  · nomatch h
  · cases h
    exact hbuiltins
  · cases h
    exact hpars

/-- The variables and the types of one table are such in another. -/
structure Keeps (table table' : SymbolTable) : Prop where
  vars : ∀ {id}, table.IsVariable id → table'.IsVariable id
  primitives : ∀ {index}, table.IsPrimitive index → table'.IsPrimitive index
  types : ∀ {id name}, table.IsTypeNamed id name → table'.IsTypeNamed id name

theorem AdmitsOverload.mono {overload : Overload} (h : table.AdmitsOverload overload) (hkp : table.Keeps table') :
    table'.AdmitsOverload overload where
  bounds := fun parameter hpar =>
    ⟨(h.bounds parameter hpar).1, (h.bounds parameter hpar).2.mono hkp.types⟩
  result := h.result.mono hkp.types

theorem Admits.mono (h : table.Admits index symbol) (hkp : table.Keeps table') : table'.Admits index symbol where
  classes := h.classes
  parents := fun data hdt parent hprt =>
    ⟨(h.parents data hdt parent hprt).1, hkp.primitives (h.parents data hdt parent hprt).2⟩
  builtins := fun data hdt hblt overload hov => (h.builtins data hdt hblt overload hov).mono hkp
  parameters := fun data hdt id hid => hkp.vars (h.parameters data hdt id hid)

theorem symbol?_eq_some (h : table.symbol? id = some symbol) :
    id.generation = table.generation ∧ table.symbols[id.index]? = some symbol := by
  unfold symbol? at h
  split at h
  · next hgen => exact ⟨hgen, h⟩
  · nomatch h

theorem lt_size_of_symbol? (h : table.symbol? id = some symbol) : id.index < table.symbols.size :=
  (Array.getElem?_eq_some_iff.mp (symbol?_eq_some h).2).1

theorem symbol?_of_symbols (hgen : table'.generation = table.generation) (hsyms : table'.symbols = table.symbols) :
    table'.symbol? = table.symbol? := by
  funext id
  rw [symbol?, symbol?, hgen, hsyms]

theorem Sound.of_symbols (h : table.Sound) (hgen : table'.generation = table.generation)
    (hsyms : table'.symbols = table.symbols) : table'.Sound := by
  have hkp : table.Keeps table' := by
    have hsm := symbol?_of_symbols hgen hsyms
    refine ⟨fun {id} hvar => ?_, fun {index} hprimitive => ?_, fun {id name} htp => ?_⟩
    · rwa [IsVariable, hsm]
    · rwa [IsPrimitive, hsyms]
    · rwa [IsTypeNamed, hsm]
  refine ⟨?_, fun {index symbol} hsym => ?_⟩
  · rw [hsyms]
    exact h.erroneous
  · rw [hsyms] at hsym
    exact (h.admits hsym).mono hkp

/-! ## Adding symbols -/

theorem symbol?_of_push (hgen : table'.generation = table.generation) (hsyms : table'.symbols = table.symbols.push symbol)
    (other : SymbolId) :
    table'.symbol? other = if other = ⟨table.generation, table.symbols.size⟩ then some symbol else table.symbol? other := by
  rw [symbol?, hgen, hsyms, symbol?]
  obtain ⟨generation, index⟩ := other
  simp only [Array.getElem?_push, SymbolId.mk.injEq]
  grind

theorem symbol?_pushSymbol (table : SymbolTable) (symbol : Symbol) (id : SymbolId) :
    (table.pushSymbol symbol).2.symbol? id =
      if id = (table.pushSymbol symbol).1 then some symbol else table.symbol? id :=
  @symbol?_of_push table (table.pushSymbol symbol).2 symbol rfl rfl id

theorem ne_of_symbol? (h : table.symbol? id = some symbol) : id ≠ ⟨table.generation, table.symbols.size⟩ := by
  rintro rfl
  exact Nat.lt_irrefl _ (lt_size_of_symbol? h)

theorem ne_pushSymbol {old new : Symbol} (h : table.symbol? id = some old) : id ≠ (table.pushSymbol new).1 :=
  ne_of_symbol? h

theorem keeps_pushSymbol (table : SymbolTable) (symbol : Symbol) : table.Keeps (table.pushSymbol symbol).2 := by
  have hold : ∀ {index : Nat} {old : Symbol}, table.symbols[index]? = some old →
      (table.pushSymbol symbol).2.symbols[index]? = some old := by
    intro index old hget
    have hlt := (Array.getElem?_eq_some_iff.mp hget).1
    rw [pushSymbol, Array.getElem?_push, if_neg (by omega)]
    exact hget
  have hold' : ∀ {id : SymbolId} {old : Symbol}, table.symbol? id = some old →
      (table.pushSymbol symbol).2.symbol? id = some old := by
    intro id old hget
    rw [symbol?_pushSymbol, if_neg (ne_pushSymbol hget), hget]
  refine ⟨fun {id} hvar => ?_, fun {index} hprimitive => ?_, fun {id name} htp => ?_⟩
  · obtain ⟨old, hget, hvar⟩ := hvar
    exact ⟨old, hold' hget, hvar⟩
  · obtain ⟨old, data, hget, hdt⟩ := hprimitive
    exact ⟨old, data, hold hget, hdt⟩
  · obtain ⟨old, data, hget, hdt⟩ := htp
    exact ⟨old, data, hold' hget, hdt⟩

theorem Sound.pushSymbol (h : table.Sound) (hsym : table.Admits table.symbols.size symbol) :
    (table.pushSymbol symbol).2.Sound := by
  have hkp := keeps_pushSymbol table symbol
  refine ⟨?_, fun {index other} hoth => ?_⟩
  · obtain ⟨first, hfst, htp⟩ := h.erroneous
    have hlt := (Array.getElem?_eq_some_iff.mp hfst).1
    refine ⟨first, ?_, htp⟩
    rw [SymbolTable.pushSymbol, Array.getElem?_push, if_neg (by omega)]
    exact hfst
  · rw [SymbolTable.pushSymbol, Array.getElem?_push] at hoth
    split at hoth
    · next hix =>
      cases hoth
      rw [hix]
      exact hsym.mono hkp
    · exact (h.admits hoth).mono hkp

/-! ## Changing symbols -/

/-- A change of a symbol that keeps what it is. -/
structure Preserves (change : Symbol → Symbol) (symbol : Symbol) : Prop where
  vars : symbol.var?.isSome = true → (change symbol).var?.isSome = true
  types : ∀ data, symbol.type? = some data → ∃ data', (change symbol).type? = some data' ∧ data'.kind = data.kind ∧
    data'.absoluteName = data.absoluteName

theorem symbol?_modify (table : SymbolTable) (index : Nat) (change : Symbol → Symbol) (id : SymbolId) :
    ({ table with symbols := table.symbols.modify index change } : SymbolTable).symbol? id =
      if index = id.index then (table.symbol? id).map change else table.symbol? id := by
  unfold symbol?
  by_cases hgen : id.generation = table.generation
  · rw [if_pos hgen, if_pos hgen, Array.getElem?_modify]
  · rw [if_neg hgen, if_neg hgen, Option.map_none, ite_self]

theorem keeps_modify (hchg : ∀ symbol, table.symbols[index]? = some symbol → Preserves change symbol) :
    table.Keeps { table with symbols := table.symbols.modify index change } := by
  have hsym : ∀ {id : SymbolId} {old : Symbol}, table.symbol? id = some old → ∃ new,
      ({ table with symbols := table.symbols.modify index change } : SymbolTable).symbol? id = some new ∧
        (new = old ∨ new = change old ∧ Preserves change old) := by
    intro id old hget
    rw [symbol?_modify, hget]
    split
    · next hix => exact ⟨change old, rfl, .inr ⟨rfl, hchg old (hix ▸ (symbol?_eq_some hget).2)⟩⟩
    · exact ⟨old, rfl, .inl rfl⟩
  refine ⟨fun {other} hvar => ?_, fun {other} hprimitive => ?_, fun {other name} htp => ?_⟩
  · obtain ⟨old, hget, hvar⟩ := hvar
    obtain ⟨new, hnew, rfl | ⟨rfl, hpreserves⟩⟩ := hsym hget
    · exact ⟨new, hnew, hvar⟩
    · exact ⟨_, hnew, hpreserves.vars hvar⟩
  · obtain ⟨old, data, hget, hdt, hk⟩ := hprimitive
    by_cases hoth : index = other
    · subst hoth
      obtain ⟨data', hdt', hk', _⟩ := (hchg old hget).types data hdt
      refine ⟨change old, data', ?_, hdt', hk' ▸ hk⟩
      simp [Array.getElem?_modify, hget]
    · refine ⟨old, data, ?_, hdt, hk⟩
      simp [Array.getElem?_modify, hoth, hget]
  · obtain ⟨old, data, hget, hdt, hnm⟩ := htp
    obtain ⟨new, hnew, rfl | ⟨rfl, hpreserves⟩⟩ := hsym hget
    · exact ⟨new, data, hnew, hdt, hnm⟩
    · obtain ⟨data', hdt', _, hnm'⟩ := hpreserves.types data hdt
      exact ⟨_, data', hnew, hdt', hnm'.trans hnm⟩

theorem Sound.modify (h : table.Sound) (hchg : ∀ symbol, table.symbols[index]? = some symbol → Preserves change symbol)
    (hadm : ∀ symbol, table.symbols[index]? = some symbol → table.Admits index symbol →
      table.Admits index (change symbol)) :
    ({ table with symbols := table.symbols.modify index change } : SymbolTable).Sound := by
  have hkp := keeps_modify hchg
  refine ⟨?_, fun {other symbol} hsym => ?_⟩
  · obtain ⟨first, hfst, htp⟩ := h.erroneous
    by_cases hix : index = 0
    · subst hix
      obtain ⟨data, hdt⟩ := Option.isSome_iff_exists.mp htp
      obtain ⟨data', hdt', _⟩ := (hchg first hfst).types data hdt
      exact ⟨change first, by simp [Array.getElem?_modify, hfst], by rw [hdt']; rfl⟩
    · exact ⟨first, by simp [Array.getElem?_modify, hix, hfst], htp⟩
  · rw [Array.getElem?_modify] at hsym
    split at hsym
    · next hix =>
      subst hix
      obtain ⟨old, hold, rfl⟩ := Option.map_eq_some_iff.mp hsym
      exact (hadm old hold (h.admits hold)).mono hkp
    · exact (h.admits hsym).mono hkp

theorem Sound.modify_mapVariable (h : table.Sound) (index : Nat) (change : VariableData → VariableData) :
    ({ table with symbols := table.symbols.modify index (·.mapVariable change) } : SymbolTable).Sound := by
  refine h.modify (fun symbol _ => ?_) (fun symbol _ hadm => ?_)
  · obtain ⟨name, position, scope, data⟩ := symbol
    cases data <;> exact ⟨fun hvar => hvar, fun data hdt => ⟨data, hdt, rfl, rfl⟩⟩
  · obtain ⟨name, position, scope, data⟩ := symbol
    cases data with
    | var data => exact admits_of_none rfl rfl
    | _ => exact hadm

/-- A change of functions alone, which keeps what built-ins take and adds only variables to the parameters. -/
theorem Sound.modify_mapMethod (h : table.Sound) (index : Nat) {change : MethodData → MethodData}
    (hbuiltins : ∀ data, (data.isBuiltin = true → ∀ overload ∈ data.overloads, table.AdmitsOverload overload) →
      (change data).isBuiltin = true → ∀ overload ∈ (change data).overloads, table.AdmitsOverload overload)
    (hpars : ∀ data, ∀ id ∈ (change data).parameters, id ∈ data.parameters ∨ table.IsVariable id) :
    ({ table with symbols := table.symbols.modify index (·.mapMethod change) } : SymbolTable).Sound := by
  refine h.modify (fun symbol _ => ?_) (fun symbol _ hadm => ?_)
  · obtain ⟨name, position, scope, data⟩ := symbol
    cases data <;> exact ⟨fun hvar => hvar, fun data hdt => ⟨data, hdt, rfl, rfl⟩⟩
  · obtain ⟨name, position, scope, data⟩ := symbol
    cases data with
    | method data =>
      refine admits_of_method rfl (hbuiltins data (hadm.builtins data rfl)) fun id hid => ?_
      · rcases hpars data id hid with hid | hvar
        · exact hadm.parameters data rfl id hid
        · exact hvar
    | _ => exact hadm

/-! ## Steps on a table -/

theorem symbol_eq_ok : table.symbol id = .ok symbol ↔ table.symbol? id = some symbol := by
  unfold SymbolTable.symbol
  cases table.symbol? id <;> simp

theorem updateScope_eq_ok {change : Scope → Scope} {u : Unit} (h : updateScope scope change table = .ok u table') :
    table' = { table with scopes := table.scopes.modify scope.index change } := by
  simp only [updateScope, bind_eq_ok, query_eq_ok, modify_eq_ok] at h
  obtain ⟨_, _, ⟨_, rfl⟩, rfl⟩ := h
  rfl

theorem updateSymbol_eq_ok {u : Unit} (h : updateSymbol id change table = .ok u table') :
    (∃ symbol, table.symbol? id = some symbol) ∧
      table' = { table with symbols := table.symbols.modify id.index change } := by
  simp only [updateSymbol, bind_eq_ok, query_eq_ok, modify_eq_ok] at h
  obtain ⟨symbol, _, ⟨hsym, rfl⟩, rfl⟩ := h
  exact ⟨⟨symbol, symbol_eq_ok.mp hsym⟩, rfl⟩

theorem exists_updateSymbol (h : table.symbol? id = some symbol) (change : Symbol → Symbol) :
    ∃ table', updateSymbol id change table = .ok () table' :=
  ⟨_, bind_eq_ok.mpr ⟨symbol, table, query_eq_ok.mpr ⟨symbol_eq_ok.mpr h, rfl⟩, rfl⟩⟩

theorem symbol?_updateSymbol {u : Unit} (h : updateSymbol id change table = .ok u table') (other : SymbolId) :
    table'.symbol? other = if other = id then (table.symbol? other).map change else table.symbol? other := by
  obtain ⟨⟨symbol, hsym⟩, rfl⟩ := updateSymbol_eq_ok h
  obtain ⟨hgen, _⟩ := symbol?_eq_some hsym
  obtain ⟨generation, index⟩ := id
  obtain ⟨generation', index'⟩ := other
  unfold symbol?
  simp only [Array.getElem?_modify, SymbolId.mk.injEq]
  grind

theorem exists_of_updateSymbol {u : Unit} (h : updateSymbol id change table = .ok u table') {other : SymbolId} {new : Symbol}
    (hnew : table'.symbol? other = some new) :
    ∃ old, table.symbol? other = some old ∧ (new = old ∨ other = id ∧ new = change old) := by
  rw [symbol?_updateSymbol h] at hnew
  split at hnew
  · next heq =>
    obtain ⟨old, hold, rfl⟩ := Option.map_eq_some_iff.mp hnew
    exact ⟨old, hold, .inr ⟨heq, rfl⟩⟩
  · exact ⟨new, hnew, .inl rfl⟩

theorem addDetached_eq_ok (h : addDetached symbol table = .ok id table') :
    id = (table.pushSymbol symbol).1 ∧ table' = (table.pushSymbol symbol).2 := by
  obtain ⟨rfl, rfl⟩ := modifyGet_eq_ok.mp h
  exact ⟨rfl, rfl⟩

theorem addScope_eq_ok {name : String} {enclosing : ScopeId} {kind : ScopeKind}
    (h : addScope name enclosing kind table = .ok scope table') :
    scope = (table.pushScope { name, enclosing := some enclosing, kind }).1 ∧
      table' = (table.pushScope { name, enclosing := some enclosing, kind }).2 := by
  simp only [addScope, bind_eq_ok, query_eq_ok, modifyGet_eq_ok] at h
  obtain ⟨_, _, ⟨_, rfl⟩, rfl, rfl⟩ := h
  exact ⟨rfl, rfl⟩

/-- A namespace is known by its path, or it is made and known from then on. -/
theorem namespaceOf_eq_ok {path : String} (h : namespaceOf path table = .ok scope table') :
    (table.findNamespace? path = some scope ∧ table' = table) ∨
    (table.findNamespace? path = none ∧ scope = ⟨table.generation, table.scopes.size⟩ ∧
      table' = { table with
        scopes := table.scopes.push { name := normalizePath path, enclosing := some table.defaultNamespace
                                      kind := .globalNamespace (normalizePath path) }
        namespaces := table.namespaces.insert (Text.lowerCase (normalizePath path)) scope }) := by
  obtain ⟨hsc, htb⟩ := modifyGet_eq_ok.mp h
  cases hf : table.findNamespace? path <;> simp only [hf] at hsc htb
  · exact .inr ⟨rfl, hsc, by rw [htb, hsc]; rfl⟩
  · exact .inl ⟨congrArg some hsc.symm, htb⟩

/-- Declaring a symbol adds it, and files it where its scope keeps declarations. -/
theorem define_eq_ok (h : define scope symbol table = .ok id table') :
    ∃ home storage, table.variableScope scope = .ok home ∧ table.storageScope scope = .ok storage ∧
      id = ⟨table.generation, table.symbols.size⟩ ∧
      table' = { table with
        symbols := table.symbols.push { symbol with scope := some home }
        scopes := table.scopes.modify storage.index fun entry =>
          { entry with symbols := fileUnder entry.symbols (Text.lowerCase symbol.name) id } } := by
  simp only [define, bind_eq_ok, query_eq_ok, pure_eq_ok] at h
  obtain ⟨home, _, ⟨hhm, rfl⟩, storage, _, ⟨hsto, rfl⟩, added, _, hadded, _, _, hup, rfl, rfl⟩ := h
  obtain ⟨rfl, rfl⟩ := addDetached_eq_ok hadded
  rw [updateScope_eq_ok hup]
  exact ⟨home, storage, hhm, hsto, rfl, rfl⟩

theorem symbol?_define (h : define scope symbol table = .ok id table') :
    ∃ home, table.variableScope scope = .ok home ∧ ∀ other, table'.symbol? other =
      if other = id then some { symbol with scope := some home } else table.symbol? other := by
  obtain ⟨home, _, hhm, _, rfl, rfl⟩ := define_eq_ok h
  exact ⟨home, hhm, symbol?_of_push rfl rfl⟩

theorem exists_symbol?_define (h : define scope symbol table = .ok id table') :
    ∃ home, table'.symbol? id = some { symbol with scope := some home } := by
  obtain ⟨home, _, hsym⟩ := symbol?_define h
  exact ⟨home, (hsym id).trans (if_pos rfl)⟩

theorem Sound.define (hsd : table.Sound) (hsym : ∀ home, table.Admits table.symbols.size { symbol with scope := home })
    (h : define scope symbol table = .ok id table') :
    table'.Sound ∧ ∃ home, table'.symbol? id = some { symbol with scope := some home } := by
  obtain ⟨home, storage, _, _, rfl, rfl⟩ := define_eq_ok h
  refine ⟨?_, home, ?_⟩
  · exact (hsd.pushSymbol (hsym (some home))).of_symbols rfl rfl
  · simp [symbol?]

end SymbolTable

end SoftTyping
