import Mathlib.Logic.Relation
import SoftTyping.Builtin
import SoftTyping.Proofs.SymbolTable.Scopes

/-!
# What the passes do to a table

Libraries, the pass that declares names and the pass that binds them change a table in a few ways only (`Equips`, `Declares`,
`Binds`). Whatever each of these keeps is kept by all of them together (`keeps_of_changes`): a table grows, and its symbols
stay what they are (`KeepsSymbols`).
-/

namespace SoftTyping

variable {symbol' symbol : Symbol}

/-- What a program declares by itself under a name, as it is when it has just been declared. -/
inductive SymbolData.IsNew (table : SymbolTable) (scope : ScopeId) (name : String) : SymbolData → Prop where
  | var : table.find? scope name .sensitive (fun other => other.var?.isSome) = .ok none → IsNew table scope name (.var {})
  | const (type : Option SymbolId) : IsNew table scope name (.const type)
  | classType {absoluteName : String} :
    table.absoluteName scope name = .ok absoluteName → IsNew table scope name (.type { kind := .classType, absoluteName })

/-- A symbol without what is found out about it. -/
def Symbol.outline (symbol : Symbol) : Symbol :=
  { symbol with data := match symbol.data with
    | .var data => .var { isParameter := data.isParameter, isSuperGlobal := data.isSuperGlobal }
    | .method data => .method { kind := data.kind, isBuiltin := data.isBuiltin }
    | .aliasOf target _ => .aliasOf target none
    | other => other }

section

variable (h : symbol'.outline = symbol.outline)

include h

theorem Symbol.name_of_outline : symbol'.name = symbol.name :=
  (congrArg Symbol.name h : symbol'.outline.name = symbol.outline.name)

theorem Symbol.scope_of_outline : symbol'.scope = symbol.scope :=
  (congrArg Symbol.scope h : symbol'.outline.scope = symbol.outline.scope)

theorem Symbol.position_of_outline : symbol'.position = symbol.position :=
  (congrArg Symbol.position h : symbol'.outline.position = symbol.outline.position)

theorem Symbol.var?_of_outline {data' : VariableData}
    (hdt : symbol'.var? = some data') : ∃ data, symbol.var? = some data ∧ data.isParameter = data'.isParameter ∧
      data.isSuperGlobal = data'.isSuperGlobal := by
  obtain ⟨_, _, _, data⟩ := symbol
  obtain ⟨_, _, _, data⟩ := symbol'
  unfold outline at h
  cases data <;> cases hdt
  cases data <;> simp_all [var?]

end

namespace SymbolTable

variable {table table' : SymbolTable} {scope : ScopeId} {symbol : Symbol} {id : SymbolId} {u : Unit}

/-- A symbol that a library adds to a scope. -/
structure IsBuiltin (table : SymbolTable) (scope : ScopeId) (symbol : Symbol) : Prop where
  place : scope = table.coreScope ∨ scope = table.superGlobalScope
  vars : ∀ data, symbol.var? = some data → scope = table.superGlobalScope ∧ data.isParameter = false ∧ data.versions = [] ∧
    ∀ type, data.declared = some type → ∃ name, table.IsTypeNamed type name
  types : ∀ data, symbol.type? = some data → data.kind = .primitive ∧ data.absoluteName = symbol.name ∧
    ∀ parent ∈ data.parents, ∃ name, table.builtinType name = .ok parent
  methods : ∀ data, symbol.method? = some data → data.overloads = [] ∧ data.parameters = []

/-- What a library that changes a symbol keeps of it: it adds conversions, or sets the overloads of a function. -/
structure Furnishes (table : SymbolTable) (symbol symbol' : Symbol) : Prop where
  name : symbol'.name = symbol.name
  scope : symbol'.scope = symbol.scope
  var : symbol'.var? = symbol.var?
  type : symbol'.type?.map (fun data => (data.absoluteName, data.kind, data.parents)) =
    symbol.type?.map (fun data => (data.absoluteName, data.kind, data.parents))
  method : symbol'.method?.map (fun data => (data.scope, data.parameters)) =
    symbol.method?.map (fun data => (data.scope, data.parameters))
  overloads : symbol'.method? = symbol.method? ∨ ∀ data, symbol'.method? = some data → ∀ overload ∈ data.overloads,
    ∃ id signature, table.builtinOverload id signature = .ok overload

theorem exists_type_of_map {data : TypeData} (h : symbol'.type?.map (fun data => (data.absoluteName, data.kind, data.parents)) =
      symbol.type?.map (fun data => (data.absoluteName, data.kind, data.parents)))
    (hdt : symbol'.type? = some data) : ∃ old, symbol.type? = some old ∧ old.absoluteName = data.absoluteName ∧
      old.kind = data.kind ∧ old.parents = data.parents := by
  rw [hdt, Option.map_some] at h
  obtain ⟨old, hold, hsm⟩ := Option.map_eq_some_iff.mp h.symm
  obtain ⟨hnm, hsm⟩ := Prod.mk.inj hsm
  exact ⟨old, hold, hnm, Prod.mk.inj hsm⟩

/-- The ways in which libraries change a table. -/
inductive Equips (table : SymbolTable) : SymbolTable → Prop where
  | define {scope : ScopeId} {symbol : Symbol} {id : SymbolId} {table' : SymbolTable} :
    define scope symbol table = .ok id table' → table.IsBuiltin scope symbol → Equips table table'
  | update {id : SymbolId} {change : Symbol → Symbol} {u : Unit} {table' : SymbolTable} :
    updateSymbol id change table = .ok u table' → (∀ symbol, table.Furnishes symbol (change symbol)) → Equips table table'

/-- The ways in which declaring changes a table. -/
inductive Declares (table : SymbolTable) : SymbolTable → Prop where
  | define {scope : ScopeId} {symbol : Symbol} {id : SymbolId} {table' : SymbolTable} :
    symbol.data.IsNew table scope symbol.name → define scope symbol table = .ok id table' → Declares table table'
  | defineUse {block : ScopeId} {symbol : Symbol} {target : String} {id : SymbolId} {table' : SymbolTable} :
    symbol.data = .aliasOf (makeAbsolute target) none → defineUse block symbol table = .ok id table' → Declares table table'
  | namespaceOf {path : String} {storage : ScopeId} {table' : SymbolTable} :
    namespaceOf path table = .ok storage table' → Declares table table'
  | openNamespace {path : String} {storage block : ScopeId} {table' : SymbolTable} :
    table.findNamespace? path = some storage →
      addScope (normalizePath path) storage (.namespaceBlock storage ∅) table = .ok block table' → Declares table table'
  | openBranch {name : String} {scope branch : ScopeId} {table' : SymbolTable} :
    addScope name scope .conditional table = .ok branch table' → Declares table table'
  /-- A function is declared, and a scope is opened for it. -/
  | function {scope inner : ScopeId} {symbol : Symbol} {modifiers : List Modifier} {name : String} {id : SymbolId} {u : Unit}
      {table₁ table₂ table' : SymbolTable} :
    symbol.data = .method { kind := .function, modifiers, isBuiltin := false } → define scope symbol table = .ok id table₁ →
      addScope name scope (.method id) table₁ = .ok inner table₂ →
      updateSymbol id (·.mapMethod fun data => { data with scope := some inner }) table₂ = .ok u table' →
      Declares table table'
  /-- A parameter is declared in the scope of its function, which lists it. -/
  | parameter {scope : ScopeId} {entry : Scope} {symbol : Symbol} {function id : SymbolId} {u : Unit}
      {table₁ table' : SymbolTable} :
    table.scope? scope = some entry → entry.kind = .method function → symbol.data = .var { isParameter := true } →
      define scope symbol table = .ok id table₁ →
      updateSymbol function (·.mapMethod fun data => { data with parameters := data.parameters ++ [id] }) table₁ =
        .ok u table' →
      Declares table table'

/-- The ways in which binding names changes a table. -/
inductive Binds (table : SymbolTable) : SymbolTable → Prop where
  | addErroneous {name : String} {position : Position} {issue : Issue} {id : SymbolId} {table' : SymbolTable} :
    addErroneous name position issue table = .ok id table' → Binds table table'
  | bindAlias {id : SymbolId} {symbol : Symbol} {target : String} {resolved : SymbolId} {u : Unit} {table' : SymbolTable} :
    table.symbol? id = some symbol → symbol.aliasTarget? = some target →
      updateSymbol id (fun symbol => { symbol with data := .aliasOf target (some resolved) }) table = .ok u table' →
      Binds table table'
  | declareType {parameter type : SymbolId} {u : Unit} {table' : SymbolTable} :
    (type = table.erroneousType ∨ ∃ name, table.IsTypeNamed type name) →
      updateSymbol parameter (·.mapVariable fun data => { data with declared := some type }) table = .ok u table' →
      Binds table table'
  | markInitialised {scope : ScopeId} {id : SymbolId} {u : Unit} {table' : SymbolTable} :
    markInitialised scope id table = .ok u table' → Binds table table'
  | mergeBranches {target : ScopeId} {branches : List ScopeId} {exhaustive : Bool} {u : Unit} {table' : SymbolTable} :
    mergeBranches target branches exhaustive table = .ok u table' → Binds table table'

/-- The type that a variable is declared with. -/
def declaredType? (table : SymbolTable) (id : SymbolId) : Option SymbolId :=
  ((table.symbol? id).bind (·.var?)).bind (·.declared)

/-- What a symbol stands for where a type is expected: itself if it is one, and the erroneous type otherwise. -/
def asType (table : SymbolTable) (id : SymbolId) : SymbolId :=
  if ((table.symbol? id).bind (·.type?)).isSome then id else table.erroneousType

theorem isHint_asType (h : table.symbol? id = some symbol) :
    table.asType id = table.erroneousType ∨ ∃ name, table.IsTypeNamed (table.asType id) name := by
  rw [asType, h, Option.bind_some]
  split
  · next htp =>
    obtain ⟨data, hdt⟩ := Option.isSome_iff_exists.mp htp
    exact .inr ⟨_, symbol, data, h, hdt, rfl⟩
  · exact .inl rfl

/-- What no change takes from a symbol. -/
structure Retains (symbol symbol' : Symbol) : Prop where
  name : symbol'.name = symbol.name
  scope : symbol'.scope = symbol.scope
  parameter : symbol'.var?.map (·.isParameter) = symbol.var?.map (·.isParameter)

theorem Retains.refl (symbol : Symbol) : Retains symbol symbol := ⟨rfl, rfl, rfl⟩

theorem Retains.trans {symbol'' : Symbol} (h : Retains symbol symbol') (h' : Retains symbol' symbol'') :
    Retains symbol symbol'' :=
  ⟨h'.name.trans h.name, h'.scope.trans h.scope, h'.parameter.trans h.parameter⟩

theorem Retains.mapMethod (symbol : Symbol) (change : MethodData → MethodData) : Retains symbol (symbol.mapMethod change) := by
  obtain ⟨name, position, scope, data⟩ := symbol
  cases data <;> exact ⟨rfl, rfl, rfl⟩

theorem Retains.mapType (symbol : Symbol) (change : TypeData → TypeData) : Retains symbol (symbol.mapType change) := by
  obtain ⟨name, position, scope, data⟩ := symbol
  cases data <;> exact ⟨rfl, rfl, rfl⟩

/-- A variable may be declared in a scope: it is a parameter or a super-global, or there is no variable of its name yet. -/
def Allows (table : SymbolTable) (scope : ScopeId) (symbol : Symbol) : Prop :=
  ∀ data, symbol.var? = some data → data.isParameter = true ∨ scope = table.superGlobalScope ∨
    table.find? scope symbol.name .sensitive (fun other => other.var?.isSome) = .ok none

/-- The ways in which a table is changed. -/
inductive Edits (table : SymbolTable) : SymbolTable → Prop where
  /-- A symbol is added that no scope keeps. -/
  | push (symbol : Symbol) : Edits table (table.pushSymbol symbol).2
  | define {scope : ScopeId} {symbol : Symbol} {id : SymbolId} {table' : SymbolTable} :
    table.Allows scope symbol → define scope symbol table = .ok id table' → Edits table table'
  | defineUse {block : ScopeId} {symbol : Symbol} {id : SymbolId} {table' : SymbolTable} :
    defineUse block symbol table = .ok id table' → Edits table table'
  | namespaceOf {path : String} {storage : ScopeId} {table' : SymbolTable} :
    namespaceOf path table = .ok storage table' → Edits table table'
  | openNamespace {path : String} {storage block : ScopeId} {table' : SymbolTable} :
    table.findNamespace? path = some storage →
      addScope (normalizePath path) storage (.namespaceBlock storage ∅) table = .ok block table' → Edits table table'
  | addScope {name : String} {outer inner : ScopeId} {kind : ScopeKind} {table' : SymbolTable} :
    (kind = .conditional ∨ ∃ function, kind = .method function) → addScope name outer kind table = .ok inner table' →
      Edits table table'
  | updateSymbol {id : SymbolId} {change : Symbol → Symbol} {u : Unit} {table' : SymbolTable} :
    (∀ symbol, table.symbol? id = some symbol → Retains symbol (change symbol)) →
      updateSymbol id change table = .ok u table' → Edits table table'
  | initialise (scope : ScopeId) (change : OrderedMap SymbolId Initialisation → OrderedMap SymbolId Initialisation) :
    Edits table { table with scopes := table.scopes.modify scope.index fun entry =>
      { entry with initialised := change entry.initialised } }

/-- One table comes from another by edits. -/
abbrev Edited : SymbolTable → SymbolTable → Prop := Relation.ReflTransGen Edits

/-- What each change keeps is kept by all of them together. -/
theorem keeps_of_changes {changes : SymbolTable → SymbolTable → Prop} {Inv : SymbolTable → Prop}
    (h : Relation.ReflTransGen changes table table')
    (hstp : ∀ {table table'}, changes table table' → Inv table → Inv table') (hst : Inv table) : Inv table' := by
  induction h with
  | refl => exact hst
  | tail _ hls ih => exact hstp hls ih

/-! ## Edits -/

theorem allows_of_none (h : symbol.var? = none) : table.Allows scope symbol := by
  intro data hdt
  rw [h] at hdt
  nomatch hdt

theorem IsBuiltin.allows (h : table.IsBuiltin scope symbol) : table.Allows scope symbol :=
  fun data hdt => .inr (.inl (h.vars data hdt).1)

theorem Equips.edits (h : table.Equips table') : table.Edits table' := by
  cases h with
  | define hdef hnew => exact .define hnew.allows hdef
  | update hup hchg =>
    exact .updateSymbol (fun symbol _ => ⟨(hchg symbol).name, (hchg symbol).scope, by rw [(hchg symbol).var]⟩) hup

theorem Declares.edited (h : table.Declares table') : table.Edited table' := by
  cases h with
  | @define scope symbol _ _ hnew hdef =>
    refine .single (.define (fun data hdt => .inr (.inr ?_)) hdef)
    obtain ⟨name, position, home, symbolData⟩ := symbol
    cases hnew with
    | var hf => exact hf
    | _ => nomatch hdt
  | defineUse _ hdef => exact .single (.defineUse hdef)
  | namespaceOf hns => exact .single (.namespaceOf hns)
  | openNamespace hf hadd => exact .single (.openNamespace hf hadd)
  | openBranch hadd => exact .single (.addScope (.inl rfl) hadd)
  | function hdt hdef hadd hup =>
    exact ((Relation.ReflTransGen.single (.define (allows_of_none (by rw [Symbol.var?, hdt])) hdef)).tail
      (.addScope (.inr ⟨_, rfl⟩) hadd)).tail (.updateSymbol (fun symbol _ => .mapMethod symbol _) hup)
  | parameter _ _ hdt hdef hup =>
    refine .tail (.single (.define (fun data hvar => .inl ?_) hdef)) (.updateSymbol (fun symbol _ => .mapMethod symbol _) hup)
    rw [Symbol.var?, hdt] at hvar
    cases hvar
    rfl

theorem mergeBranches_eq_ok {branches : List ScopeId} {exhaustive : Bool}
    (h : mergeBranches scope branches exhaustive table = .ok u table') :
    ∃ merged, table.branchInitialisations branches exhaustive = .ok merged ∧
      table' = { table with scopes := table.scopes.modify scope.index fun entry =>
        { entry with initialised := absorb entry.initialised merged } } := by
  simp only [mergeBranches, Step.bind_eq_ok, Step.query_eq_ok] at h
  obtain ⟨merged, _, ⟨hmerged, rfl⟩, h⟩ := h
  exact ⟨merged, hmerged, updateScope_eq_ok h⟩

theorem Binds.edits (h : table.Binds table') : table.Edits table' := by
  cases h with
  | addErroneous hadd =>
    obtain ⟨_, rfl⟩ := addDetached_eq_ok hadd
    exact .push _
  | bindAlias hsym hal hup =>
    refine .updateSymbol (fun other hoth => ?_) hup
    obtain ⟨name, position, scope, data⟩ := other
    cases hoth.symm.trans hsym
    cases data <;> cases hal
    exact ⟨rfl, rfl, rfl⟩
  | declareType _ hup =>
    refine .updateSymbol (fun symbol _ => ?_) hup
    obtain ⟨name, position, scope, data⟩ := symbol
    cases data <;> exact ⟨rfl, rfl, rfl⟩
  | markInitialised hmark =>
    obtain rfl := updateScope_eq_ok hmark
    exact .initialise _ (·.insert _ .fully)
  | mergeBranches hmg =>
    obtain ⟨merged, _, rfl⟩ := mergeBranches_eq_ok hmg
    exact .initialise _ (absorb · merged)

/-! ## Tables grow -/

theorem admits_of_isNew {data : SymbolData} {name : String} (h : data.IsNew table scope name) (index : Nat)
    (hsym : symbol.data = data) : table'.Admits index symbol := by
  cases h with
  | var => exact admits_of_none (by rw [Symbol.type?, hsym]) (by rw [Symbol.method?, hsym])
  | const => exact admits_of_none (by rw [Symbol.type?, hsym]) (by rw [Symbol.method?, hsym])
  | classType => exact admits_of_type hsym (fun _ => rfl) (by simp)

theorem Declares.grows (h : table.Declares table') : table.Grows table' := by
  cases h with
  | define hnew h => exact grows_define h fun _ => admits_of_isNew hnew _ rfl
  | defineUse hal h =>
    exact grows_defineUse h (by rw [Symbol.type?, hal]) (by rw [Symbol.method?, hal])
  | namespaceOf h => exact grows_namespaceOf h
  | openNamespace _ h => exact grows_addScope h
  | openBranch h => exact grows_addScope h
  | function hdt hdef hadd hup =>
    refine ((grows_define hdef fun _ => admits_of_method hdt (by simp) (by simp)).trans (grows_addScope hadd)).trans ?_
    exact grows_updateSymbol hup fun hsd =>
      hsd.modify_mapMethod _ (fun _ hold => hold) fun _ _ hoth => .inl hoth
  | parameter _ _ hdt hdef hup =>
    refine (grows_define hdef fun _ => admits_of_none (by rw [Symbol.type?, hdt]) (by rw [Symbol.method?, hdt])).trans
      (grows_updateSymbol hup fun hsd => hsd.modify_mapMethod _ (fun _ hold => hold) fun _ other hoth => ?_)
    rcases List.mem_append.mp hoth with hoth | hoth
    · exact .inl hoth
    · rw [List.mem_singleton.mp hoth]
      obtain ⟨home, hsym⟩ := exists_symbol?_define hdef
      exact .inr ⟨_, hsym, by rw [Symbol.var?, hdt]; rfl⟩

theorem grows_of_declares (h : Relation.ReflTransGen Declares table table') : table.Grows table' :=
  keeps_of_changes h (fun hstp hgr => hgr.trans hstp.grows) (.refl table)

theorem grows_initialise (change : OrderedMap SymbolId Initialisation → OrderedMap SymbolId Initialisation)
    (h : table' = { table with scopes := table.scopes.modify scope.index fun entry =>
      { entry with initialised := change entry.initialised } }) : table.Grows table' := by
  subst h
  refine ⟨?_, fun hsd => hsd.of_symbols rfl rfl⟩
  exact keepsScopes_of_modify scope.index (fun entry => { entry with initialised := change entry.initialised })
    rfl rfl (fun _ => rfl) fun _ _ => ⟨rfl, rfl⟩

/-- An alias may be bound to what it stands for. -/
theorem grows_bindAlias {target name : String} {resolved : Option SymbolId}
    (hsym : table.symbol? id = some symbol) (hal : symbol.aliasTarget? = some target)
    (h : updateSymbol id (fun symbol => { symbol with data := .aliasOf name resolved }) table = .ok u table') :
    table.Grows table' := by
  have hdt : ∀ other, table.symbols[id.index]? = some other → other.type? = none ∧ other.var? = none := by
    intro other hoth
    unfold symbol? at hsym
    split at hsym
    · rw [hoth] at hsym
      cases hsym
      unfold Symbol.aliasTarget? at hal
      unfold Symbol.type? Symbol.var?
      split at hal
      · next hdt => simp [hdt]
      · nomatch hal
    · nomatch hsym
  refine grows_updateSymbol h fun hsd => hsd.modify (fun other hoth => ⟨?_, ?_⟩) fun other _ _ => ?_
  · rw [(hdt other hoth).2]
    nofun
  · rw [(hdt other hoth).1]
    nofun
  · exact admits_of_none rfl rfl

theorem Binds.grows (h : table.Binds table') : table.Grows table' := by
  cases h with
  | addErroneous h => exact grows_addDetached h (admits_of_none rfl rfl)
  | bindAlias hsym hal h => exact grows_bindAlias hsym hal h
  | declareType _ h => exact grows_updateSymbol h fun hsd => hsd.modify_mapVariable _ _
  | markInitialised h => exact grows_initialise (·.insert _ .fully) (updateScope_eq_ok h)
  | mergeBranches h =>
    obtain ⟨merged, _, h⟩ := mergeBranches_eq_ok h
    exact grows_initialise (absorb · merged) h

theorem grows_of_binds (h : Relation.ReflTransGen Binds table table') : table.Grows table' :=
  keeps_of_changes h (fun hstp hgr => hgr.trans hstp.grows) (.refl table)

/-! ## Symbols stay what they are -/

/-- The symbols of one table are the same in another, but for what has been found out about them. -/
def KeepsSymbols (table table' : SymbolTable) : Prop :=
  ∀ ⦃id symbol⦄, table.symbol? id = some symbol → ∃ symbol', table'.symbol? id = some symbol' ∧
    symbol'.outline = symbol.outline

theorem KeepsSymbols.refl (table : SymbolTable) : table.KeepsSymbols table := fun _ symbol h => ⟨symbol, h, rfl⟩

theorem KeepsSymbols.trans {table'' : SymbolTable} (h : table.KeepsSymbols table') (h' : table'.KeepsSymbols table'') :
    table.KeepsSymbols table'' := by
  intro id symbol hsym
  obtain ⟨symbol', hsym', hsm⟩ := h hsym
  obtain ⟨symbol'', hsym'', hsm'⟩ := h' hsym'
  exact ⟨symbol'', hsym'', hsm'.trans hsm⟩

theorem keepsSymbols_of_symbols (hgen : table'.generation = table.generation)
    (hsyms : table'.symbols = table.symbols) : table.KeepsSymbols table' := by
  intro id symbol hsym
  exact ⟨symbol, symbol?_of_symbols hgen hsyms ▸ hsym, rfl⟩

theorem keepsSymbols_push (hgen : table'.generation = table.generation)
    (hsyms : table'.symbols = table.symbols.push symbol) : table.KeepsSymbols table' := by
  intro id old hold
  refine ⟨old, ?_, rfl⟩
  rw [symbol?_of_push hgen hsyms, if_neg (ne_of_symbol? hold), hold]

theorem keepsSymbols_updateSymbol {change : Symbol → Symbol} (h : updateSymbol id change table = .ok u table')
    (hchg : ∀ symbol, table.symbol? id = some symbol → (change symbol).outline = symbol.outline) :
    table.KeepsSymbols table' := by
  intro other old hold
  rw [symbol?_updateSymbol h, hold]
  split
  · next heq => exact ⟨_, rfl, hchg old (heq ▸ hold)⟩
  · exact ⟨old, rfl, rfl⟩

theorem keepsSymbols_define (h : define scope symbol table = .ok id table') : table.KeepsSymbols table' := by
  obtain ⟨_, _, _, _, _, rfl⟩ := define_eq_ok h
  exact keepsSymbols_push rfl rfl

theorem keepsSymbols_addScope {name : String} {inner : ScopeId} {kind : ScopeKind}
    (h : addScope name scope kind table = .ok inner table') : table.KeepsSymbols table' :=
  keepsSymbols_of_symbols (addScope_keeps h).1.generation (addScope_keeps h).2.2

theorem keepsSymbols_mapMethod {change : MethodData → MethodData}
    (h : updateSymbol id (·.mapMethod change) table = .ok u table')
    (hchg : ∀ data, (change data).kind = data.kind ∧ (change data).isBuiltin = data.isBuiltin) :
    table.KeepsSymbols table' := by
  refine keepsSymbols_updateSymbol h fun symbol _ => ?_
  obtain ⟨name, position, scope, data⟩ := symbol
  cases data with
  | method data => simp only [Symbol.mapMethod, Symbol.outline, hchg]
  | _ => rfl

theorem Declares.keepsSymbols (h : table.Declares table') : table.KeepsSymbols table' := by
  cases h with
  | define _ h => exact keepsSymbols_define h
  | defineUse _ h =>
    obtain ⟨_, _, _, _, _, _, rfl⟩ := defineUse_eq_ok h
    exact keepsSymbols_push rfl rfl
  | namespaceOf h => exact keepsSymbols_of_symbols (namespaceOf_keeps h).1.generation (namespaceOf_keeps h).2
  | openNamespace _ h | openBranch h => exact keepsSymbols_addScope h
  | function _ hdef hadd hup =>
    exact ((keepsSymbols_define hdef).trans (keepsSymbols_addScope hadd)).trans
      (keepsSymbols_mapMethod hup fun _ => ⟨rfl, rfl⟩)
  | parameter _ _ _ hdef hup =>
    exact (keepsSymbols_define hdef).trans (keepsSymbols_mapMethod hup fun _ => ⟨rfl, rfl⟩)

theorem Binds.keepsSymbols (h : table.Binds table') : table.KeepsSymbols table' := by
  cases h with
  | addErroneous h =>
    obtain ⟨_, rfl⟩ := addDetached_eq_ok h
    exact keepsSymbols_push rfl rfl
  | bindAlias hsym hal h =>
    refine keepsSymbols_updateSymbol h fun other hoth => ?_
    obtain ⟨name, position, scope, data⟩ := other
    cases hoth.symm.trans hsym
    cases data <;> cases hal
    rfl
  | declareType _ h =>
    refine keepsSymbols_updateSymbol h fun symbol _ => ?_
    obtain ⟨name, position, scope, data⟩ := symbol
    cases data <;> rfl
  | markInitialised h =>
    obtain rfl := updateScope_eq_ok h
    exact keepsSymbols_of_symbols rfl rfl
  | mergeBranches h =>
    obtain ⟨_, _, rfl⟩ := mergeBranches_eq_ok h
    exact keepsSymbols_of_symbols rfl rfl

theorem keepsSymbols_of_binds (h : Relation.ReflTransGen Binds table table') : table.KeepsSymbols table' :=
  keeps_of_changes h (fun hstp hkp => hkp.trans hstp.keepsSymbols) (.refl table)

/-! ## What symbols have in common -/

/-- All symbols of a table have a property. -/
def SymbolsAre (P : SymbolId → Symbol → Prop) (table : SymbolTable) : Prop :=
  ∀ ⦃id symbol⦄, table.symbol? id = some symbol → P id symbol

section

variable {P : SymbolId → Symbol → Prop} (h : table.SymbolsAre P)

include h

theorem SymbolsAre.of_symbols (hgen : table'.generation = table.generation) (hsyms : table'.symbols = table.symbols) :
    table'.SymbolsAre P := fun _ _ hsym => h (symbol?_of_symbols hgen hsyms ▸ hsym)

theorem SymbolsAre.push (hgen : table'.generation = table.generation) (hsyms : table'.symbols = table.symbols.push symbol)
    (hsym : ∀ id, P id symbol) : table'.SymbolsAre P := by
  intro id other hoth
  rw [symbol?_of_push hgen hsyms] at hoth
  split at hoth
  · cases hoth
    exact hsym id
  · exact h hoth

theorem SymbolsAre.define (hdef : SymbolTable.define scope symbol table = .ok id table')
    (hsym : ∀ id home, table.variableScope scope = .ok home → P id { symbol with scope := some home }) :
    table'.SymbolsAre P := by
  obtain ⟨home, _, hhm, _, _, rfl⟩ := define_eq_ok hdef
  exact h.push rfl rfl fun id => hsym id home hhm

theorem SymbolsAre.updateSymbol {change : Symbol → Symbol} (hup : SymbolTable.updateSymbol id change table = .ok u table')
    (hchg : ∀ id symbol, P id symbol → P id (change symbol)) : table'.SymbolsAre P := by
  intro other new hnew
  obtain ⟨old, hold, rfl | ⟨_, rfl⟩⟩ := exists_of_updateSymbol hup hnew
  · exact h hold
  · exact hchg other old (h hold)

theorem SymbolsAre.declares (hdcs : table.Declares table')
    (hnew : ∀ id symbol, (∀ data, symbol.var? = some data → data = {} ∨ data = { isParameter := true }) →
      (∀ data, symbol.type? = some data → ∃ scope home, table.variableScope scope = .ok home ∧ symbol.scope = some home ∧
        symbol.data.IsNew table scope symbol.name) → P id symbol)
    (hmth : ∀ id symbol change, P id symbol → P id (symbol.mapMethod change)) : table'.SymbolsAre P := by
  cases hdcs with
  | @define scope symbol _ _ hisNew hdef =>
    refine h.define hdef fun id home hhm => hnew id _ (fun data hdt => ?_) fun _ _ => ⟨scope, home, hhm, rfl, hisNew⟩
    obtain ⟨name, position, _, symbolData⟩ := symbol
    cases hisNew <;> cases hdt
    exact .inl rfl
  | defineUse hal hdef =>
    obtain ⟨_, _, _, _, _, _, rfl⟩ := defineUse_eq_ok hdef
    exact h.push rfl rfl fun id => hnew id _ (by simp [Symbol.var?, hal]) (by simp [Symbol.type?, hal])
  | namespaceOf hns => exact h.of_symbols (namespaceOf_keeps hns).1.generation (namespaceOf_keeps hns).2
  | openNamespace _ hadd | openBranch hadd =>
    exact h.of_symbols (addScope_keeps hadd).1.generation (addScope_keeps hadd).2.2
  | function hdt hdef hadd hup =>
    refine SymbolsAre.updateSymbol (.of_symbols (h.define hdef fun id home _ => hnew id _ (by simp [Symbol.var?, hdt])
      (by simp [Symbol.type?, hdt])) (addScope_keeps hadd).1.generation (addScope_keeps hadd).2.2) hup
      fun id symbol => hmth id symbol _
  | parameter _ _ hdt hdef hup =>
    refine (h.define hdef fun id home _ => hnew id _ (fun data hvar => .inr ?_) (by simp [Symbol.type?, hdt])).updateSymbol hup
      fun id symbol => hmth id symbol _
    rw [Symbol.var?, hdt] at hvar
    exact (Option.some.inj hvar).symm

theorem SymbolsAre.binds (hbis : table.Binds table') (hno : ∀ id symbol, symbol.var? = none → P id symbol)
    (hdcl : ∀ id symbol type, (type = table.erroneousType ∨ ∃ name, table.IsTypeNamed type name) → P id symbol →
      P id (symbol.mapVariable fun data => { data with declared := some type })) : table'.SymbolsAre P := by
  cases hbis with
  | addErroneous hadd =>
    obtain ⟨_, rfl⟩ := addDetached_eq_ok hadd
    exact h.push rfl rfl fun id => hno id _ rfl
  | bindAlias _ _ hup => exact h.updateSymbol hup fun id _ _ => hno id _ rfl
  | declareType htp hup => exact h.updateSymbol hup fun id symbol => hdcl id symbol _ htp
  | markInitialised hmark =>
    obtain rfl := updateScope_eq_ok hmark
    exact h.of_symbols rfl rfl
  | mergeBranches hmg =>
    obtain ⟨_, _, rfl⟩ := mergeBranches_eq_ok hmg
    exact h.of_symbols rfl rfl

end

end SymbolTable

end SoftTyping
