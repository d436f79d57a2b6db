import Mathlib.Data.List.Nodup
import SoftTyping.Proofs.SymbolTable.Lookups

/-!
# What a program adds to a table

A program declares its names outside the scopes of the built-ins (`Aside`), its declarations stand in the files of their
scopes (`FiledFrom`), and the parameters of a function are declared before its other variables (`ParametersLead`). `Records`
says what a change leaves of this, and which declarations it adds.
-/

namespace SoftTyping

/-- The kind of the identifiers that a declaration of its own answers; a local variable is none. -/
def Symbol.declaredAs? (symbol : Symbol) : Option IdentifierKind :=
  match symbol.data with
  | .var data => if data.isParameter then some .var else none
  | .const _ => some .const
  | .method _ => some .method
  | .type _ => some .type
  | .aliasOf _ _ | .erroneous _ => none

/-- A symbol is a variable that is no parameter. -/
def Symbol.IsLocal (symbol : Symbol) : Prop := ∃ data, symbol.var? = some data ∧ data.isParameter = false

theorem Symbol.declaredAs?_outline (symbol : Symbol) : symbol.outline.declaredAs? = symbol.declaredAs? := by
  obtain ⟨_, _, _, data⟩ := symbol
  cases data <;> rfl

theorem Symbol.label_outline (symbol : Symbol) : symbol.outline.label = symbol.label := by
  obtain ⟨_, _, _, data⟩ := symbol
  cases data <;> rfl

theorem Symbol.isLocal_outline (symbol : Symbol) : symbol.outline.IsLocal ↔ symbol.IsLocal := by
  obtain ⟨_, _, _, data⟩ := symbol
  cases data <;> simp [outline, IsLocal, var?]

theorem Symbol.declaredAs?_eq_var {symbol : Symbol} :
    symbol.declaredAs? = some .var ↔ ∃ data, symbol.var? = some data ∧ data.isParameter = true := by
  obtain ⟨_, _, _, data⟩ := symbol
  cases data <;> simp [declaredAs?, var?]

/-- A scope is not one of those of the built-ins. -/
def ScopeId.IsOpen (scope : ScopeId) : Prop := scope.index ≠ 1 ∧ scope.index ≠ 2

namespace SymbolTable

variable {table table' table'' : SymbolTable} {scope storage home : ScopeId} {id : SymbolId} {symbol : Symbol} {key : String}
  {n : Nat} {u : Unit} {change : MethodData → MethodData} {ids : List SymbolId} {entry : Scope}
  {tidy : Prop}

/-! ## Declarations in their order -/

/-- The declarations among the symbols from the `n`-th on. -/
def declaredFrom (table : SymbolTable) (n : Nat) : List SymbolId :=
  ((List.range' n (table.symbols.size - n)).map fun index => (⟨table.generation, index⟩ : SymbolId)).filter fun id =>
    ((table.symbol? id).bind (·.declaredAs?)).isSome

theorem mem_declaredFrom : id ∈ table.declaredFrom n ↔
    n ≤ id.index ∧ ∃ symbol, table.symbol? id = some symbol ∧ symbol.declaredAs?.isSome = true := by
  rw [declaredFrom, List.mem_filter]
  constructor
  · rintro ⟨hid, hdec⟩
    obtain ⟨index, hix, rfl⟩ := List.mem_map.mp hid
    rw [List.mem_range'_1] at hix
    obtain ⟨kind, hk⟩ := Option.isSome_iff_exists.mp hdec
    obtain ⟨symbol, hsym, hk⟩ := Option.bind_eq_some_iff.mp hk
    exact ⟨hix.1, symbol, hsym, Option.isSome_of_eq_some hk⟩
  · rintro ⟨hle, symbol, hsym, hdec⟩
    have hlt := lt_size_of_symbol? hsym
    refine ⟨List.mem_map.mpr ⟨id.index, List.mem_range'_1.mpr (by omega), ?_⟩, ?_⟩
    · rw [← (symbol?_eq_some hsym).1]
    · rwa [hsym, Option.bind_some]

theorem declaredFrom_of_push (hgen : table'.generation = table.generation)
    (hsyms : table'.symbols = table.symbols.push symbol) (hn : n ≤ table.symbols.size) :
    table'.declaredFrom n = table.declaredFrom n ++
      if symbol.declaredAs?.isSome then [⟨table.generation, table.symbols.size⟩] else [] := by
  have hsym := symbol?_of_push hgen hsyms
  have hsz : table'.symbols.size - n = (table.symbols.size - n) + 1 := by
    rw [hsyms, Array.size_push]
    omega
  rw [declaredFrom, declaredFrom, hsz, List.range'_1_concat, List.map_append, List.filter_append, hgen]
  congr 1
  · refine List.filter_congr fun other hoth => ?_
    obtain ⟨index, hix, rfl⟩ := List.mem_map.mp hoth
    rw [List.mem_range'_1] at hix
    rw [hsym, if_neg fun heq => by have := congrArg SymbolId.index heq; simp only at this; omega]
  · rw [show n + (table.symbols.size - n) = table.symbols.size by omega, List.map_singleton, List.filter_singleton, hsym,
      if_pos rfl, Option.bind_some, Bool.cond_eq_ite]

theorem declaredFrom_congr (hgen : table'.generation = table.generation)
    (hsz : table'.symbols.size = table.symbols.size)
    (h : ∀ id, (table'.symbol? id).bind (·.declaredAs?) = (table.symbol? id).bind (·.declaredAs?)) :
    table'.declaredFrom n = table.declaredFrom n := by
  rw [declaredFrom, declaredFrom, hgen, hsz]
  exact List.filter_congr fun other _ => by rw [h other]

/-! ## Scopes of the program -/

/-- No scope stands in a scope of the built-ins or keeps its declarations there. -/
structure Aside (table : SymbolTable) : Prop where
  size : 3 ≤ table.scopes.size
  enclosing : ∀ {id entry outer}, table.scope? id = some entry → entry.enclosing = some outer → outer.IsOpen
  storage : ∀ {id entry storage uses}, table.scope? id = some entry → entry.kind = .namespaceBlock storage uses →
    storage.IsOpen
  namespaces : ∀ {key storage}, table.namespaces.get? key = some storage → storage.IsOpen

theorem Aside.isOpen_storageScope (h : table.Aside) (hsc : scope.IsOpen) (hsto : table.storageScope scope = .ok storage) :
    storage.IsOpen := by
  obtain ⟨⟨home, entry⟩, hhm, _⟩ := Refusal.bind_eq_ok.mp hsto
  obtain ⟨hop, he⟩ := of_home hsc h.enclosing hhm
  rw [storageScope_of_home hhm] at hsto
  cases hk : entry.kind <;> simp only [hk] at hsto <;> cases hsto
  case namespaceBlock => exact h.storage he hk
  all_goals exact hop

theorem Aside.of_keeps (h : table.Aside) (hkp : table.KeepsScopes table')
    (hsz : table'.scopes.size = table.scopes.size) (hnss : table'.namespaces = table.namespaces) : table'.Aside where
  size := hsz ▸ h.size
  enclosing := fun he' hou => by
    obtain ⟨entry, he, henc, _⟩ := hkp.exists_scope? hsz he'
    exact h.enclosing he (henc ▸ hou)
  storage := fun he' hk => by
    obtain ⟨entry, he, _, hout⟩ := hkp.exists_scope? hsz he'
    rw [hk] at hout
    obtain ⟨uses, hk⟩ := ScopeKind.exists_of_outline hout.symm
    exact h.storage he hk
  namespaces := fun hkey => h.namespaces (hnss ▸ hkey)

/-! ## Declarations in their scopes -/

/-- The parameters of a scope are declared before its other variables. -/
def ParametersLead (table : SymbolTable) : Prop :=
  ∀ ⦃id other : SymbolId⦄ ⦃first second : Symbol⦄, table.symbol? id = some first → table.symbol? other = some second →
    first.scope = second.scope → first.declaredAs? = some .var → second.IsLocal → id.index < other.index

/-- A scope has no variables other than parameters. -/
def LacksLocals (table : SymbolTable) (scope : ScopeId) : Prop :=
  ∀ ⦃id : SymbolId⦄ ⦃symbol : Symbol⦄, table.symbol? id = some symbol → symbol.scope = some scope → ¬ symbol.IsLocal

/-- Something may be declared in a scope: it is there, and no branch. -/
def IsHouse (table : SymbolTable) (scope : ScopeId) : Prop :=
  ∃ entry, table.scope? scope = some entry ∧ entry.isConditional = false

theorem IsHouse.mono (h : table.IsHouse scope) (hkp : table.KeepsScopes table') : table'.IsHouse scope := by
  obtain ⟨entry, he, hhouse⟩ := h
  obtain ⟨entry', he', _, hout⟩ := hkp.scope he
  exact ⟨entry', he', (isConditional_of_outline hout).trans hhouse⟩

theorem isHouse_of_home (h : table.home scope = .ok (home, entry)) : table.IsHouse home := ⟨entry, scope?_of_home h⟩

theorem isHouse_of_variableScope (h : table.variableScope scope = .ok home) : table.IsHouse home := by
  obtain ⟨⟨_, entry⟩, hhm, h⟩ := Refusal.bind_eq_ok.mp h
  cases h
  exact isHouse_of_home hhm

/-- Symbols are declared where something may be declared. -/
def Housed (table : SymbolTable) : Prop :=
  ∀ ⦃id : SymbolId⦄ ⦃symbol : Symbol⦄ ⦃scope : ScopeId⦄, table.symbol? id = some symbol → symbol.scope = some scope →
    table.IsHouse scope

/-- The declarations from some index on are filed under their names. -/
def FiledFrom (n : Nat) (table : SymbolTable) : Prop :=
  ∀ ⦃id : SymbolId⦄ ⦃symbol : Symbol⦄, n ≤ id.index → table.symbol? id = some symbol → symbol.declaredAs?.isSome = true →
    ∃ storage, id ∈ table.fileOf storage (Text.lowerCase symbol.name)

/-! ## Changes -/

theorem KeepsSymbols.exists_symbol? (hkp : table.KeepsSymbols table') (hgen : table'.generation = table.generation)
    (hlt : id.index < table.symbols.size) (hsym : table'.symbol? id = some symbol) :
    ∃ old, table.symbol? id = some old ∧ symbol.outline = old.outline := by
  have hget : table.symbol? id = some table.symbols[id.index] := by
    rw [symbol?, if_pos ((symbol?_eq_some hsym).1.trans hgen)]
    exact Array.getElem?_eq_getElem hlt
  obtain ⟨same, hsm, hout⟩ := hkp hget
  cases hsym.symm.trans hsm
  exact ⟨_, hget, hout⟩

/-- A program, in which functions may have their parameters before their bodies (`tidy`), changes a table, and adds some
declarations. -/
structure Records (tidy : Prop) (ids : List SymbolId) (table table' : SymbolTable) : Prop where
  generation : table'.generation = table.generation
  keeps : table.KeepsSymbols table'
  symbols : table.symbols.size ≤ table'.symbols.size
  scopes : table.scopes.size ≤ table'.scopes.size
  declared : ∀ {n}, n ≤ table.symbols.size → table'.declaredFrom n = table.declaredFrom n ++ ids
  aside : table.Aside → table'.Aside
  files : table.Aside → ∀ {storage key id}, id ∈ table'.fileOf storage key →
    id ∈ table.fileOf storage key ∨ (table.symbols.size ≤ id.index ∧ storage.IsOpen)
  functions : ∀ {id symbol}, table.symbols.size ≤ id.index → table'.symbol? id = some symbol → symbol.label ≠ "operator"
  leads : tidy → table.ParametersLead → table'.ParametersLead
  housed : table.Housed → table'.Housed
  filed : ∀ {n}, table.FiledFrom n → table'.FiledFrom n

theorem Records.trans {ids' : List SymbolId} (h : Records tidy ids table table')
    (h' : Records tidy ids' table' table'') : Records tidy (ids ++ ids') table table'' where
  generation := h'.generation.trans h.generation
  keeps := h.keeps.trans h'.keeps
  symbols := Nat.le_trans h.symbols h'.symbols
  scopes := Nat.le_trans h.scopes h'.scopes
  declared := fun hn => by
    rw [h'.declared (Nat.le_trans hn h.symbols), h.declared hn, List.append_assoc]
  aside := fun hasd => h'.aside (h.aside hasd)
  files := fun hasd _ _ _ hid => by
    rcases h'.files (h.aside hasd) hid with hid | ⟨hle, hop⟩
    · exact h.files hasd hid
    · exact .inr ⟨Nat.le_trans h.symbols hle, hop⟩
  functions := fun {id symbol} hle hsym => by
    by_cases hid : table'.symbols.size ≤ id.index
    · exact h'.functions hid hsym
    · obtain ⟨_, hold, hout⟩ := h'.keeps.exists_symbol? h'.generation (Nat.lt_of_not_le hid) hsym
      rw [← Symbol.label_outline, hout, Symbol.label_outline]
      exact h.functions hle hold
  leads := fun htidy hleads => h'.leads htidy (h.leads htidy hleads)
  housed := fun hhoused => h'.housed (h.housed hhoused)
  filed := fun hfiled => h'.filed (h.filed hfiled)

theorem Aside.define (hasd : table.Aside) (h : define scope symbol table = .ok id table') : table'.Aside := by
  obtain ⟨_, _, _, _, _, htb⟩ := define_eq_ok h
  exact hasd.of_keeps (keepsScopes_define h) (by rw [htb, Array.size_modify]) (by rw [htb])

/-- A symbol that is added is the last one, so that it may be a parameter only where there is no other variable. -/
theorem ParametersLead.push (h : table.ParametersLead) (hgen : table'.generation = table.generation)
    (hsyms : table'.symbols = table.symbols.push symbol)
    (hpar : symbol.declaredAs? = some .var → ∀ scope, symbol.scope = some scope → table.LacksLocals scope)
    (hsc : symbol.declaredAs? = some .var → symbol.scope.isSome) : table'.ParametersLead := by
  have hsym := symbol?_of_push hgen hsyms
  intro id other first second hfst hsnd hsm hdec hloc
  rw [hsym] at hfst hsnd
  split at hfst
  · next hid =>
    cases hfst
    obtain ⟨scope, hsc⟩ := Option.isSome_iff_exists.mp (hsc hdec)
    split at hsnd
    · cases hsnd
      obtain ⟨data, hdt, hloc⟩ := hloc
      obtain ⟨_, _, _, data'⟩ := symbol
      cases data' <;> cases hdt
      simp [Symbol.declaredAs?, hloc] at hdec
    · exact absurd hloc (hpar hdec scope hsc hsnd (hsm ▸ hsc))
  · have hlt := lt_size_of_symbol? hfst
    split at hsnd
    · next hoth =>
      rw [hoth]
      exact hlt
    · exact h hfst hsnd hsm hdec hloc

theorem Housed.push (h : table.Housed) (hgen : table'.generation = table.generation)
    (hsyms : table'.symbols = table.symbols.push symbol) (hkp : table.KeepsScopes table')
    (hsym : ∀ scope, symbol.scope = some scope → table.IsHouse scope) : table'.Housed := by
  intro id other scope hoth hsc
  rw [symbol?_of_push hgen hsyms] at hoth
  refine IsHouse.mono ?_ hkp
  split at hoth
  · cases hoth
    exact hsym scope hsc
  · exact h hoth hsc

theorem LacksLocals.define {other : ScopeId} (h : table.LacksLocals other)
    (hdef : define scope symbol table = .ok id table') (hsym : ¬ symbol.IsLocal) : table'.LacksLocals other := by
  obtain ⟨home, _, hnew⟩ := symbol?_define hdef
  intro id found hf hsc
  rw [hnew] at hf
  split at hf
  · cases hf
    exact hsym
  · exact h hf hsc

theorem LacksLocals.mapMethod (h : table.LacksLocals scope)
    (hup : updateSymbol id (·.mapMethod change) table = .ok u table') : table'.LacksLocals scope := by
  intro other found hf hsc
  obtain ⟨old, hold, rfl | ⟨_, rfl⟩⟩ := exists_of_updateSymbol hup hf
  · exact h hold hsc
  · rw [Symbol.IsLocal, Symbol.var?_mapMethod]
    exact h hold (Symbol.scope_mapMethod old change ▸ hsc)

/-! ### What the controllers do -/

theorem records_push (hgen : table'.generation = table.generation)
    (hsyms : table'.symbols = table.symbols.push symbol) (hsz : table'.scopes.size = table.scopes.size)
    (hlabel : symbol.label ≠ "operator")
    (hlk : tidy → symbol.declaredAs? = some .var → ∀ scope, symbol.scope = some scope → table.LacksLocals scope)
    (hkp : table.KeepsScopes table') (hsc : ∃ scope, symbol.scope = some scope ∧ table.IsHouse scope)
    (hasd : table.Aside → table'.Aside)
    (hfls : table.Aside → ∀ {storage key id}, id ∈ table'.fileOf storage key →
      id ∈ table.fileOf storage key ∨ (table.symbols.size ≤ id.index ∧ storage.IsOpen))
    (hkt : ∀ storage key, table.fileOf storage key ⊆ table'.fileOf storage key)
    (hfiled : symbol.declaredAs?.isSome = true →
      ∃ storage, ⟨table.generation, table.symbols.size⟩ ∈ table'.fileOf storage (Text.lowerCase symbol.name)) :
    Records tidy (if symbol.declaredAs?.isSome then [⟨table.generation, table.symbols.size⟩] else []) table table' where
  generation := hgen
  keeps := keepsSymbols_push hgen hsyms
  symbols := by
    rw [hsyms, Array.size_push]
    exact Nat.le_succ _
  scopes := Nat.le_of_eq hsz.symm
  declared := declaredFrom_of_push hgen hsyms
  aside := hasd
  files := hfls
  functions := fun hle hf => by
    rw [symbol?_of_push hgen hsyms] at hf
    split at hf
    · cases hf
      exact hlabel
    · exact absurd (lt_size_of_symbol? hf) (Nat.not_lt.mpr hle)
  leads := fun htidy hleads => hleads.push hgen hsyms (hlk htidy) fun _ => by
    obtain ⟨_, hsc, _⟩ := hsc
    rw [hsc]
    rfl
  housed := fun hhoused => by
    obtain ⟨home, hhm, hhouse⟩ := hsc
    refine hhoused.push hgen hsyms hkp fun scope hsc => ?_
    cases hhm.symm.trans hsc
    exact hhouse
  filed := fun hold id found hle hf hdec => by
    rw [symbol?_of_push hgen hsyms] at hf
    split at hf
    · next hid =>
      cases hf
      exact hid ▸ hfiled hdec
    · obtain ⟨storage, hmem⟩ := hold hle hf hdec
      exact ⟨storage, hkt _ _ hmem⟩

/-- A name is declared outside the scopes of the built-ins, and a parameter only where there is no other variable. -/
theorem records_define (h : define scope symbol table = .ok id table') (hop : scope.IsOpen)
    (hlabel : symbol.label ≠ "operator")
    (hlk : tidy → symbol.declaredAs? = some .var → ∀ home, table.variableScope scope = .ok home → table.LacksLocals home) :
    Records tidy (if symbol.declaredAs?.isSome then [id] else []) table table' := by
  obtain ⟨home, kept, hhm, hkt, hid, htb⟩ := define_eq_ok h
  have hgen : table'.generation = table.generation := by rw [htb]
  have hsyms : table'.symbols = table.symbols.push { symbol with scope := some home } := by rw [htb]
  have hsz : table'.scopes.size = table.scopes.size := by rw [htb, Array.size_modify]
  have hpu : Records tidy (if ({ symbol with scope := some home } : Symbol).declaredAs?.isSome then
      [⟨table.generation, table.symbols.size⟩] else []) table table' := by
    refine records_push hgen hsyms hsz hlabel (fun htidy hpar scope hsc => ?_) (keepsScopes_define h)
      ⟨home, rfl, isHouse_of_variableScope hhm⟩ (fun hasd => hasd.define h) (fun hasd {storage key other} hoth => ?_)
      (fun storage key => ?_) fun _ => hid ▸ (exists_fileOf_define h).imp fun _ => And.right
    · cases hsc
      exact hlk htidy hpar home hhm
    · rcases mem_fileOf_define h hoth with hoth | ⟨rfl, _, _, _, hkt', hix⟩
      · exact .inl hoth
      · obtain ⟨hcore, hsup⟩ := hasd.isOpen_storageScope hop hkt'
        rw [hid]
        exact .inr ⟨Nat.le_refl _, hix ▸ hcore, hix ▸ hsup⟩
    · rcases fileOf_define h storage key with hfile | ⟨hfile, _⟩ <;> rw [hfile]
      · exact List.Subset.refl _
      · exact List.subset_append_left _ _
  rw [hid]
  exact hpu

theorem records_defineUse {block : ScopeId} {target : String} (h : defineUse block symbol table = .ok id table')
    (hdt : symbol.data = .aliasOf target none) : Records tidy [] table table' := by
  obtain ⟨hid, entry, storage, uses, he, hk, htb⟩ := defineUse_eq_ok h
  have hno : ({ symbol with scope := some block } : Symbol).declaredAs? = none := by simp only [Symbol.declaredAs?, hdt]
  have hgen : table'.generation = table.generation := by rw [htb]
  have hsyms : table'.symbols = table.symbols.push { symbol with scope := some block } := by rw [htb]
  have hscs : table'.scopes = table.scopes.modify block.index fun entry =>
      { entry with kind := .namespaceBlock storage (fileUnder uses (Text.lowerCase symbol.name) id) } := by rw [htb]
  have hsz : table'.scopes.size = table.scopes.size := by rw [hscs, Array.size_modify]
  have hfls : ∀ storage key, table'.fileOf storage key = table.fileOf storage key :=
    fun _ _ => fileOf_of_modify block.index _ hgen hscs fun _ => rfl
  have hpu := records_push hgen hsyms hsz (by simp only [Symbol.label, hdt]; decide)
    (fun (_ : tidy) hpar => by rw [hno] at hpar; cases hpar) (keepsScopes_defineUse h)
    ⟨block, rfl, entry, he, by rw [Scope.isConditional, hk]⟩
    (fun hasd => hasd.of_keeps (keepsScopes_defineUse h) hsz (by rw [htb])) (fun _ _ _ _ hoth => .inl (hfls _ _ ▸ hoth))
    (fun _ _ => by rw [hfls]; exact List.Subset.refl _) fun hdec => by rw [hno] at hdec; cases hdec
  rw [hno] at hpu
  exact hpu

/-- A change that neither adds a symbol nor files one. -/
theorem records_of_files (hkp : table.KeepsSymbols table') (hsz : table'.symbols.size = table.symbols.size)
    (hscs : table.KeepsScopes table') (hle : table.scopes.size ≤ table'.scopes.size) (hasd : table.Aside → table'.Aside)
    (hfls : ∀ storage key, table'.fileOf storage key = table.fileOf storage key) : Records tidy [] table table' := by
  -- The symbols are the same ones, but for what has been found out.
  have hold : ∀ {other : SymbolId} {new : Symbol}, table'.symbol? other = some new →
      ∃ old, table.symbol? other = some old ∧ new.outline = old.outline := by
    intro other new hnew
    exact hkp.exists_symbol? hscs.generation (hsz ▸ lt_size_of_symbol? hnew) hnew
  have hdec : ∀ other, (table'.symbol? other).bind (·.declaredAs?) = (table.symbol? other).bind (·.declaredAs?) := by
    intro other
    cases hnew : table'.symbol? other with
    | none =>
      cases hget : table.symbol? other with
      | none => rfl
      | some old =>
        obtain ⟨_, hsm, _⟩ := hkp hget
        rw [hnew] at hsm
        cases hsm
    | some new =>
      obtain ⟨old, hget, hout⟩ := hold hnew
      rw [hget, Option.bind_some, Option.bind_some, ← Symbol.declaredAs?_outline, hout, Symbol.declaredAs?_outline]
  exact {
    generation := hscs.generation
    keeps := hkp
    symbols := Nat.le_of_eq hsz.symm
    scopes := hle
    declared := fun _ => by
      rw [List.append_nil]
      exact declaredFrom_congr hscs.generation hsz hdec
    aside := hasd
    files := fun _ _ _ _ hoth => .inl (hfls _ _ ▸ hoth)
    functions := fun hle hf => absurd (lt_size_of_symbol? hf) (by rw [hsz]; exact Nat.not_lt.mpr hle)
    leads := fun _ hleads first second firstSymbol secondSymbol hfst hsnd hsc hpar hloc => by
      obtain ⟨oldFirst, hfst, hout⟩ := hold hfst
      obtain ⟨oldSecond, hsnd, hout'⟩ := hold hsnd
      refine hleads hfst hsnd ?_ ?_ ?_
      · rw [← Symbol.scope_of_outline hout, hsc, Symbol.scope_of_outline hout']
      · rw [← Symbol.declaredAs?_outline, ← hout, Symbol.declaredAs?_outline, hpar]
      · rwa [← Symbol.isLocal_outline, ← hout', Symbol.isLocal_outline]
    housed := fun hhoused other new scope hnew hsc => by
      obtain ⟨old, hget, hout⟩ := hold hnew
      exact (hhoused hget (Symbol.scope_of_outline hout ▸ hsc)).mono hscs
    filed := fun hfiled other new hle hnew hdec => by
      obtain ⟨old, hget, hout⟩ := hold hnew
      rw [← Symbol.declaredAs?_outline, hout, Symbol.declaredAs?_outline] at hdec
      obtain ⟨storage, hmem⟩ := hfiled hle hget hdec
      rw [Symbol.name_of_outline hout]
      exact ⟨storage, (hfls _ _).symm ▸ hmem⟩ }

theorem Records.refl (table : SymbolTable) : Records tidy [] table table :=
  records_of_files (.refl table) rfl (.refl table) (Nat.le_refl _) id fun _ _ => rfl

/-- A scope is added outside those of the built-ins. -/
theorem records_pushScope (hgen : table'.generation = table.generation)
    (hsyms : table'.symbols = table.symbols) (hscs : table'.scopes = table.scopes.push entry)
    (he : entry.symbols = ∅) (henc : ∀ outer, entry.enclosing = some outer → outer.IsOpen)
    (hsto : table.Aside → ∀ storage uses, entry.kind = .namespaceBlock storage uses → storage.IsOpen)
    (hnss : table.Aside → ∀ {key storage}, table'.namespaces.get? key = some storage → storage.IsOpen) :
    Records tidy [] table table' := by
  have hsc : ∀ {id found}, table'.scope? id = some found → found = entry ∨ table.scope? id = some found := by
    intro id found hf
    obtain ⟨hsm, hget⟩ := scope?_eq_some hf
    rw [hscs, Array.getElem?_push] at hget
    split at hget
    · exact .inl (Option.some.inj hget).symm
    · exact .inr ((if_pos (hsm.trans hgen)).trans hget)
  have hle : table.scopes.size ≤ table'.scopes.size := by
    rw [hscs, Array.size_push]
    exact Nat.le_succ _
  refine records_of_files (keepsSymbols_of_symbols hgen hsyms) (by rw [hsyms])
    ((keepsScopes_pushScope table entry).trans (keepsScopes_of_scopes hgen hscs)) hle (fun hasd => ?_) fun _ _ =>
    fileOf_of_push hgen hscs he
  refine ⟨Nat.le_trans hasd.size hle, fun hf hou => ?_, fun hf hk => ?_, hnss hasd⟩
  · rcases hsc hf with rfl | hf
    · exact henc _ hou
    · exact hasd.enclosing hf hou
  · rcases hsc hf with rfl | hf
    · exact hsto hasd _ _ hk
    · exact hasd.storage hf hk

theorem Aside.isOpen_addScope {name : String} {outer inner : ScopeId} {kind : ScopeKind} (hasd : table.Aside)
    (h : addScope name outer kind table = .ok inner table') : inner.IsOpen := by
  have hix : inner.index = table.scopes.size := by rw [(addScope_eq_ok h).1]; rfl
  have hsz := hasd.size
  exact ⟨by omega, by omega⟩

theorem records_addScope {name : String} {outer inner : ScopeId} {kind : ScopeKind}
    (h : addScope name outer kind table = .ok inner table') (hou : outer.IsOpen)
    (hk : table.Aside → ∀ storage uses, kind = .namespaceBlock storage uses → storage.IsOpen) :
    Records tidy [] table table' := by
  obtain ⟨_, rfl⟩ := addScope_eq_ok h
  refine records_pushScope rfl rfl rfl rfl (fun outer' hou' => ?_) hk fun hasd {_ _} hkey => hasd.namespaces hkey
  cases hou'
  exact hou

theorem records_namespaceOf {path : String} (h : namespaceOf path table = .ok storage table') :
    Records tidy [] table table' := by
  obtain ⟨_, rfl⟩ | ⟨_, rfl, rfl⟩ := namespaceOf_eq_ok h
  · exact .refl _
  · refine records_pushScope rfl rfl rfl rfl (fun outer hou => ?_) (fun _ _ _ hk => nomatch hk)
      fun hasd {key storage} hkey => ?_
    · cases hou
      exact ⟨nofun, nofun⟩
    · rw [OrderedMap.get?_insert] at hkey
      split at hkey
      · cases hkey
        have hsz := hasd.size
        exact ⟨by dsimp only; omega, by dsimp only; omega⟩
      · exact hasd.namespaces hkey

theorem records_mapMethod (h : updateSymbol id (·.mapMethod change) table = .ok u table')
    (hchg : ∀ data, (change data).kind = data.kind ∧ (change data).isBuiltin = data.isBuiltin) :
    Records tidy [] table table' := by
  have hkp := keepsSymbols_mapMethod h hchg
  obtain ⟨_, rfl⟩ := updateSymbol_eq_ok h
  have hscs : table.KeepsScopes { table with symbols := table.symbols.modify id.index (·.mapMethod change) } :=
    keepsScopes_of_scopes rfl rfl
  exact records_of_files hkp Array.size_modify hscs (Nat.le_refl _) (fun hasd => hasd.of_keeps hscs rfl rfl) fun _ _ =>
    fileOf_of_scopes rfl rfl

/-! ## Libraries -/

/-- A table to which libraries have added: they use the scopes of the built-ins only. -/
structure Equipped (table : SymbolTable) : Prop where
  represented : table.Represented
  aside : table.Aside
  parameterless : ∀ ⦃id symbol⦄, table.symbol? id = some symbol → symbol.declaredAs? ≠ some .var
  housed : table.Housed
  closed : ∀ ⦃storage key id⦄, id ∈ table.fileOf storage key → ¬ storage.IsOpen

theorem equipped_new (generation : Generation) : (new generation).Equipped where
  represented := represented_new generation
  aside := by
    refine ⟨Nat.le_refl 3, fun hf hou => ?_, fun hf hk => ?_, fun {key storage} hkey => ?_⟩
    · obtain ⟨_, _, hno⟩ := scope_of_new hf
      cases hno.symm.trans hou
    · obtain ⟨_, hpth, _⟩ := scope_of_new hf
      cases hpth.symm.trans hk
    · simp only [new, OrderedMap.get?_insert, OrderedMap.get?_empty] at hkey
      split at hkey
      · cases hkey
        exact ⟨by simp, by simp⟩
      · cases hkey
  parameterless := fun id symbol hsym hpar => by
    cases symbol_of_new (symbol?_eq_some hsym).2
    cases hpar
  housed := fun id symbol scope hsym hsc => by
    cases symbol_of_new (symbol?_eq_some hsym).2
    cases hsc
    exact ⟨_, if_pos rfl, rfl⟩
  closed := fun storage key id hid => by
    rw [fileOf_new] at hid
    cases hid

theorem Rooted.storageScope_builtins (h : table.Rooted) (hsc : scope = table.coreScope ∨ scope = table.superGlobalScope)
    (hsto : table.storageScope scope = .ok storage) : storage = scope := by
  have hix : ∃ index < 3, scope = ⟨table.generation, index⟩ := by
    rcases hsc with rfl | rfl
    · exact ⟨1, by omega, rfl⟩
    · exact ⟨2, by omega, rfl⟩
  obtain ⟨index, hix, rfl⟩ := hix
  obtain ⟨entry, path, he, hk⟩ := h.special index hix
  have hhm := h.home_self he (by rw [Scope.isConditional, hk])
  rw [storageScope_of_home hhm, hk] at hsto
  exact (Except.ok.inj hsto).symm

theorem Equips.equipped (hequips : table.Equips table') (h : table.Equipped) : table'.Equipped := by
  have hrep := hequips.edits.represented h.represented
  cases hequips with
  | @define _ symbol _ _ hdef hnew =>
    obtain ⟨home, kept, hhm, hkt, hid, htb⟩ := define_eq_ok hdef
    have hgen : table'.generation = table.generation := by rw [htb]
    have hsyms : table'.symbols = table.symbols.push { symbol with scope := some home } := by rw [htb]
    refine ⟨hrep, h.aside.define hdef, fun id other hoth hpar => ?_, ?_, fun storage key id hoth => ?_⟩
    · rw [symbol?_of_push hgen hsyms] at hoth
      split at hoth
      · cases hoth
        obtain ⟨data, hdt, hpar⟩ := Symbol.declaredAs?_eq_var.mp hpar
        rw [(hnew.vars data hdt).2.1] at hpar
        nomatch hpar
      · exact h.parameterless hoth hpar
    · refine h.housed.push hgen hsyms (keepsScopes_define hdef) fun scope hsc => ?_
      cases hsc
      exact isHouse_of_variableScope hhm
    · rcases mem_fileOf_define hdef hoth with hoth | ⟨_, _, _, _, hkt', hix⟩
      · exact h.closed hoth
      · rw [h.represented.rooted.storageScope_builtins hnew.place hkt'] at hix
        rintro ⟨hcore, hsup⟩
        rcases hnew.place with rfl | rfl
        · exact hcore hix.symm
        · exact hsup hix.symm
  | @update _ change _ _ hup hchg =>
    obtain ⟨_, htb⟩ := updateSymbol_eq_ok hup
    have hgen : table'.generation = table.generation := by rw [htb]
    have hscs : table'.scopes = table.scopes := by rw [htb]
    have hfls : ∀ storage key, table'.fileOf storage key = table.fileOf storage key :=
      fun _ _ => fileOf_of_scopes hgen hscs
    have hold : ∀ {other : SymbolId} {new : Symbol}, table'.symbol? other = some new →
        ∃ old, table.symbol? other = some old ∧ new.scope = old.scope ∧ new.var? = old.var? := by
      intro other new hnew
      obtain ⟨old, hold, rfl | ⟨_, rfl⟩⟩ := exists_of_updateSymbol hup hnew
      · exact ⟨_, hold, rfl, rfl⟩
      · exact ⟨old, hold, (hchg old).scope, (hchg old).var⟩
    refine ⟨hrep, ?_, fun id new hnew hpar => ?_, fun id new scope hnew hsc => ?_,
      fun storage key id hid => h.closed (hfls storage key ▸ hid)⟩
    · exact h.aside.of_keeps (keepsScopes_of_scopes hgen hscs) (by rw [hscs]) (by rw [htb])
    · obtain ⟨old, hget, _, hsm⟩ := hold hnew
      rw [Symbol.declaredAs?_eq_var, hsm] at hpar
      exact h.parameterless hget (Symbol.declaredAs?_eq_var.mpr hpar)
    · obtain ⟨old, hget, hsm, _⟩ := hold hnew
      exact (h.housed hget (hsm ▸ hsc)).mono (keepsScopes_of_scopes hgen hscs)

theorem equipped_withLibraries {generation : Generation} {libraries : List Library}
    (h : withLibraries generation libraries = .ok table) : table.Equipped :=
  keeps_of_changes (equips_withLibraries h) Equips.equipped (equipped_new generation)

theorem Equipped.parametersLead (h : table.Equipped) : table.ParametersLead :=
  fun _ _ _ _ hfst _ _ hpar _ => absurd hpar (h.parameterless hfst)

/-! ## Programs -/

/-- The table of a program whose declarations come after those of the libraries, from some index on. -/
structure Programmed (tidy : Prop) (n : Nat) (table : SymbolTable) : Prop where
  leads : tidy → table.ParametersLead
  filed : table.FiledFrom n
  housed : table.Housed
  own : ∀ ⦃storage key id⦄, id ∈ table.fileOf storage key → (n ≤ id.index ↔ storage.IsOpen)
  functions : ∀ ⦃id symbol⦄, n ≤ id.index → table.symbol? id = some symbol → symbol.label ≠ "operator"

theorem Equipped.programmed (h : table.Equipped) (hrec : Records tidy ids table table') :
    table'.Programmed tidy table.symbols.size where
  leads := fun htidy => hrec.leads htidy h.parametersLead
  filed := hrec.filed fun id symbol hle hsym _ => absurd (lt_size_of_symbol? hsym) (Nat.not_lt.mpr hle)
  housed := hrec.housed h.housed
  own := fun storage key id hid => by
    rcases hrec.files h.aside hid with hold | ⟨hle, hop⟩
    · obtain ⟨_, _, hsym, _⟩ := h.represented.kept hold
      exact ⟨fun hle => absurd (lt_size_of_symbol? hsym) (Nat.not_lt.mpr hle), fun hop => absurd hop (h.closed hold)⟩
    · exact ⟨fun _ => hop, fun _ => hle⟩
  functions := fun _ _ => hrec.functions

end SymbolTable

end SoftTyping
