import SoftTyping.Proofs.SymbolTable.Initialised

/-!
# To whom declarations belong

In a table that is made by declaring, declarations are kept in the order in which they were made, the scope of a function is
linked with the function, and a parameter is listed by the function in whose scope it was declared (`Owned`). So a function
has one scope only (`Owned.scope_unique`).
-/

namespace SoftTyping.SymbolTable

variable {table table' table₁ : SymbolTable} {scope : ScopeId} {id function : SymbolId} {symbol : Symbol} {entry : Scope}
  {u : Unit} {change : Symbol → Symbol}

/-- A symbol is a function that has a scope for its own. -/
def IsLinked (table : SymbolTable) (function : SymbolId) (scope : ScopeId) : Prop :=
  ∃ symbol data, table.symbol? function = some symbol ∧ symbol.method? = some data ∧ data.scope = some scope

/-- A symbol was declared in the scope of a function that lists it among its parameters. -/
def IsListed (table : SymbolTable) (id : SymbolId) : Prop :=
  ∃ symbol scope entry function method data, table.symbol? id = some symbol ∧ symbol.scope = some scope ∧
    table.scope? scope = some entry ∧ entry.kind = .method function ∧ table.symbol? function = some method ∧
    method.method? = some data ∧ id ∈ data.parameters

/-- A symbol is a parameter. -/
def IsParameter (table : SymbolTable) (id : SymbolId) : Prop :=
  ∃ symbol data, table.symbol? id = some symbol ∧ symbol.var? = some data ∧ data.isParameter = true

/-- What a scope keeps under a key stands there in the order of its declaration. -/
def FilesOrdered (table : SymbolTable) : Prop :=
  ∀ storage key, (table.fileOf storage key).Pairwise (·.index < ·.index)

/-- Declarations belong to the scopes in which they were made. -/
structure Owned (table : SymbolTable) : Prop extends Represented table where
  ordered : table.FilesOrdered
  linked : ∀ {scope entry function}, table.scope? scope = some entry → entry.kind = .method function →
    table.IsLinked function scope
  listed : ∀ {id}, table.IsParameter id → table.IsListed id

/-- A function has one scope. -/
theorem Owned.scope_unique (h : table.Owned) {scope' : ScopeId} {entry' : Scope} (he : table.scope? scope = some entry)
    (hk : entry.kind = .method function) (he' : table.scope? scope' = some entry')
    (hk' : entry'.kind = .method function) : scope = scope' := by
  obtain ⟨symbol, data, hsym, hdt, hsc⟩ := h.linked he hk
  obtain ⟨symbol', data', hsym', hdt', hsc'⟩ := h.linked he' hk'
  cases hsym.symm.trans hsym'
  cases hdt.symm.trans hdt'
  exact Option.some.inj (hsc.symm.trans hsc')

/-! ## Changes -/

theorem Edits.filesOrdered (heds : table.Edits table') (hrep : table.Represented) (h : table.FilesOrdered) :
    table'.FilesOrdered := by
  intro storage key
  obtain hfls | ⟨_, _, _, _, hdef⟩ | ⟨_, _, _, hdef⟩ := heds.files
  · exact hfls.files storage key ▸ h storage key
  · rcases fileOf_define hdef storage key with hfile | ⟨hfile, _⟩ <;> rw [hfile]
    · exact h storage key
    · refine List.pairwise_append.mpr ⟨h storage key, List.pairwise_singleton _ _, fun first hfst last hls => ?_⟩
      obtain ⟨_, _, hsym, _⟩ := hrep.kept hfst
      obtain ⟨_, _, _, _, rfl, _⟩ := define_eq_ok hdef
      rw [List.mem_singleton.mp hls]
      exact lt_size_of_symbol? hsym
  · exact fileOf_defineUse hdef ▸ h storage key

/-- What is left of the functions when a table is changed: their scopes and their parameters, of which there may be more. -/
def KeepsMethods (table table' : SymbolTable) : Prop :=
  ∀ ⦃id symbol data⦄, table.symbol? id = some symbol → symbol.method? = some data → ∃ symbol' data',
    table'.symbol? id = some symbol' ∧ symbol'.method? = some data' ∧
    (∀ scope, data.scope = some scope → data'.scope = some scope) ∧ data.parameters ⊆ data'.parameters

/-- What a change of a table keeps, if all that is new belongs to a scope. -/
theorem Owned.of_changes (h : table.Owned) (heds : table.Edited table') (hmths : table.KeepsMethods table')
    (hlinked : ∀ {scope entry function}, table'.scope? scope = some entry → entry.kind = .method function →
      (∃ entry, table.scope? scope = some entry) ∨ table'.IsLinked function scope)
    (hlsd : ∀ {id}, table'.IsParameter id → (∃ symbol, table.symbol? id = some symbol) ∨ table'.IsListed id) :
    table'.Owned := by
  have hscs := heds.keepsScopes
  have hrep : table'.Represented ∧ table'.FilesOrdered :=
    @keeps_of_changes _ _ _ (fun table => table.Represented ∧ table.FilesOrdered) heds
      (fun hstp hinv => ⟨hstp.represented hinv.1, hstp.filesOrdered hinv.1 hinv.2⟩) ⟨h.toRepresented, h.ordered⟩
  refine ⟨hrep.1, hrep.2, fun {scope entry' function} he' hk => ?_, fun hpar => ?_⟩
  · refine (hlinked he' hk).elim (fun ⟨entry, he⟩ => ?_) fun hnew => hnew
    obtain ⟨_, hsm, _, hout⟩ := hscs.scope he
    cases hsm.symm.trans he'
    rw [hk] at hout
    obtain ⟨symbol, data, hsym, hdt, hsc⟩ := h.linked he (ScopeKind.eq_of_outline hout.symm nofun)
    obtain ⟨symbol', data', hsym', hdt', hsc', _⟩ := hmths hsym hdt
    exact ⟨symbol', data', hsym', hdt', hsc' _ hsc⟩
  · refine (hlsd hpar).elim (fun ⟨symbol, hsym⟩ => ?_) fun hnew => hnew
    obtain ⟨symbol', hsym', hret⟩ := heds.retains hsym
    obtain ⟨found, data', hf, hdt', hpar⟩ := hpar
    cases hsym'.symm.trans hf
    obtain ⟨data, hdt, hsm⟩ : ∃ data, symbol.var? = some data ∧ data.isParameter = true := by
      have hvar := hret.parameter
      rw [hdt', Option.map_some, hpar] at hvar
      exact Option.map_eq_some_iff.mp hvar.symm
    obtain ⟨_, scope, entry, function, method, methodData, hf', hsc, he, hk, hmth, hmthData, hmem⟩ :=
      h.listed ⟨symbol, data, hsym, hdt, hsm⟩
    cases hsym.symm.trans hf'
    obtain ⟨entry', he', _, hout⟩ := hscs.scope he
    obtain ⟨method', methodData', hmth', hmthData', _, hsub⟩ := hmths hmth hmthData
    refine ⟨symbol', scope, entry', function, method', methodData', hsym', hret.scope.trans hsc, he', ?_, hmth',
      hmthData', hsub hmem⟩
    exact (ScopeKind.eq_of_outline hout (by rw [hk]; nofun)).trans hk

section

variable (h : table.Owned) (heds : table.Edited table')

include h heds

/-- The symbols are the same, and a new scope is that of no function. -/
theorem Owned.of_symbols (hsyms : table'.symbols = table.symbols)
    (hk : ∀ {scope entry function}, table'.scope? scope = some entry → entry.kind = .method function →
      ∃ entry, table.scope? scope = some entry) : table'.Owned := by
  have hsymbol? : table'.symbol? = table.symbol? := symbol?_of_symbols heds.keepsScopes.generation hsyms
  refine h.of_changes heds (fun id symbol data hsym hdt => ?_) (fun he hmth => .inl (hk he hmth)) fun hpar => ?_
  · exact ⟨symbol, data, hsymbol? ▸ hsym, hdt, fun _ hsc => hsc, List.Subset.refl _⟩
  · obtain ⟨symbol, _, hsym, _⟩ := hpar
    exact .inl ⟨symbol, hsymbol? ▸ hsym⟩

/-- One more symbol, which is no parameter. -/
theorem Owned.of_push (hsyms : table'.symbols = table.symbols.push symbol) (hsz : table'.scopes.size = table.scopes.size)
    (hpar : ∀ data, symbol.var? = some data → data.isParameter = false) : table'.Owned := by
  have hsymbol? := symbol?_of_push heds.keepsScopes.generation hsyms
  refine h.of_changes heds (fun id old data hold hdt => ?_) (fun he _ => .inl ?_) fun hnew => ?_
  · exact ⟨old, data, by rw [hsymbol?, if_neg (ne_of_symbol? hold), hold], hdt, fun _ hsc => hsc, List.Subset.refl _⟩
  · obtain ⟨entry, he, _⟩ := heds.keepsScopes.exists_scope? hsz he
    exact ⟨entry, he⟩
  · obtain ⟨found, data, hf, hdt, hisParameter⟩ := hnew
    rw [hsymbol?] at hf
    split at hf
    · cases hf
      rw [hpar data hdt] at hisParameter
      nomatch hisParameter
    · exact .inl ⟨found, hf⟩

theorem Owned.define (hdef : SymbolTable.define scope symbol table = .ok id table')
    (hpar : ∀ data, symbol.var? = some data → data.isParameter = false) : table'.Owned := by
  obtain ⟨_, _, _, _, _, rfl⟩ := define_eq_ok hdef
  exact h.of_push heds rfl Array.size_modify hpar

theorem Owned.updateSymbol (hup : SymbolTable.updateSymbol id change table = .ok u table')
    (hchg : ∀ symbol data, table.symbol? id = some symbol → symbol.method? = some data → ∃ data',
      (change symbol).method? = some data' ∧ data'.scope = data.scope ∧ data'.parameters = data.parameters) :
    table'.Owned := by
  refine h.of_changes heds (fun other symbol data hsym hdt => ?_) (fun he _ => .inl ?_) fun hpar => ?_
  · rw [symbol?_updateSymbol hup, hsym]
    split
    · next heq =>
      obtain ⟨data', hdt', hsc, hpars⟩ := hchg symbol data (heq ▸ hsym) hdt
      exact ⟨_, data', rfl, hdt', fun _ hold => hsc.trans hold, hpars ▸ List.Subset.refl _⟩
    · exact ⟨symbol, data, rfl, hdt, fun _ hsc => hsc, List.Subset.refl _⟩
  · obtain ⟨_, rfl⟩ := updateSymbol_eq_ok hup
    exact ⟨_, he⟩
  · obtain ⟨symbol, _, hsym, _⟩ := hpar
    obtain ⟨old, hold, _⟩ := exists_of_updateSymbol hup hsym
    exact .inl ⟨old, hold⟩

end

/-! ### Steps -/

theorem Equips.owned (hequips : table.Equips table') (h : table.Owned) : table'.Owned := by
  have heds : table.Edited table' := .single hequips.edits
  cases hequips with
  | define hdef hnew => exact h.define heds hdef fun data hdt => (hnew.vars data hdt).2.1
  | update hup hchg =>
    refine h.updateSymbol heds hup fun symbol data _ hdt => ?_
    have hmth := (hchg symbol).method
    rw [hdt, Option.map_some] at hmth
    obtain ⟨data', hdt', hsm⟩ := Option.map_eq_some_iff.mp hmth
    exact ⟨data', hdt', Prod.mk.inj hsm⟩

theorem owned_new (generation : Generation) : (new generation).Owned := by
  refine ⟨represented_new generation, fun storage key => ?_, fun {scope _ _} he hk => ?_, fun {id} hpar => ?_⟩
  · rw [fileOf_new]
    exact .nil
  · obtain ⟨_, hpth, _⟩ := scope_of_new he
    cases hpth.symm.trans hk
  · obtain ⟨symbol, data, hsym, hdt, _⟩ := hpar
    cases symbol_of_new (symbol?_eq_some hsym).2
    cases hdt

theorem owned_withLibraries {generation : Generation} {libraries : List Library}
    (h : withLibraries generation libraries = .ok table) : table.Owned :=
  keeps_of_changes (equips_withLibraries h) Equips.owned (owned_new generation)

/-- A function is declared together with its scope. -/
theorem Owned.declareFunction (h₁ : table₁.Owned) {inner : ScopeId} {name : String} {data : MethodData}
    {table₂ : SymbolTable} (hdt : symbol.data = .method data) (hno : data.scope = none)
    (hdef : SymbolTable.define scope symbol table = .ok id table₁)
    (hadd : SymbolTable.addScope name scope (.method id) table₁ = .ok inner table₂)
    (hup : SymbolTable.updateSymbol id (·.mapMethod fun data => { data with scope := some inner }) table₂ = .ok u table') :
    table'.Owned := by
  have heds : table₁.Edited table' := (Relation.ReflTransGen.single (.addScope (.inr ⟨_, rfl⟩) hadd)).tail
    (.updateSymbol (fun symbol _ => .mapMethod symbol _) hup)
  have hsymbol? : table₂.symbol? = table₁.symbol? :=
    symbol?_of_symbols (addScope_keeps hadd).1.generation (addScope_keeps hadd).2.2
  have hscope? : table'.scope? = table₂.scope? := by
    obtain ⟨_, rfl⟩ := updateSymbol_eq_ok hup
    rfl
  obtain ⟨home, hdefined⟩ := exists_symbol?_define hdef
  -- The function has no other scope yet.
  have hlink : table'.symbol? id =
      some { symbol with scope := some home, data := .method { data with scope := some inner } } := by
    rw [symbol?_updateSymbol hup, if_pos rfl, hsymbol?, hdefined, Option.map_some, Symbol.mapMethod, hdt]
  obtain ⟨hinn, rfl⟩ := addScope_eq_ok hadd
  refine h₁.of_changes heds (fun other old oldData hold holdData => ?_) (fun {other found function} he hk => ?_)
    fun hpar => .inl ?_
  · by_cases heq : other = id
    · subst heq
      cases hdefined.symm.trans hold
      rw [Symbol.method?, hdt] at holdData
      cases holdData
      exact ⟨_, _, hlink, rfl, by rw [hno]; simp, List.Subset.refl _⟩
    · refine ⟨old, oldData, ?_, holdData, fun _ hsc => hsc, List.Subset.refl _⟩
      rw [symbol?_updateSymbol hup, if_neg heq, hsymbol?, hold]
  · rcases scope?_pushScope (hscope? ▸ he) with ⟨rfl, rfl⟩ | hold
    · cases hk
      exact .inr ⟨_, _, hlink, rfl, by rw [← hinn]⟩
    · exact .inl ⟨found, hold⟩
  · obtain ⟨found, _, hf, _⟩ := hpar
    obtain ⟨old, hold, _⟩ := exists_of_updateSymbol hup hf
    exact ⟨old, hsymbol? ▸ hold⟩

/-- A parameter is declared in the scope of its function, and listed by it. -/
theorem Owned.declareParameter (h : table.Owned) (heds : table.Edited table') (he : table.scope? scope = some entry)
    (hk : entry.kind = .method function) (hdef : SymbolTable.define scope symbol table = .ok id table₁)
    (hup : SymbolTable.updateSymbol function
      (·.mapMethod fun data => { data with parameters := data.parameters ++ [id] }) table₁ = .ok u table') : table'.Owned := by
  refine h.of_changes heds (fun other old data hold hdt => ?_) (fun hf _ => .inl ?_) fun {other} hpar => ?_
  · rw [symbol?_updateSymbol hup, stays_define hdef hold]
    split
    · refine ⟨_, { data with parameters := data.parameters ++ [id] }, rfl, ?_, fun _ hsc => hsc, List.subset_append_left _ _⟩
      rw [Symbol.method?_mapMethod, hdt, Option.map_some]
    · exact ⟨old, data, rfl, hdt, fun _ hsc => hsc, List.Subset.refl _⟩
  · have hsz : table'.scopes.size = table.scopes.size := by
      obtain ⟨_, rfl⟩ := updateSymbol_eq_ok hup
      obtain ⟨_, _, _, _, _, rfl⟩ := define_eq_ok hdef
      exact Array.size_modify
    obtain ⟨old, hold, _⟩ := heds.keepsScopes.exists_scope? hsz hf
    exact ⟨old, hold⟩
  · obtain ⟨home, hhm, hsym⟩ := symbol?_define hdef
    by_cases heq : other = id
    · subst heq
      obtain ⟨found, _, hf, _⟩ := hpar
      have hsc : found.scope = some home := by
        obtain ⟨old, hold, rfl | ⟨_, rfl⟩⟩ := exists_of_updateSymbol hup hf <;>
          cases hold.symm.trans ((hsym other).trans (if_pos rfl))
        · rfl
        · exact Symbol.scope_mapMethod _ _
      -- The scope of a function is no branch.
      rw [variableScope, h.rooted.home_self he (by simp [Scope.isConditional, hk])] at hhm
      cases hhm
      obtain ⟨entry', he', _, hout⟩ := heds.keepsScopes.scope he
      obtain ⟨method, methodData, hmth, hmthData, _⟩ := h.linked he hk
      have hmth' : table'.symbol? function = some (method.mapMethod fun data =>
          { data with parameters := data.parameters ++ [other] }) := by
        rw [symbol?_updateSymbol hup, if_pos rfl, stays_define hdef hmth, Option.map_some]
      refine .inr ⟨found, scope, entry', function, _, _, hf, hsc, he', ?_, hmth',
        by rw [Symbol.method?_mapMethod, hmthData, Option.map_some], List.mem_append_right _ (List.mem_singleton_self other)⟩
      exact (ScopeKind.eq_of_outline hout (by rw [hk]; rintro _ _ ⟨⟩)).trans hk
    · obtain ⟨found, _, hf, _⟩ := hpar
      obtain ⟨old, hold, _⟩ := exists_of_updateSymbol hup hf
      rw [hsym, if_neg heq] at hold
      exact .inl ⟨old, hold⟩

theorem Declares.owned (hdcs : table.Declares table') (h : table.Owned) : table'.Owned := by
  have heds := hdcs.edited
  cases hdcs with
  | @define _ symbol _ _ hnew hdef =>
    refine h.define heds hdef fun data hdt => ?_
    obtain ⟨name, position, scope, symbolData⟩ := symbol
    cases hnew <;> cases hdt
    rfl
  | defineUse hal hdef =>
    obtain ⟨_, _, _, _, _, _, rfl⟩ := defineUse_eq_ok hdef
    exact h.of_push heds rfl Array.size_modify (by simp [Symbol.var?, hal])
  | namespaceOf hns =>
    obtain ⟨_, rfl⟩ | ⟨_, _, rfl⟩ := namespaceOf_eq_ok hns
    · exact h
    · refine h.of_symbols heds rfl fun {scope entry function} he hk => ?_
      rcases (scope?_pushScope he : _ ∨ table.scope? scope = some entry) with ⟨_, rfl⟩ | hold
      · cases hk
      · exact ⟨entry, hold⟩
  | openNamespace _ hadd | openBranch hadd =>
    obtain ⟨_, rfl⟩ := addScope_eq_ok hadd
    refine h.of_symbols heds rfl fun he hk => ?_
    rcases scope?_pushScope he with ⟨_, rfl⟩ | hold
    · cases hk
    · exact ⟨_, hold⟩
  | function hdt hdef hadd hup =>
    exact (h.define (.single (.define (allows_of_none (by rw [Symbol.var?, hdt])) hdef)) hdef
      (by simp [Symbol.var?, hdt])).declareFunction hdt rfl hdef hadd hup
  | parameter he hk _ hdef hup => exact h.declareParameter heds he hk hdef hup

theorem Binds.owned (hbis : table.Binds table') (h : table.Owned) : table'.Owned := by
  have heds : table.Edited table' := .single hbis.edits
  cases hbis with
  | addErroneous hadd =>
    obtain ⟨_, rfl⟩ := addDetached_eq_ok hadd
    exact h.of_push heds rfl rfl nofun
  | bindAlias hsym hal hup =>
    refine h.updateSymbol heds hup fun symbol data hf hdt => ?_
    obtain ⟨name, position, scope, kind⟩ := symbol
    cases hsym.symm.trans hf
    cases kind <;> cases hal
    nomatch hdt
  | declareType _ hup =>
    refine h.updateSymbol heds hup fun symbol data _ hdt => ?_
    obtain ⟨name, position, scope, kind⟩ := symbol
    cases kind <;> exact ⟨data, hdt, rfl, rfl⟩
  | markInitialised hmark =>
    obtain rfl := updateScope_eq_ok hmark
    exact h.of_symbols heds rfl fun he _ => (heds.keepsScopes.exists_scope? Array.size_modify he).imp fun _ => And.left
  | mergeBranches hmg =>
    obtain ⟨merged, _, rfl⟩ := mergeBranches_eq_ok hmg
    exact h.of_symbols heds rfl fun he _ => (heds.keepsScopes.exists_scope? Array.size_modify he).imp fun _ => And.left

end SoftTyping.SymbolTable
