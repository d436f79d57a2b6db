import SoftTyping.Proofs.SymbolTable.Owned

/-!
# The variables of a table

Versions of variables are made by the pass that makes the constraints alone: in a table that comes from libraries and from
the passes before it, no variable has one (`Unversioned`). What a variable is declared with is a type (`DeclaresTypes`).
-/

namespace SoftTyping

/-- The outline of a symbol has its type. -/
theorem Symbol.type?_outline (symbol : Symbol) : symbol.outline.type? = symbol.type? := by
  obtain ⟨name, position, scope, data⟩ := symbol
  cases data <;> rfl

namespace SymbolTable

variable {table table' : SymbolTable} {id : SymbolId} {symbol : Symbol} {u : Unit} {P : VariableData → Prop}

/-- All variables of a table have a property. -/
def VariablesAre (P : VariableData → Prop) (table : SymbolTable) : Prop :=
  ∀ ⦃id symbol data⦄, table.symbol? id = some symbol → symbol.var? = some data → P data

/-- A property of the variables is one of the symbols. -/
theorem variablesAre_iff :
    table.VariablesAre P ↔ table.SymbolsAre fun _ symbol => ∀ data, symbol.var? = some data → P data :=
  ⟨fun h _ _ hsym _ => h hsym, fun h _ _ _ hsym => h hsym _⟩

/-- What all variables have, they have in a weaker form. -/
theorem VariablesAre.mono (h : table.VariablesAre P) {Q : VariableData → Prop} (himp : ∀ data, P data → Q data) :
    table.VariablesAre Q := fun _ _ data hsym hdt => himp data (h hsym hdt)

/-! ## What the changes of a table do to its variables -/

/-- A library brings variables without versions, declared with types of the table at most. -/
theorem Equips.variablesAre (hequips : table.Equips table') (h : table.VariablesAre P)
    (hnew : ∀ data, data.versions = [] → (∀ type, data.declared = some type → ∃ name, table.IsTypeNamed type name) → P data) :
    table'.VariablesAre P := by
  rw [variablesAre_iff] at h ⊢
  cases hequips with
  | define hdef hbi =>
    refine h.define hdef fun _ _ _ data hdt => ?_
    obtain ⟨_, _, hvers, hdec⟩ := hbi.vars data hdt
    exact hnew data hvers hdec
  | update hup hchg => exact h.updateSymbol hup fun _ symbol hwas data hdt => hwas data ((hchg symbol).var ▸ hdt)

/-- Declaring brings variables without versions and without a declared type. -/
theorem Declares.variablesAre (hdcs : table.Declares table') (h : table.VariablesAre P)
    (hnew : ∀ data, data.versions = [] → data.declared = none → P data) : table'.VariablesAre P := by
  refine variablesAre_iff.mpr ((variablesAre_iff.mp h).declares hdcs (fun _ symbol hdt _ data hvar => ?_)
    fun _ symbol change => ?_)
  · obtain rfl | rfl := hdt data hvar <;> exact hnew _ rfl rfl
  · rw [Symbol.var?_mapMethod]
    exact id

/-- Binding names at most declares a type for a variable. -/
theorem Binds.variablesAre (hbis : table.Binds table') (h : table.VariablesAre P)
    (hdcl : ∀ data type, (type = table.erroneousType ∨ ∃ name, table.IsTypeNamed type name) → P data →
      P { data with declared := some type }) : table'.VariablesAre P := by
  refine variablesAre_iff.mpr ((variablesAre_iff.mp h).binds hbis (fun _ symbol hno data hdt => ?_)
    fun _ symbol type htp hwas data' hdt' => ?_)
  · cases hno.symm.trans hdt
  · rw [Symbol.var?_mapVariable] at hdt'
    obtain ⟨data, hdt, rfl⟩ := Option.map_eq_some_iff.mp hdt'
    exact hdcl data type htp (hwas data hdt)

/-- A new table has no variables. -/
theorem variablesAre_new (generation : Generation) : (new generation).VariablesAre P := by
  intro id symbol data hsym hdt
  cases symbol_of_new (symbol?_eq_some hsym).2
  cases hdt

/-! ## Versions -/

/-- No variable has a version. -/
abbrev Unversioned (table : SymbolTable) : Prop := table.VariablesAre fun data => data.versions = []

/-- No variable of a library has a version. -/
theorem unversioned_withLibraries {generation : Generation} {libraries : List Library}
    (h : withLibraries generation libraries = .ok table) : table.Unversioned :=
  keeps_of_changes (equips_withLibraries h) (fun hequips hwas => hequips.variablesAre hwas fun _ hvers _ => hvers)
    (variablesAre_new generation)

/-- Declaring makes no versions. -/
theorem unversioned_of_declares (h : Relation.ReflTransGen Declares table table') (hwas : table.Unversioned) :
    table'.Unversioned :=
  keeps_of_changes h (fun hdcs hwas => hdcs.variablesAre hwas fun _ hvers _ => hvers) hwas

/-- Binding names makes no versions. -/
theorem unversioned_of_binds (h : Relation.ReflTransGen Binds table table') (hwas : table.Unversioned) :
    table'.Unversioned :=
  keeps_of_changes h (fun hbis hwas => hbis.variablesAre hwas fun _ _ _ hvers => hvers) hwas

/-! ## Declared types -/

/-- A symbol is a type, or what stands in for one. -/
def IsHint (table : SymbolTable) (type : SymbolId) : Prop :=
  type = table.erroneousType ∨ ∃ name, table.IsTypeNamed type name

/-- What variables are declared with are types. -/
def DeclaresTypes (table : SymbolTable) : Prop :=
  table.VariablesAre fun data => ∀ type, data.declared = some type → table.IsHint type

/-- A type stays one, by its name, as long as symbols are kept. -/
theorem KeepsSymbols.isTypeNamed (h : table.KeepsSymbols table') {name : String} (htp : table.IsTypeNamed id name) :
    table'.IsTypeNamed id name := by
  obtain ⟨symbol, data, hsym, hdt, hnm⟩ := htp
  obtain ⟨symbol', hsym', hsm⟩ := h hsym
  exact ⟨symbol', data, hsym', by rw [← Symbol.type?_outline, hsm, Symbol.type?_outline, hdt], hnm⟩

/-- Types that variables are declared with stay types. -/
theorem DeclaresTypes.mono (h : table.DeclaresTypes) (hgen : table'.generation = table.generation)
    (htps : ∀ {id name}, table.IsTypeNamed id name → table'.IsTypeNamed id name) :
    table.VariablesAre fun data => ∀ type, data.declared = some type → table'.IsHint type := by
  refine VariablesAre.mono h fun data hdt type htp => ?_
  refine (hdt type htp).imp (fun herr => ?_) fun ⟨name, hnm⟩ => ⟨name, htps hnm⟩
  rw [herr, erroneousType, erroneousType, hgen]

/-- A library leaves the types that there are. -/
theorem Equips.isTypeNamed (h : table.Equips table') {name : String} (htp : table.IsTypeNamed id name) :
    table'.IsTypeNamed id name := by
  cases h with
  | define hdef _ => exact (keepsSymbols_define hdef).isTypeNamed htp
  | update hup hchg =>
    obtain ⟨symbol, data, hsym, hdt, hnm⟩ := htp
    rw [IsTypeNamed, symbol?_updateSymbol hup]
    split
    · rw [hsym]
      obtain ⟨data', hdt', hnm', _⟩ := exists_type_of_map (hchg symbol).type.symm hdt
      exact ⟨_, data', rfl, hdt', hnm'.trans hnm⟩
    · exact ⟨symbol, data, hsym, hdt, hnm⟩

/-- A library does not change the generation. -/
theorem Equips.generation (h : table.Equips table') : table'.generation = table.generation := by
  cases h with
  | define hdef _ =>
    obtain ⟨_, _, _, _, _, rfl⟩ := define_eq_ok hdef
    rfl
  | update hup _ =>
    obtain ⟨_, rfl⟩ := updateSymbol_eq_ok hup
    rfl

/-- A library declares its variables with types. -/
theorem Equips.declaresTypes (h : table.Equips table') (hwas : table.DeclaresTypes) : table'.DeclaresTypes := by
  refine h.variablesAre (hwas.mono h.generation h.isTypeNamed) fun data _ hdec type htp => ?_
  obtain ⟨name, hnm⟩ := hdec type htp
  exact .inr ⟨name, h.isTypeNamed hnm⟩

/-- Declaring keeps the types of variables. -/
theorem Declares.declaresTypes (h : table.Declares table') (hwas : table.DeclaresTypes) : table'.DeclaresTypes := by
  refine h.variablesAre (hwas.mono h.grows.scopes.generation h.keepsSymbols.isTypeNamed) fun data _ hno type htp => ?_
  nomatch hno.symm.trans htp

/-- Binding names declares variables with types alone. -/
theorem Binds.declaresTypes (h : table.Binds table') (hwas : table.DeclaresTypes) : table'.DeclaresTypes := by
  have hgen := h.grows.scopes.generation
  refine h.variablesAre (hwas.mono hgen h.keepsSymbols.isTypeNamed) fun data type hhint _ other hoth => ?_
  obtain rfl := Option.some.inj hoth
  refine hhint.imp (fun herr => ?_) fun ⟨name, hnm⟩ => ⟨name, h.keepsSymbols.isTypeNamed hnm⟩
  rw [herr, erroneousType, erroneousType, hgen]

/-- The variables of the libraries are declared with types. -/
theorem declaresTypes_withLibraries {generation : Generation} {libraries : List Library}
    (h : withLibraries generation libraries = .ok table) : table.DeclaresTypes :=
  keeps_of_changes (equips_withLibraries h) Equips.declaresTypes (variablesAre_new generation)

/-- In a sound table the declared type of a variable has a name. -/
theorem DeclaresTypes.isTypeNamed (h : table.DeclaresTypes) (hsd : table.Sound) {data : VariableData} {type : SymbolId}
    (hsym : table.symbol? id = some symbol) (hdt : symbol.var? = some data) (htp : data.declared = some type) :
    ∃ name, table.IsTypeNamed type name := by
  rcases h hsym hdt type htp with rfl | hnm
  · obtain ⟨erroneous, herr, hisType⟩ := hsd.erroneous
    obtain ⟨typeData, htpData⟩ := Option.isSome_iff_exists.mp hisType
    refine ⟨_, erroneous, typeData, ?_, htpData, rfl⟩
    rw [symbol?, erroneousType, if_pos rfl, herr]
  · exact hnm

end SymbolTable

end SoftTyping
