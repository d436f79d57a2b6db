import SoftTyping.Analysis.References
import SoftTyping.Proofs.SymbolTable.Libraries

/-!
# Which variables are initialised

A branch sees what its surroundings have initialised besides what it marks itself (`Rooted.fullyInitialised_branch`), so
what a scope sees depends on the marks of scopes that were made before it (`Rooted.fullyInitialised_congr`). Of what the
branches of a construct initialise, the scope around them takes over as full what every branch of an exhaustive construct
initialises (`fully_mergeBranches`). A read of a local variable is an issue exactly if not every way to it initialises the
variable (`writtenIssue?_local`).
-/

namespace SoftTyping

open OrderedMap Refusal

/-- Issues that tell of a variable which is not initialised on every way. -/
def IssueKind.isInitialisation : IssueKind → Bool
  | .variableNotInitialised | .variablePartiallyInitialised => true
  | _ => false

namespace SymbolTable

variable {table table' : SymbolTable} {id outer scope other : ScopeId} {entry : Scope} {x : SymbolId} {symbol : Symbol}
  {u : Unit} {branches : List ScopeId} {change : Symbol → Symbol} {libraries : List Library} {exhaustive : Bool}
  {generation : Generation}

/-! ## What a scope marks and what it sees -/

/-- The variables that a scope marks as initialised. -/
def marks (table : SymbolTable) (id : ScopeId) : OrderedMap SymbolId Initialisation :=
  match table.scope? id with
  | some entry => entry.initialised
  | none => ∅

theorem marks_eq (h : table.scope? id = some entry) : table.marks id = entry.initialised := by
  rw [marks, h]

theorem Rooted.fullyInitialised_home (h : table.Rooted) (he : table.scope? id = some entry)
    (hk : entry.isConditional = false) :
    table.fullyInitialised id x = true ↔ (table.marks id).get? x = some .fully := by
  rw [fullyInitialised, h.chain_eq he, toHome, hk, marks_eq he]
  simp

/-- A branch sees what it marks, and what the scope around it sees. -/
theorem Rooted.fullyInitialised_branch (h : table.Rooted) (he : table.scope? id = some entry)
    (hk : entry.isConditional = true) (hou : entry.enclosing = some outer) :
    table.fullyInitialised id x = true ↔
      (table.marks id).get? x = some .fully ∨ table.fullyInitialised outer x = true := by
  rw [fullyInitialised, h.chain_eq he, toHome, hk, hou, marks_eq he, fullyInitialised]
  simp

/-- What a scope sees is marked by scopes that were made no later. -/
theorem Rooted.fullyInitialised_congr (h : table.Rooted) (h' : table'.Rooted) (hkp : table.KeepsScopes table')
    (he : table.scope? id = some entry) (hmarks : ∀ other, other.index ≤ id.index → table'.marks other = table.marks other) :
    table'.fullyInitialised id x = true ↔ table.fullyInitialised id x = true := by
  refine h.induction (motive := fun id _ => (∀ other, other.index ≤ id.index → table'.marks other = table.marks other) →
    (table'.fullyInitialised id x = true ↔ table.fullyInitialised id x = true))
    (fun {id _} he hk hmarks => ?_) (fun {id _ _ _} he hk hou hlt hsee hmarks => ?_) he hmarks <;>
  obtain ⟨entry', he', henc, hout⟩ := hkp.scope he <;>
  have hsm := isConditional_of_outline hout
  · rw [h.fullyInitialised_home he hk, h'.fullyInitialised_home he' (hsm.trans hk), hmarks id (Nat.le_refl _)]
  · rw [h.fullyInitialised_branch he hk hou, h'.fullyInitialised_branch he' (hsm.trans hk) (henc.trans hou),
      hmarks id (Nat.le_refl _), hsee fun other hoth => hmarks other (by omega)]

/-- A scope comes to see what it comes to mark. -/
theorem Rooted.fullyInitialised_own (h : table.Rooted) (h' : table'.Rooted) (hkp : table.KeepsScopes table')
    (he : table.scope? id = some entry) (hmarks : ∀ other, other.index < id.index → table'.marks other = table.marks other)
    {added : Prop} (hown : (table'.marks id).get? x = some .fully ↔ (table.marks id).get? x = some .fully ∨ added) :
    table'.fullyInitialised id x = true ↔ table.fullyInitialised id x = true ∨ added := by
  obtain ⟨entry', he', henc, hout⟩ := hkp.scope he
  have hsm := isConditional_of_outline hout
  cases hk : entry.isConditional with
  | false => rw [h.fullyInitialised_home he hk, h'.fullyInitialised_home he' (hsm.trans hk), hown]
  | true =>
    obtain ⟨outer, around, hou, hlt, har⟩ := h.around_branch he hk
    rw [h.fullyInitialised_branch he hk hou, h'.fullyInitialised_branch he' (hsm.trans hk) (henc.trans hou), hown,
      h.fullyInitialised_congr h' hkp har fun other hoth => hmarks other (by omega), or_right_comm]

/-! ## Marking -/

theorem scope?_modify (change : Scope → Scope) (other : ScopeId) :
    ({ table with scopes := table.scopes.modify id.index change } : SymbolTable).scope? other =
      if id.index = other.index then (table.scope? other).map change else table.scope? other := by
  apply scope?_of_modify <;> rfl

/-- A change of what one scope marks leaves the other scopes alone. -/
theorem marks_modify_of_ne (change : OrderedMap SymbolId Initialisation → OrderedMap SymbolId Initialisation)
    (he : table.scope? id = some entry) (hoth : other ≠ id) :
    ({ table with scopes := table.scopes.modify id.index fun entry =>
      { entry with initialised := change entry.initialised } } : SymbolTable).marks other = table.marks other := by
  rw [marks, scope?_modify, marks]
  by_cases hix : id.index = other.index
  · -- A handle of another generation is stale.
    have hstale : table.scope? other = none := by
      have hgen := (scope?_eq_some he).1
      rw [scope?, if_neg]
      exact fun hsm => hoth (ScopeId.ext (hsm.trans hgen.symm) hix.symm)
    rw [if_pos hix, hstale, Option.map_none]
  · rw [if_neg hix]

theorem marks_modify_self (change : OrderedMap SymbolId Initialisation → OrderedMap SymbolId Initialisation)
    (he : table.scope? id = some entry) :
    ({ table with scopes := table.scopes.modify id.index fun entry =>
      { entry with initialised := change entry.initialised } } : SymbolTable).marks id = change (table.marks id) := by
  rw [marks, scope?_modify, if_pos rfl, marks, he, Option.map_some]

theorem updateScope_scope? {change : Scope → Scope} (h : updateScope id change table = .ok u table') :
    ∃ entry, table.scope? id = some entry := by
  simp only [updateScope, Step.bind_eq_ok, Step.query_eq_ok] at h
  obtain ⟨entry, _, ⟨he, _⟩, _⟩ := h
  exact ⟨entry, scope_eq_ok.mp he⟩

/-! ## Tables in which nothing is marked -/

/-- No scope marks a variable as initialised. -/
def Unmarked (table : SymbolTable) : Prop := ∀ ⦃id entry⦄, table.scope? id = some entry → entry.initialised = ∅

theorem Unmarked.marks_eq (h : table.Unmarked) (id : ScopeId) : table.marks id = ∅ := by
  unfold marks
  split
  · next he => exact h he
  · rfl

theorem Unmarked.of_scopes (h : table.Unmarked) (hgen : table'.generation = table.generation)
    (hscs : table'.scopes = table.scopes) : table'.Unmarked :=
  fun _ _ he => h (scope?_of_scopes hgen hscs ▸ he)

theorem Unmarked.modify (h : table.Unmarked) (index : Nat) (change : Scope → Scope)
    (hgen : table'.generation = table.generation) (hscs : table'.scopes = table.scopes.modify index change)
    (hchg : ∀ entry, (change entry).initialised = entry.initialised) : table'.Unmarked := by
  intro id entry he
  rw [scope?_of_modify hgen hscs] at he
  split at he
  · obtain ⟨old, hwas, rfl⟩ := Option.map_eq_some_iff.mp he
    exact (hchg old).trans (h hwas)
  · exact h he

theorem Unmarked.pushScope (h : table.Unmarked) (he : entry.initialised = ∅) : (table.pushScope entry).2.Unmarked := by
  intro id other hoth
  rcases scope?_pushScope hoth with ⟨_, rfl⟩ | hoth
  · exact he
  · exact h hoth

theorem Unmarked.define (h : table.Unmarked) (hdef : SymbolTable.define scope symbol table = .ok x table') :
    table'.Unmarked := by
  obtain ⟨_, storage, _, _, rfl, rfl⟩ := define_eq_ok hdef
  exact h.modify storage.index (fun entry => { entry with symbols := fileUnder entry.symbols _ _ }) rfl rfl fun _ => rfl

theorem Unmarked.updateSymbol (h : table.Unmarked)
    (hup : SymbolTable.updateSymbol x change table = .ok u table') : table'.Unmarked := by
  obtain ⟨_, rfl⟩ := updateSymbol_eq_ok hup
  exact h.of_scopes rfl rfl

theorem Equips.unmarked (hequips : table.Equips table') (h : table.Unmarked) : table'.Unmarked := by
  cases hequips with
  | define hdef _ => exact h.define hdef
  | update hup _ => exact h.updateSymbol hup

theorem Declares.unmarked (hdcs : table.Declares table') (h : table.Unmarked) : table'.Unmarked := by
  cases hdcs with
  | define _ hdef => exact h.define hdef
  | defineUse _ hdef =>
    obtain ⟨rfl, entry, storage, uses, _, _, rfl⟩ := defineUse_eq_ok hdef
    exact h.modify _ (fun entry => { entry with kind := .namespaceBlock storage (fileUnder uses _ _) }) rfl rfl
      fun _ => rfl
  | namespaceOf hns =>
    obtain ⟨_, rfl⟩ | ⟨_, _, rfl⟩ := namespaceOf_eq_ok hns
    · exact h
    · exact (h.pushScope rfl).of_scopes rfl rfl
  | openNamespace _ hadd | openBranch hadd =>
    obtain ⟨_, rfl⟩ := addScope_eq_ok hadd
    exact h.pushScope rfl
  | function _ hdef hadd hup =>
    obtain ⟨_, rfl⟩ := addScope_eq_ok hadd
    exact ((h.define hdef).pushScope rfl).updateSymbol hup
  | parameter _ _ _ hdef hup => exact (h.define hdef).updateSymbol hup

theorem unmarked_withLibraries (h : withLibraries generation libraries = .ok table) : table.Unmarked := by
  refine keeps_of_changes (equips_withLibraries h) Equips.unmarked fun id entry he => ?_
  obtain ⟨_, hget⟩ := scope?_eq_some he
  obtain ⟨_, index⟩ := id
  match index with
  | 0 | 1 | 2 =>
    cases hget
    rfl
  | _ + 3 => simp [new] at hget

/-! ## Merging -/

theorem get?_foldl_insert {κ α : Type} [DecidableEq κ] (f : κ → α) (keys : List κ) (m : OrderedMap κ α) (key : κ) :
    (keys.foldl (fun merged key => merged.insert key (f key)) m).get? key =
      if key ∈ keys then some (f key) else m.get? key := by
  induction keys generalizing m with
  | nil => simp
  | cons first rest ih =>
    rw [List.foldl_cons, ih, get?_insert]
    by_cases hrs : key ∈ rest
    · simp [hrs]
    · by_cases hfst : first = key
      · simp [hfst]
      · simp [hrs, hfst, Ne.symm hfst]

/-- What branches initialise fully together: what some branch marks and all see, if one of them is always taken. -/
theorem fully_branchInitialisations
    {merged : OrderedMap SymbolId Initialisation} (h : table.branchInitialisations branches exhaustive = .ok merged) :
    merged.get? x = some .fully ↔ exhaustive = true ∧ (∃ branch ∈ branches, x ∈ (table.marks branch).keys) ∧
      ∀ branch ∈ branches, table.fullyInitialised branch x = true := by
  obtain ⟨scopes, hscs, h⟩ := bind_eq_ok.mp h
  cases h
  have hks : x ∈ scopes.flatMap (fun scope => scope.initialised.keys) ↔
      ∃ branch ∈ branches, x ∈ (table.marks branch).keys := by
    rw [List.mem_flatMap]
    constructor
    · rintro ⟨entry, he, hx⟩
      obtain ⟨branch, hbr, hsc⟩ := exists_left_of_forall₂ (mapM_eq_ok.mp hscs) he
      exact ⟨branch, hbr, marks_eq (scope_eq_ok.mp hsc) ▸ hx⟩
    · rintro ⟨branch, hbr, hx⟩
      obtain ⟨entry, he, hsc⟩ := exists_right_of_forall₂ (mapM_eq_ok.mp hscs) hbr
      exact ⟨entry, he, marks_eq (scope_eq_ok.mp hsc) ▸ hx⟩
  have hget := get?_foldl_insert (fun symbol =>
    if (exhaustive && branches.all fun branch => table.fullyInitialised branch symbol) = true
    then Initialisation.fully else .partially) (scopes.flatMap fun scope => scope.initialised.keys) ∅ x
  refine (iff_of_eq (congrArg (· = some Initialisation.fully) hget)).trans ?_
  simp only [hks, get?_empty]
  by_cases hmarked : ∃ branch ∈ branches, x ∈ (table.marks branch).keys
  · rw [if_pos hmarked]
    simp only [hmarked, true_and, Bool.and_eq_true, List.all_eq_true, Option.some.injEq]
    split
    · next hfu => exact iff_of_true rfl hfu
    · next hnot => exact iff_of_false nofun hnot
  · simp [hmarked]

theorem fully_absorb (initialised branches : OrderedMap SymbolId Initialisation) :
    (absorb initialised branches).get? x = some .fully ↔
      initialised.get? x = some .fully ∨ branches.get? x = some .fully := by
  rw [get?_eq_some_iff (m := branches), absorb]
  generalize branches.entries = entries
  induction entries generalizing initialised with
  | nil => simp
  | cons first rest ih =>
    obtain ⟨symbol, state⟩ := first
    rw [List.foldl_cons, ih, List.mem_cons]
    by_cases hfu : initialised.get? symbol = some .fully
    · simp only [hfu, if_true]
      constructor
      · rintro (hx | hx)
        · exact .inl hx
        · exact .inr (.inr hx)
      · rintro (hx | hx | hx)
        · exact .inl hx
        · cases hx
          exact .inl hfu
        · exact .inr hx
    · simp only [hfu, if_false, get?_insert]
      by_cases hsym : symbol = x
      · subst hsym
        simp only [hfu, if_true, Option.some.injEq, Prod.mk.injEq, true_and, false_or]
        rw [eq_comm]
      · simp [hsym, Ne.symm hsym]

/-- What is fully initialised behind a construct: what was so before it, and what each branch of an exhaustive one sees so. -/
theorem fully_mergeBranches (h : mergeBranches scope branches exhaustive table = .ok u table') :
    (table'.marks scope).get? x = some .fully ↔ (table.marks scope).get? x = some .fully ∨
      (exhaustive = true ∧ (∃ branch ∈ branches, x ∈ (table.marks branch).keys) ∧
        ∀ branch ∈ branches, table.fullyInitialised branch x = true) := by
  simp only [mergeBranches, Step.bind_eq_ok, Step.query_eq_ok] at h
  obtain ⟨merged, _, ⟨hmerged, rfl⟩, h⟩ := h
  obtain ⟨entry, he⟩ := updateScope_scope? h
  rw [updateScope_eq_ok h, marks_modify_self (absorb · merged) he, fully_absorb,
    fully_branchInitialisations hmerged]

theorem marks_mergeBranches (h : mergeBranches scope branches exhaustive table = .ok u table') (hoth : other ≠ scope) :
    table'.marks other = table.marks other := by
  simp only [mergeBranches, Step.bind_eq_ok, Step.query_eq_ok] at h
  obtain ⟨merged, _, ⟨_, rfl⟩, h⟩ := h
  obtain ⟨entry, he⟩ := updateScope_scope? h
  rw [updateScope_eq_ok h]
  exact marks_modify_of_ne (absorb · merged) he hoth

theorem fully_markInitialised {y : SymbolId} (h : markInitialised scope y table = .ok u table') :
    (table'.marks scope).get? x = some .fully ↔ (table.marks scope).get? x = some .fully ∨ y = x := by
  obtain ⟨entry, he⟩ := updateScope_scope? h
  rw [updateScope_eq_ok h, marks_modify_self (·.insert y .fully) he, get?_insert]
  split
  · next hy => exact iff_of_true rfl (.inr hy)
  · next hy => exact ⟨.inl, fun hx => hx.resolve_right hy⟩

theorem marks_markInitialised {y : SymbolId} (h : markInitialised scope y table = .ok u table')
    (hoth : other ≠ scope) : table'.marks other = table.marks other := by
  obtain ⟨entry, he⟩ := updateScope_scope? h
  rw [updateScope_eq_ok h]
  exact marks_modify_of_ne (·.insert y .fully) he hoth

/-! ## Local variables -/

/-- The super-globals have a scope of their own. -/
def KnowsSuperGlobals (table : SymbolTable) : Prop :=
  ∀ ⦃id symbol data⦄, table.symbol? id = some symbol → symbol.var? = some data → data.isSuperGlobal = true →
    symbol.scope = some table.superGlobalScope

/-- A super-global is declared in a scope. -/
def StandsIn (scope : ScopeId) (symbol : Symbol) : Prop :=
  ∀ data, symbol.var? = some data → data.isSuperGlobal = true → symbol.scope = some scope

theorem knowsSuperGlobals_iff (hgen : table'.generation = table.generation) :
    table'.KnowsSuperGlobals ↔ table'.SymbolsAre fun _ => StandsIn table.superGlobalScope := by
  rw [superGlobalScope, ← hgen]
  exact ⟨fun h _ _ hsym _ => h hsym, fun h _ _ _ hsym => h hsym _⟩

theorem Equips.knowsSuperGlobals (hequips : table.Equips table') (hrt : table.Rooted)
    (h : table.KnowsSuperGlobals) : table'.KnowsSuperGlobals := by
  rw [knowsSuperGlobals_iff rfl] at h
  cases hequips with
  | define hdef hnew =>
    refine (knowsSuperGlobals_iff (keepsScopes_define hdef).generation).mpr ?_
    obtain ⟨home, storage, hhm, _, _, rfl⟩ := define_eq_ok hdef
    refine h.push rfl rfl fun _ data hdt _ => ?_
    rw [(hnew.vars data hdt).1] at hhm
    obtain ⟨special, path, hspc, hpth⟩ := hrt.special 2 (by omega)
    have hself : table.home table.superGlobalScope = .ok (table.superGlobalScope, special) :=
      hrt.home_self hspc (by simp [Scope.isConditional, hpth])
    rw [variableScope, hself] at hhm
    cases hhm
    rfl
  | update hup hchg =>
    refine (knowsSuperGlobals_iff (keepsScopes_updateSymbol hup).generation).mpr (h.updateSymbol hup fun _ symbol hwas => ?_)
    rw [StandsIn, (hchg symbol).scope, (hchg symbol).var]
    exact hwas

theorem Declares.knowsSuperGlobals (hdcs : table.Declares table') (h : table.KnowsSuperGlobals) :
    table'.KnowsSuperGlobals := by
  refine (knowsSuperGlobals_iff hdcs.grows.scopes.generation).mpr (((knowsSuperGlobals_iff rfl).mp h).declares hdcs
    (fun _ symbol hnew _ data hdt hsup => ?_) fun _ symbol change hwas => ?_)
  · obtain rfl | rfl := hnew data hdt <;> cases hsup
  · rw [StandsIn, Symbol.var?_mapMethod, Symbol.scope_mapMethod]
    exact hwas

theorem Binds.knowsSuperGlobals (hbis : table.Binds table') (h : table.KnowsSuperGlobals) :
    table'.KnowsSuperGlobals := by
  refine (knowsSuperGlobals_iff hbis.grows.scopes.generation).mpr (((knowsSuperGlobals_iff rfl).mp h).binds hbis
    (fun _ symbol hno data hdt => ?_) fun _ symbol type _ hwas data hdt hsup => ?_)
  · cases hno.symm.trans hdt
  · obtain ⟨name, position, scope, _ | _ | _ | _ | _⟩ := symbol <;> cases hdt
    exact hwas _ rfl hsup

theorem knowsSuperGlobals_withLibraries (h : withLibraries generation libraries = .ok table) : table.KnowsSuperGlobals := by
  have hboth : table.Rooted ∧ table.KnowsSuperGlobals := by
    refine @keeps_of_changes _ _ _ (fun table => table.Rooted ∧ table.KnowsSuperGlobals) (equips_withLibraries h)
      (fun hstp hinv => ⟨hstp.edits.rooted hinv.1, hstp.knowsSuperGlobals hinv.1 hinv.2⟩) ⟨rooted_new generation, ?_⟩
    intro id symbol data hsym hdt
    obtain ⟨_, hget⟩ := symbol?_eq_some hsym
    obtain ⟨_, index⟩ := id
    cases index with
    | zero =>
      cases hget
      nomatch hdt
    | succ index => simp [new] at hget
  exact hboth.2

/-- A symbol is a variable, though no parameter, whose declaration is kept where a scope keeps its declarations. -/
def IsVariableOf (table : SymbolTable) (scope : ScopeId) (id : SymbolId) : Prop :=
  ∃ symbol data owner storage, table.symbol? id = some symbol ∧ symbol.var? = some data ∧ data.isParameter = false ∧
    symbol.scope = some owner ∧ table.storageScope owner = .ok storage ∧ table.storageScope scope = .ok storage

theorem isVariableOf_iff : table.IsVariableOf scope x ↔
    ∃ symbol ∈ table.symbol? x, ∃ data ∈ symbol.var?, data.isParameter = false ∧ ∃ owner ∈ symbol.scope,
      ∃ storage ∈ (table.storageScope scope).toOption, table.storageScope owner = .ok storage := by
  have hsto : ∀ {storage}, storage ∈ (table.storageScope scope).toOption ↔ table.storageScope scope = .ok storage := by
    intro storage
    cases table.storageScope scope <;> simp [Except.toOption]
  constructor
  · rintro ⟨symbol, data, owner, storage, hsym, hdt, hpar, hwnr, hkt, hsc⟩
    exact ⟨symbol, hsym, data, hdt, hpar, owner, hwnr, storage, hsto.mpr hsc, hkt⟩
  · rintro ⟨symbol, hsym, data, hdt, hpar, owner, hwnr, storage, hsc, hkt⟩
    exact ⟨symbol, data, owner, storage, hsym, hdt, hpar, hwnr, hkt, hsto.mp hsc⟩

instance : Decidable (table.IsVariableOf scope x) := decidable_of_iff _ isVariableOf_iff.symm

/-- No super-global is a variable of a function or a namespace block. -/
theorem IsVariableOf.not_superGlobal (h : table.IsVariableOf scope x) (hrt : table.Rooted)
    (hknows : table.KnowsSuperGlobals) {home : ScopeId} {around : Scope} (hhm : table.home scope = .ok (home, around))
    (hk : ∀ path, around.kind ≠ .globalNamespace path) {data : VariableData} (hsym : table.symbol? x = some symbol)
    (hdt : symbol.var? = some data) : data.isSuperGlobal = false := by
  obtain ⟨same, _, owner, storage, hsm, _, _, hwnr, hkt, hsto⟩ := h
  cases hsym.symm.trans hsm
  rw [← Bool.not_eq_true]
  intro hsup
  -- The super-globals are kept in their own scope, and no other scope keeps its declarations there.
  cases hwnr.symm.trans (hknows hsym hdt hsup)
  obtain ⟨special, path, hspc, hpth⟩ := hrt.special 2 (by omega)
  have hown : table.storageScope table.superGlobalScope = .ok table.superGlobalScope := by
    have hself := storageScope_of_home (hrt.home_self hspc (by simp [Scope.isConditional, hpth]))
    rw [hpth] at hself
    exact hself
  cases hkt.symm.trans hown
  rw [storageScope_of_home hhm] at hsto
  obtain ⟨he, hcdl⟩ := scope?_of_home hhm
  cases heKind : around.kind with
  | globalNamespace path => exact hk path heKind
  | namespaceBlock kept uses =>
    simp only [heKind] at hsto
    cases hsto
    exact (hrt.blocks he heKind).1 rfl
  | conditional => simp [Scope.isConditional, heKind] at hcdl
  | method function =>
    simp only [heKind] at hsto
    cases hsto
    cases hspc.symm.trans he
    rw [hpth] at heKind
    cases heKind

/-- A read of a local variable is an issue exactly if not every way to it initialises the variable. What counts of the
variable may be looked up in a later table. -/
theorem writtenIssue?_local (h : table.Rooted) (h' : table'.Rooted) (hscs : table.KeepsScopes table')
    (hsyms : table.KeepsSymbols table') (hloc : table'.IsVariableOf scope x)
    (hsup : ∀ symbol data, table'.symbol? x = some symbol → symbol.var? = some data → data.isSuperGlobal = false)
    {found : Option (IssueKind × String)} (hf : Workspace.writtenIssue? table scope x = .ok found) :
    (found = none ↔ table.fullyInitialised scope x = true) ∧
      ∀ kind name, found = some (kind, name) → kind.isInitialisation = true := by
  obtain ⟨later, laterData, laterOwner, storage, hlater, hlaterData, hpar, hlaterOwner, hkt, hsto⟩ := hloc
  obtain ⟨symbol, hsym, hf⟩ := Refusal.bind_eq_ok.mp hf
  obtain ⟨same, hsm, hout⟩ := hsyms (symbol_eq_ok.mp hsym)
  cases hlater.symm.trans hsm
  obtain ⟨data, hdt, hsmParameter, hsmSuper⟩ := Symbol.var?_of_outline hout hlaterData
  have hsupers := hsup later laterData hlater hlaterData
  simp only [hdt, hsmParameter, hsmSuper, hpar, hsupers, Bool.or_self, Bool.false_eq_true, if_false,
    Refusal.bind_eq_ok] at hf
  obtain ⟨owner, hwnr, reader, hreader, kept, hkt', stored, hstd, hf⟩ := hf
  -- The owner and the reader keep their declarations where they do in the later table.
  have hwnrScope : symbol.scope = some owner := by
    unfold Workspace.owningScope at hwnr
    split at hwnr
    · next hsc => rw [hsc, Except.ok.inj hwnr]
    · nomatch hwnr
  cases hlaterOwner.symm.trans ((Symbol.scope_of_outline hout).trans hwnrScope)
  cases hkt.symm.trans (h.storageScope_keeps h' hscs hkt')
  rw [h.storageScope_variableScope hreader] at hstd
  cases hsto.symm.trans (h.storageScope_keeps h' hscs hstd)
  simp only [bne_self_eq_false, Bool.false_eq_true, if_false, Refusal.bind_eq_ok] at hf
  obtain ⟨⟨full, part⟩, hini, hf⟩ := hf
  obtain ⟨_, _, hini⟩ := Refusal.bind_eq_ok.mp hini
  cases hini
  cases hfu : table.fullyInitialised scope x with
  | true =>
    simp only [hfu] at hf
    cases hf
    exact ⟨by simp, nofun⟩
  | false =>
    simp only [hfu] at hf
    split at hf <;> cases hf
    · next hcase => nomatch hcase
    · refine ⟨by simp, fun kind name his => ?_⟩
      cases his
      rfl
    · refine ⟨by simp, fun kind name his => ?_⟩
      cases his
      rfl

end SymbolTable

end SoftTyping
