import Mathlib.Data.List.Find
import SoftTyping.Proofs.SymbolTable.Owned

/-!
# What a lookup depends on

Where a scope stands, what it keeps and which aliases it has can be read off the frame of a table: its scopes, without what
is initialised in them, and its namespaces. A table with the same frame that has the symbols of another, whatever these are
bound to, extends it, and a lookup finds the same in both (`find?_of_extends`). Binding names extends a table
(`extends_of_binds`).
-/

namespace SoftTyping

/-- A scope without what is initialised in it. -/
def Scope.frame (entry : Scope) : Scope := { entry with initialised := ∅ }

namespace SymbolTable

variable {table table' : SymbolTable} {scope storage : ScopeId} {id : SymbolId} {name : String} {rule : CaseRule}
  {accept : Symbol → Bool}

/-- The scopes of a table, without what is initialised in them, and its namespaces. -/
def frame (table : SymbolTable) : SymbolTable :=
  { table with scopes := table.scopes.map Scope.frame, symbols := #[] }

theorem scope?_frame (table : SymbolTable) (id : ScopeId) : table.frame.scope? id = (table.scope? id).map Scope.frame := by
  rw [scope?, scope?, frame, Array.getElem?_map]
  split <;> rfl

theorem scope_frame (table : SymbolTable) (id : ScopeId) : table.frame.scope id = (table.scope id).map Scope.frame := by
  rw [scope, scope, scope?_frame]
  cases table.scope? id <;> rfl

/-! ## Where a scope stands -/

/-- A scope of a chain, without what is initialised in it. -/
def frameEntry (entry : ScopeId × Scope) : ScopeId × Scope := (entry.1, entry.2.frame)

section

variable (table)

theorem chainWithin_frame (length : Nat) (id : ScopeId) :
    table.frame.chainWithin length id = (table.chainWithin length id).map frameEntry := by
  induction length generalizing id with
  | zero => rfl
  | succ length ih =>
    rw [chainWithin, chainWithin, scope?_frame]
    cases table.scope? id with
    | none => rfl
    | some entry =>
      cases henc : entry.enclosing with
      | none => simp [Scope.frame, henc, frameEntry]
      | some outer => simp [Scope.frame, henc, frameEntry, ih]

theorem find?_chain_frame (id : ScopeId) (test : Scope → Bool) (htest : ∀ entry, test entry.frame = test entry) :
    (table.frame.chain id).find? (fun entry => test entry.2) =
      ((table.chain id).find? (fun entry => test entry.2)).map frameEntry := by
  rw [chain, chain, chainWithin_frame, List.find?_map]
  congr 2
  funext entry
  exact htest entry.2

theorem home_frame (id : ScopeId) : table.frame.home id = (table.home id).map frameEntry := by
  rw [home, home, scope_frame, find?_chain_frame table id (fun entry => !entry.isConditional) fun _ => rfl]
  cases table.scope id with
  | error fault => rfl
  | ok entry => cases (table.chain id).find? fun entry => !entry.2.isConditional <;> rfl

theorem variableScope_frame (id : ScopeId) : table.frame.variableScope id = table.variableScope id := by
  rw [variableScope, variableScope, home_frame]
  cases table.home id <;> rfl

theorem storageScope_frame (id : ScopeId) : table.frame.storageScope id = table.storageScope id := by
  rw [storageScope, storageScope, home_frame]
  cases table.home id <;> rfl

theorem enclosingNamespace_frame (id : ScopeId) : table.frame.enclosingNamespace id = table.enclosingNamespace id := by
  rw [enclosingNamespace, enclosingNamespace, scope_frame, find?_chain_frame table id Scope.isNamespace fun _ => rfl]
  cases table.scope id with
  | error fault => rfl
  | ok entry => cases (table.chain id).find? fun entry => entry.2.isNamespace <;> rfl

theorem absoluteName_frame (id : ScopeId) (name : String) : table.frame.absoluteName id name = table.absoluteName id name := by
  have hpth : table.frame.namespacePath id = table.namespacePath id := by
    rw [namespacePath, namespacePath, enclosingNamespace_frame]
    cases table.enclosingNamespace id with
    | error fault => rfl
    | ok block =>
      change (table.frame.storageScope block >>= _) = (table.storageScope block >>= _)
      rw [storageScope_frame]
      cases table.storageScope block with
      | error fault => rfl
      | ok storage =>
        change (table.frame.scope storage >>= _) = (table.scope storage >>= _)
        rw [scope_frame]
        cases table.scope storage <;> rfl
  rw [absoluteName, absoluteName, hpth]

/-! ## What a scope keeps -/

theorem symbolsNamed_frame (scope : ScopeId) (name : String) :
    table.frame.symbolsNamed scope name = table.symbolsNamed scope name := by
  rw [symbolsNamed, symbolsNamed, storageScope_frame]
  cases table.storageScope scope with
  | error fault => rfl
  | ok storage =>
    change (table.frame.scope storage >>= _) = (table.scope storage >>= _)
    rw [scope_frame]
    cases table.scope storage <;> rfl

theorem useNamed?_frame (block : ScopeId) (name : String) : table.frame.useNamed? block name = table.useNamed? block name := by
  rw [useNamed?, useNamed?, usesNamed, usesNamed, scope_frame]
  cases table.scope block <;> rfl

end

/-! ## Binding names -/

theorem frame_of_initialise (index : Nat) (change : OrderedMap SymbolId Initialisation → OrderedMap SymbolId Initialisation) :
    frame { table with scopes := table.scopes.modify index fun entry =>
      { entry with initialised := change entry.initialised } } = table.frame := by
  unfold frame
  congr 1
  apply Array.ext_getElem?
  intro other
  rw [Array.getElem?_map, Array.getElem?_map, Array.getElem?_modify]
  split
  · cases table.scopes[other]? <;> rfl
  · rfl

theorem Binds.frame (h : table.Binds table') : table'.frame = table.frame := by
  cases h with
  | addErroneous h =>
    obtain ⟨_, rfl⟩ := addDetached_eq_ok h
    rfl
  | bindAlias _ _ h | declareType _ h =>
    obtain ⟨_, rfl⟩ := updateSymbol_eq_ok h
    rfl
  | markInitialised h =>
    obtain rfl := updateScope_eq_ok h
    exact frame_of_initialise _ (·.insert _ .fully)
  | mergeBranches h =>
    obtain ⟨merged, _, rfl⟩ := mergeBranches_eq_ok h
    exact frame_of_initialise _ (absorb · merged)

/-- A table has all symbols of another, in the same frame. What they are bound to may differ, and there may be more symbols,
which no scope lists. -/
structure Extends (table table' : SymbolTable) : Prop where
  frame : table'.frame = table.frame
  symbols : table.KeepsSymbols table'

/-- Binding names leaves the frame of a table as it is, and its symbols what they are. -/
theorem extends_of_binds (h : Relation.ReflTransGen Binds table table') : table.Extends table' := by
  refine ⟨?_, keepsSymbols_of_binds h⟩
  induction h with
  | refl => rfl
  | tail _ hls ih => exact hls.frame.trans ih

theorem mem_fileOf_of_symbolsNamed {ids : List SymbolId} (h : table.symbolsNamed scope name = .ok ids) (hid : id ∈ ids) :
    ∃ storage, table.storageScope scope = .ok storage ∧ id ∈ table.fileOf storage (Text.lowerCase name) := by
  obtain ⟨storage, hsto, h⟩ := Refusal.bind_eq_ok.mp h
  obtain ⟨entry, he, h⟩ := Refusal.bind_eq_ok.mp h
  cases h
  refine ⟨storage, hsto, ?_⟩
  rwa [fileOf, scope_eq_ok.mp he, Option.bind_some]

theorem fits_of_keeps (hkp : table.KeepsSymbols table') (haccept : ∀ symbol, accept symbol.outline = accept symbol)
    {symbol : Symbol} (hsym : table.symbol? id = some symbol) :
    table'.fits name rule accept id = table.fits name rule accept id := by
  obtain ⟨symbol', hsym', hout⟩ := hkp hsym
  rw [fits, fits, hsym, hsym']
  dsimp only
  rw [Symbol.name_of_outline hout, ← haccept symbol', hout, haccept]

/-- A lookup finds the same in a table that extends another. -/
theorem find?_of_extends (hwn : table.Owned) (h : table.Extends table')
    (haccept : ∀ symbol, accept symbol.outline = accept symbol) :
    table'.find? scope name rule accept = table.find? scope name rule accept := by
  rw [find?, find?, ← symbolsNamed_frame table', h.frame, symbolsNamed_frame]
  cases hnmd : table.symbolsNamed scope name with
  | error fault => rfl
  | ok ids =>
    refine congrArg Except.ok (List.find?_congr fun id hid => ?_)
    obtain ⟨storage, _, hfile⟩ := mem_fileOf_of_symbolsNamed hnmd hid
    obtain ⟨symbol, _, hsym, _⟩ := hwn.kept hfile
    exact fits_of_keeps h.symbols haccept hsym

theorem accepts_outline (kind : IdentifierKind) (symbol : Symbol) : kind.accepts symbol.outline = kind.accepts symbol := by
  obtain ⟨_, _, _, data⟩ := symbol
  cases kind <;> cases data <;> rfl

end SymbolTable

end SoftTyping
