import SoftTyping.Proofs.SymbolTable.Changes

/-!
# Where declarations are kept

A scope keeps its declarations under the lower case of their names (`fileOf`), and so does a namespace block its aliases
(`usesOf`). What is declared comes last there, and nothing is taken away.
-/

namespace SoftTyping

/-- The aliases of a namespace block, by the lower case of their names. -/
def Scope.uses (entry : Scope) : OrderedMap String (List SymbolId) :=
  match entry.kind with
  | .namespaceBlock _ uses => uses
  | _ => ∅

namespace SymbolTable

open Text

variable {table table' : SymbolTable} {scope storage block : ScopeId} {id : SymbolId} {symbol : Symbol}
  {key : String} {u : Unit}
  {change : Symbol → Symbol} {generation : Generation} {entry : Scope}

/-- The symbols that a scope keeps under a key. -/
def fileOf (table : SymbolTable) (storage : ScopeId) (key : String) : List SymbolId :=
  ((table.scope? storage).bind (·.symbols.get? key)).getD []

/-! ## What changes do to files -/

section Lists

variable {files : Scope → OrderedMap String (List SymbolId)}

/-- What a scope has in one of its files under a key. -/
def listOf (files : Scope → OrderedMap String (List SymbolId)) (table : SymbolTable) (scope : ScopeId) (key : String) :
    List SymbolId :=
  ((table.scope? scope).bind fun entry => (files entry).get? key).getD []

theorem listOf_of_scopes (hgen : table'.generation = table.generation) (hscs : table'.scopes = table.scopes) :
    listOf files table' scope key = listOf files table scope key := by
  rw [listOf, listOf, scope?_of_scopes hgen hscs]

theorem listOf_of_modify (index : Nat) (change : Scope → Scope) (hgen : table'.generation = table.generation)
    (hscs : table'.scopes = table.scopes.modify index change) (h : ∀ entry, files (change entry) = files entry) :
    listOf files table' scope key = listOf files table scope key := by
  rw [listOf, listOf, scope?_of_modify hgen hscs]
  split
  · cases table.scope? scope with
    | none => rfl
    | some entry => simp only [Option.map_some, Option.bind_some, h]
  · rfl

theorem listOf_of_push (hgen : table'.generation = table.generation)
    (hscs : table'.scopes = table.scopes.push entry) (he : files entry = ∅) :
    listOf files table' scope key = listOf files table scope key := by
  rw [listOf, listOf, scope?, scope?, hgen, hscs]
  split
  · rw [Array.getElem?_push]
    split
    · next hix => rw [hix, Array.getElem?_size, Option.bind_some, he]; rfl
    · rfl
  · rfl

/-- What is in the files of the scopes when one of them has filed a symbol. -/
theorem listOf_of_file (index : Nat) (change : Scope → Scope) {filed : String} (hgen : table'.generation = table.generation)
    (hscs : table'.scopes = table.scopes.modify index change)
    (h : ∀ entry, table.scopes[index]? = some entry → files (change entry) = fileUnder (files entry) filed id) :
    listOf files table' scope key = listOf files table scope key ∨
      (listOf files table' scope key = listOf files table scope key ++ [id] ∧ filed = key ∧
        scope.generation = table.generation ∧ index = scope.index) := by
  rw [listOf, listOf, scope?_of_modify hgen hscs]
  split
  · next hix =>
    cases he : table.scope? scope with
    | none => exact .inl rfl
    | some entry =>
      obtain ⟨hsm, hget⟩ := scope?_eq_some he
      rw [Option.map_some, Option.bind_some, Option.bind_some, h entry (hix ▸ hget), fileUnder, OrderedMap.get?_insert]
      split
      · next hkey =>
        subst hkey
        exact .inr ⟨rfl, rfl, hsm, hix⟩
      · exact .inl rfl
  · exact .inl rfl

end Lists

/-- The aliases that a scope has under a key. -/
def usesOf (table : SymbolTable) (block : ScopeId) (key : String) : List SymbolId := listOf Scope.uses table block key

theorem fileOf_of_scopes (hgen : table'.generation = table.generation) (hscs : table'.scopes = table.scopes) :
    table'.fileOf storage key = table.fileOf storage key :=
  listOf_of_scopes hgen hscs

theorem fileOf_of_modify (index : Nat) (change : Scope → Scope) (hgen : table'.generation = table.generation)
    (hscs : table'.scopes = table.scopes.modify index change) (h : ∀ entry, (change entry).symbols = entry.symbols) :
    table'.fileOf storage key = table.fileOf storage key :=
  listOf_of_modify index change hgen hscs h

theorem fileOf_of_push (hgen : table'.generation = table.generation)
    (hscs : table'.scopes = table.scopes.push entry) (he : entry.symbols = ∅) :
    table'.fileOf storage key = table.fileOf storage key :=
  listOf_of_push hgen hscs he

/-- Where a symbol is filed that is declared. -/
theorem fileOf_define (h : define scope symbol table = .ok id table') (other : ScopeId) (key : String) :
    table'.fileOf other key = table.fileOf other key ∨
      (table'.fileOf other key = table.fileOf other key ++ [id] ∧ lowerCase symbol.name = key ∧
        other.generation = table.generation ∧ ∃ kept, table.storageScope scope = .ok kept ∧ kept.index = other.index) := by
  obtain ⟨home, kept, _, hkt, _, htb⟩ := define_eq_ok h
  have hfile : listOf Scope.symbols table' other key = listOf _ table other key ∨ _ := listOf_of_file kept.index
    (fun entry => { entry with symbols := fileUnder entry.symbols (lowerCase symbol.name) id }) (by rw [htb]) (by rw [htb])
    fun _ _ => rfl
  exact hfile.imp_right fun ⟨hadd, hkey, hgen, hix⟩ => ⟨hadd, hkey, hgen, kept, hkt, hix⟩

/-- What is kept when a symbol has been declared is what was kept before, and the symbol. -/
theorem mem_fileOf_define {other : SymbolId} (hdef : define scope symbol table = .ok id table')
    (h : other ∈ table'.fileOf storage key) : other ∈ table.fileOf storage key ∨
      other = id ∧ lowerCase symbol.name = key ∧ storage.generation = table.generation ∧
        ∃ kept, table.storageScope scope = .ok kept ∧ kept.index = storage.index := by
  rcases fileOf_define hdef storage key with hfile | ⟨hfile, hkt⟩ <;> rw [hfile] at h
  · exact .inl h
  · exact (List.mem_append.mp h).imp_right fun hnew => ⟨List.mem_singleton.mp hnew, hkt⟩

/-- A symbol that is declared is kept under its name. -/
theorem exists_fileOf_define (h : define scope symbol table = .ok id table') :
    ∃ storage, table.storageScope scope = .ok storage ∧ id ∈ table'.fileOf storage (lowerCase symbol.name) := by
  simp only [define, Step.bind_eq_ok, Step.query_eq_ok, Step.pure_eq_ok, updateScope, Step.modify_eq_ok] at h
  obtain ⟨home, _, ⟨_, rfl⟩, storage, _, ⟨hsto, rfl⟩, added, _, hadded, _, _, ⟨entry, _, ⟨he, rfl⟩, rfl⟩, rfl, rfl⟩ := h
  obtain ⟨rfl, rfl⟩ := addDetached_eq_ok hadded
  obtain ⟨hgen, hget⟩ := scope?_eq_some (scope_eq_ok.mp he)
  refine ⟨storage, hsto, ?_⟩
  unfold fileOf scope?
  rw [if_pos hgen, Array.getElem?_modify, if_pos rfl, hget]
  simp [fileUnder]

theorem fileOf_updateSymbol (h : updateSymbol id change table = .ok u table') :
    table'.fileOf storage key = table.fileOf storage key := by
  obtain ⟨_, rfl⟩ := updateSymbol_eq_ok h
  exact fileOf_of_scopes rfl rfl

theorem usesOf_define (h : define scope symbol table = .ok id table') : table'.usesOf block key = table.usesOf block key := by
  obtain ⟨home, storage, _, _, _, rfl⟩ := define_eq_ok h
  refine listOf_of_modify storage.index
    (fun entry => { entry with symbols := fileUnder entry.symbols (lowerCase symbol.name) id }) rfl rfl fun _ => rfl

theorem usesOf_updateSymbol (h : updateSymbol id change table = .ok u table') :
    table'.usesOf block key = table.usesOf block key := by
  obtain ⟨_, rfl⟩ := updateSymbol_eq_ok h
  exact listOf_of_scopes rfl rfl

theorem mem_usesOf_defineUse {home : ScopeId} (h : defineUse home symbol table = .ok id table') {other : SymbolId}
    (hoth : other ∈ table'.usesOf block key) :
    other ∈ table.usesOf block key ∨ other = id ∧ block = home ∧ key = lowerCase symbol.name := by
  obtain ⟨_, entry, storage, uses, he, hk, htb⟩ := defineUse_eq_ok h
  obtain ⟨hgen, hget⟩ := scope?_eq_some he
  have hfile : table'.usesOf block key = table.usesOf block key ∨ _ := listOf_of_file home.index
    (fun entry => { entry with kind := .namespaceBlock storage (fileUnder uses (lowerCase symbol.name) id) }) (by rw [htb])
    (by rw [htb]) fun old hold => by
      cases hget.symm.trans hold
      rw [Scope.uses, Scope.uses, hk]
  rcases hfile with hsm | ⟨hadd, hkey, hsm, hix⟩
  · exact .inl (hsm ▸ hoth)
  · have hbl : block = home := ScopeId.ext (hsm.trans hgen.symm) hix.symm
    exact (List.mem_append.mp (hadd ▸ hoth)).imp_right fun hnew => ⟨List.mem_singleton.mp hnew, hbl, hkey.symm⟩

/-! ## New tables -/

theorem symbol_of_new {index : Nat} {symbol : Symbol}
    (h : (new generation).symbols[index]? = some symbol) : (new generation).symbols[0]? = some symbol := by
  cases index with
  | zero => exact h
  | succ index => simp [new] at h

theorem scope_of_new (h : (new generation).scope? scope = some entry) :
    ∃ path, entry.kind = .globalNamespace path ∧ entry.enclosing = none := by
  obtain ⟨_, hget⟩ := scope?_eq_some h
  obtain ⟨_, index⟩ := scope
  rcases index with _ | _ | _ | index
  case succ.succ.succ => simp [new] at hget
  all_goals
    cases hget
    exact ⟨_, rfl, rfl⟩

theorem fileOf_new (generation : Generation) (storage : ScopeId) (key : String) :
    (new generation).fileOf storage key = [] := by
  unfold fileOf scope?
  split
  · match hix : storage.index with
    | 0 | 1 | 2 => rfl
    | _ + 3 => simp [new]
  · rfl

end SymbolTable

end SoftTyping
