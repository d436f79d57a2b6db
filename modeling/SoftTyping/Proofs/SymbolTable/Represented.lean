import SoftTyping.Proofs.SymbolTable.Rooted

/-!
# What every table is like

Whatever is done to a table, and also where it is refused half-way, the table is changed in a few ways only (`Edits`), and
each of them keeps the order in it (`Represented`): a scope was made after the one around it, a namespace is known under its
path, a symbol is kept once and under its own name, and a variable is declared once. So every question about where a scope
stands has an answer (`Represented.answers`).
-/

namespace SoftTyping

open SymbolTable OrderedMap

/-! ## All that scopes keep -/

theorem perm_insertEntry (key : String) (id : SymbolId) (entries : List (String × List SymbolId)) :
    ((insertEntry key ((lookupEntry key entries).getD [] ++ [id]) entries).map Prod.snd).flatten.Perm
      (id :: (entries.map Prod.snd).flatten) := by
  induction entries with
  | nil => exact .refl _
  | cons entry rest ih =>
    by_cases hkey : entry.1 = key
    · simp only [insertEntry, lookupEntry, if_pos hkey, Option.getD_some, List.map_cons, List.flatten_cons, List.append_assoc]
      exact List.perm_middle
    · simp only [insertEntry, lookupEntry, if_neg hkey, List.map_cons, List.flatten_cons]
      exact (ih.append_left _).trans List.perm_middle

theorem perm_fileUnder (files : OrderedMap String (List SymbolId)) (key : String) (id : SymbolId) :
    (fileUnder files key id).values.flatten.Perm (id :: files.values.flatten) :=
  perm_insertEntry key id files.entries

theorem OrderedMap.mem_flatten_values {files : OrderedMap String (List SymbolId)} {id : SymbolId} :
    id ∈ files.values.flatten ↔ ∃ key, id ∈ (files.get? key).getD [] := by
  rw [List.mem_flatten]
  constructor
  · rintro ⟨ids, hids, hid⟩
    obtain ⟨⟨key, _⟩, he, rfl⟩ := List.mem_map.mp hids
    exact ⟨key, by rwa [get?_eq_some_iff.mpr he, Option.getD_some]⟩
  · rintro ⟨key, hid⟩
    cases hget : files.get? key with
    | none =>
      rw [hget] at hid
      nomatch hid
    | some ids =>
      rw [hget] at hid
      exact ⟨ids, List.mem_map.mpr ⟨_, get?_eq_some_iff.mp hget, rfl⟩, hid⟩

/-- A change of one item that adds to what it has adds to what all of them have. -/
theorem perm_flatMap_modify {α β : Type} {items : List α} {index : Nat} {item : α} {b : β} {has : α → List β}
    {change : α → α} (hitem : items[index]? = some item) (hchg : (has (change item)).Perm (b :: has item)) :
    ((items.modify index change).flatMap has).Perm (b :: items.flatMap has) := by
  induction items generalizing index with
  | nil => nomatch hitem
  | cons first rest ih =>
    cases index with
    | zero =>
      cases hitem
      rw [List.modify_zero_cons, List.flatMap_cons, List.flatMap_cons]
      exact hchg.append_right _
    | succ index =>
      rw [List.modify_succ_cons, List.flatMap_cons, List.flatMap_cons]
      exact ((ih hitem).append_left _).trans List.perm_middle

namespace SymbolTable

open Text

variable {table table' : SymbolTable} {scope storage block : ScopeId} {id : SymbolId} {symbol symbol' : Symbol} {entry : Scope}
  {key : String} {u : Unit}

/-- All symbols that the scopes of a table keep, aliases included. -/
def stored (table : SymbolTable) : List SymbolId :=
  table.scopes.toList.flatMap fun entry => entry.allSymbols ++ entry.uses.values.flatten

theorem mem_stored : id ∈ table.stored ↔ ∃ scope key, id ∈ table.fileOf scope key ∨ id ∈ table.usesOf scope key := by
  simp only [stored, List.mem_flatMap, List.mem_append, Scope.allSymbols, mem_flatten_values]
  constructor
  · rintro ⟨entry, he, hid⟩
    obtain ⟨index, hix⟩ := List.mem_iff_getElem?.mp he
    have hsc : table.scope? ⟨table.generation, index⟩ = some entry := by
      rw [scope?, if_pos rfl, ← Array.getElem?_toList, hix]
    rcases hid with ⟨key, hid⟩ | ⟨key, hid⟩
    · exact ⟨⟨table.generation, index⟩, key, .inl (by rwa [fileOf, hsc, Option.bind_some])⟩
    · exact ⟨⟨table.generation, index⟩, key, .inr (by rwa [usesOf, listOf, hsc, Option.bind_some])⟩
  · rintro ⟨scope, key, hid⟩
    cases hsc : table.scope? scope with
    | none =>
      rw [fileOf, usesOf, listOf, hsc] at hid
      rcases hid with hid | hid <;> cases hid
    | some entry =>
      rw [fileOf, usesOf, listOf, hsc, Option.bind_some, Option.bind_some] at hid
      refine ⟨entry, ?_, hid.imp (fun hid => ⟨key, hid⟩) fun hid => ⟨key, hid⟩⟩
      rw [List.mem_iff_getElem?]
      exact ⟨scope.index, by rw [Array.getElem?_toList, (scope?_eq_some hsc).2]⟩

theorem stored_of_scopes (h : table'.scopes = table.scopes) : table'.stored = table.stored := by
  rw [stored, stored, h]

theorem stored_of_push {entry : Scope} (h : table'.scopes = table.scopes.push entry) (hsyms : entry.symbols = ∅)
    (huses : entry.uses = ∅) : table'.stored = table.stored := by
  rw [stored, stored, h, Array.toList_push, List.flatMap_append, List.flatMap_singleton, Scope.allSymbols, hsyms, huses]
  exact List.append_nil _

theorem stored_of_modify (index : Nat) (change : Scope → Scope) (h : table'.scopes = table.scopes.modify index change)
    (hsyms : ∀ entry, (change entry).symbols = entry.symbols) (huses : ∀ entry, (change entry).uses = entry.uses) :
    table'.stored = table.stored := by
  rw [stored, stored, h, Array.toList_modify]
  generalize table.scopes.toList = scopes
  clear h
  induction scopes generalizing index with
  | nil => rw [List.modify_nil]
  | cons first rest ih =>
    cases index with
    | zero =>
      rw [List.modify_zero_cons, List.flatMap_cons, List.flatMap_cons, Scope.allSymbols, Scope.allSymbols, hsyms, huses]
    | succ index => rw [List.modify_succ_cons, List.flatMap_cons, List.flatMap_cons, ih]

theorem stored_define (hrt : table.Rooted) (h : define scope symbol table = .ok id table') :
    table'.stored.Perm (id :: table.stored) := by
  obtain ⟨home, storage, _, hsto, rfl, rfl⟩ := define_eq_ok h
  obtain ⟨entry, he⟩ := hrt.scope?_storageScope hsto
  rw [stored, Array.toList_modify]
  refine perm_flatMap_modify (by rw [Array.getElem?_toList, (scope?_eq_some he).2]) ?_
  exact (perm_fileUnder entry.symbols _ _).append_right _

theorem stored_defineUse (h : defineUse block symbol table = .ok id table') : table'.stored.Perm (id :: table.stored) := by
  obtain ⟨rfl, entry, storage, uses, he, hk, rfl⟩ := defineUse_eq_ok h
  rw [stored, Array.toList_modify]
  refine perm_flatMap_modify (by rw [Array.getElem?_toList, (scope?_eq_some he).2]) ?_
  have huses : entry.uses = uses := by rw [Scope.uses, hk]
  rw [huses]
  exact ((perm_fileUnder uses _ _).append_left _).trans List.perm_middle

theorem fileOf_defineUse (h : defineUse block symbol table = .ok id table') :
    table'.fileOf storage key = table.fileOf storage key := by
  obtain ⟨_, _, storage, uses, _, _, rfl⟩ := defineUse_eq_ok h
  exact fileOf_of_modify block.index
    (fun entry => { entry with kind := .namespaceBlock storage (fileUnder uses (lowerCase symbol.name) id) })
    rfl rfl fun _ => rfl

/-! ## Edits -/

theorem stays_define {added : SymbolId} (hdef : define scope symbol' table = .ok added table')
    (hsym : table.symbol? id = some symbol) : table'.symbol? id = some symbol := by
  obtain ⟨_, _, _, _, hid, _⟩ := define_eq_ok hdef
  obtain ⟨home, _, hnew⟩ := symbol?_define hdef
  rw [hnew, if_neg (hid ▸ ne_of_symbol? hsym), hsym]

theorem Edits.retains (h : table.Edits table') (hsym : table.symbol? id = some symbol) :
    ∃ symbol', table'.symbol? id = some symbol' ∧ Retains symbol symbol' := by
  have hsm : table'.symbol? id = some symbol → ∃ symbol', table'.symbol? id = some symbol' ∧ Retains symbol symbol' :=
    fun hst => ⟨symbol, hst, .refl symbol⟩
  have hpu : ∀ new, (table.pushSymbol new).2.symbol? id = some symbol := fun new => by
    rw [symbol?_pushSymbol, if_neg (ne_pushSymbol hsym), hsym]
  cases h with
  | push new => exact hsm (hpu new)
  | define _ h => exact hsm (stays_define h hsym)
  | defineUse h =>
    obtain ⟨_, _, _, _, _, _, rfl⟩ := defineUse_eq_ok h
    exact hsm (hpu _)
  | namespaceOf h => exact hsm (symbol?_of_symbols (namespaceOf_keeps h).1.generation (namespaceOf_keeps h).2 ▸ hsym)
  | openNamespace _ h | addScope _ h =>
    exact hsm (symbol?_of_symbols (addScope_keeps h).1.generation (addScope_keeps h).2.2 ▸ hsym)
  | updateSymbol hretains h =>
    rw [symbol?_updateSymbol h, hsym]
    split
    · next heq => exact ⟨_, rfl, hretains symbol (heq ▸ hsym)⟩
    · exact ⟨symbol, rfl, .refl symbol⟩
  | initialise => exact hsm hsym

theorem Edited.retains (h : table.Edited table') (hsym : table.symbol? id = some symbol) :
    ∃ symbol', table'.symbol? id = some symbol' ∧ Retains symbol symbol' := by
  induction h with
  | refl => exact ⟨symbol, hsym, .refl symbol⟩
  | tail _ hls ih =>
    obtain ⟨mid, hmid, hret⟩ := ih
    obtain ⟨symbol', hsym', hret'⟩ := hls.retains hmid
    exact ⟨symbol', hsym', hret.trans hret'⟩

theorem Edited.keepsScopes (h : table.Edited table') : table.KeepsScopes table' :=
  keeps_of_changes h (fun hstp hkp => hkp.trans hstp.keepsScopes) (.refl table)

/-- Scopes keep the same. -/
structure KeepsFiles (table table' : SymbolTable) : Prop where
  files : ∀ storage key, table'.fileOf storage key = table.fileOf storage key
  uses : ∀ block key, table'.usesOf block key = table.usesOf block key
  stored : table'.stored = table.stored

theorem KeepsFiles.refl (table : SymbolTable) : table.KeepsFiles table := ⟨fun _ _ => rfl, fun _ _ => rfl, rfl⟩

theorem keepsFiles_pushScope (hgen : table'.generation = table.generation)
    (hscs : table'.scopes = table.scopes.push entry) (hsyms : entry.symbols = ∅) (huses : entry.uses = ∅) :
    table.KeepsFiles table' :=
  ⟨fun _ _ => fileOf_of_push hgen hscs hsyms, fun _ _ => listOf_of_push hgen hscs huses,
    stored_of_push hscs hsyms huses⟩

theorem Edits.files (h : table.Edits table') : table.KeepsFiles table' ∨
    (∃ scope symbol id, table.Allows scope symbol ∧ SymbolTable.define scope symbol table = .ok id table') ∨
    ∃ block symbol id, SymbolTable.defineUse block symbol table = .ok id table' := by
  cases h with
  | push symbol => exact .inl ⟨fun _ _ => fileOf_of_scopes rfl rfl, fun _ _ => listOf_of_scopes rfl rfl, stored_of_scopes rfl⟩
  | define hallows hdef => exact .inr (.inl ⟨_, _, _, hallows, hdef⟩)
  | defineUse hdef => exact .inr (.inr ⟨_, _, _, hdef⟩)
  | namespaceOf hns =>
    obtain ⟨_, rfl⟩ | ⟨_, _, rfl⟩ := namespaceOf_eq_ok hns
    · exact .inl (.refl _)
    · exact .inl (keepsFiles_pushScope rfl rfl rfl rfl)
  | openNamespace _ hadd =>
    obtain ⟨_, rfl⟩ := addScope_eq_ok hadd
    exact .inl (keepsFiles_pushScope rfl rfl rfl rfl)
  | addScope hk hadd =>
    obtain ⟨_, rfl⟩ := addScope_eq_ok hadd
    refine .inl (keepsFiles_pushScope rfl rfl rfl ?_)
    rcases hk with rfl | ⟨_, rfl⟩ <;> rfl
  | updateSymbol _ hup =>
    refine .inl ⟨fun _ _ => fileOf_updateSymbol hup, fun _ _ => usesOf_updateSymbol hup, ?_⟩
    obtain ⟨_, rfl⟩ := updateSymbol_eq_ok hup
    rfl
  | initialise scope change =>
    let initialise := fun entry : Scope => { entry with initialised := change entry.initialised }
    exact .inl ⟨fun _ _ => fileOf_of_modify scope.index initialise rfl rfl fun _ => rfl,
      fun _ _ => listOf_of_modify scope.index initialise rfl rfl fun _ => rfl,
      stored_of_modify scope.index initialise rfl (fun _ => rfl) fun _ => rfl⟩

/-! ## Namespaces -/

/-- Scopes stand in older ones, and the scopes of namespaces are known by their paths. -/
structure Placed (table : SymbolTable) : Prop where
  rooted : table.Rooted
  enclosed : ∀ {id entry}, table.scope? id = some entry → 3 ≤ id.index → ∃ outer, entry.enclosing = some outer
  known : ∀ {id entry path}, table.scope? id = some entry → entry.kind = .globalNamespace path →
    table.namespaces.get? (lowerCase path) = some id ∨ id = table.coreScope ∧ path = "core" ∨
      id = table.superGlobalScope ∧ path = "superglobals"
  normal : ∀ {key id}, table.namespaces.get? key = some id → ∃ entry path, table.scope? id = some entry ∧
    entry.kind = .globalNamespace path ∧ normalizePath path = path ∧ lowerCase path = key
  opened : ∀ {id entry storage uses}, table.scope? id = some entry → entry.kind = .namespaceBlock storage uses →
    ∃ key, table.namespaces.get? key = some storage

/-- A namespace stays known. -/
theorem Edits.namespaces (h : table.Edits table') (hf : table.namespaces.get? key = some storage) :
    table'.namespaces.get? key = some storage := by
  cases h.reshapes with
  | keep _ hnss => rw [hnss, hf]
  | add => exact hf
  | namespaceOf hns =>
    obtain ⟨_, rfl⟩ | ⟨hno, rfl, rfl⟩ := namespaceOf_eq_ok hns
    · exact hf
    · rw [get?_insert, if_neg, hf]
      rintro rfl
      cases hno.symm.trans hf

namespace Placed

variable {outer : ScopeId}

theorem normal_mono (h : table.Placed) (hkp : table.KeepsScopes table') {id : ScopeId}
    (hkn : table.namespaces.get? key = some id) : ∃ entry path, table'.scope? id = some entry ∧
      entry.kind = .globalNamespace path ∧ normalizePath path = path ∧ lowerCase path = key := by
  obtain ⟨entry, path, he, hk, hpth⟩ := h.normal hkn
  obtain ⟨entry', he', _, hout⟩ := hkp.scope he
  exact ⟨entry', path, he', (ScopeKind.eq_of_outline hout (by rw [hk]; nofun)).trans hk, hpth⟩

theorem of_keeps (h : table.Placed) (hrt : table'.Rooted) (hkp : table.KeepsScopes table')
    (hsz : table'.scopes.size = table.scopes.size) (hnss : table'.namespaces = table.namespaces) :
    table'.Placed := by
  refine ⟨hrt, fun he hix => ?_, fun he hk => ?_, fun hkn => h.normal_mono hkp (hnss ▸ hkn),
    fun he hk => ?_⟩
  · obtain ⟨old, hold, henc, _⟩ := hkp.exists_scope? hsz he
    rw [henc]
    exact h.enclosed hold hix
  · obtain ⟨old, hold, _, hout⟩ := hkp.exists_scope? hsz he
    rw [hk] at hout
    rw [hnss, coreScope, superGlobalScope, hkp.generation]
    exact h.known hold (ScopeKind.eq_of_outline hout.symm (by simp))
  · obtain ⟨old, hold, _, hout⟩ := hkp.exists_scope? hsz he
    rw [hk] at hout
    obtain ⟨uses', hold'⟩ := ScopeKind.exists_of_outline hout.symm
    rw [hnss]
    exact h.opened hold hold'

/-- One more scope, which is not that of a namespace. -/
theorem pushScope (h : table.Placed) (hrt : (table.pushScope entry).2.Rooted) (henc : entry.enclosing = some outer)
    (hk : ∀ path, entry.kind ≠ .globalNamespace path)
    (hbl : ∀ storage uses, entry.kind = .namespaceBlock storage uses → ∃ key, table.namespaces.get? key = some storage) :
    (table.pushScope entry).2.Placed := by
  refine ⟨hrt, fun hoth hix => ?_, fun hoth hpth => ?_, fun hkn => h.normal_mono (keepsScopes_pushScope _ _) hkn,
    fun hoth hbl' => ?_⟩
  · rcases scope?_pushScope hoth with ⟨rfl, rfl⟩ | hoth
    · exact ⟨outer, henc⟩
    · exact h.enclosed hoth hix
  · rcases scope?_pushScope hoth with ⟨rfl, rfl⟩ | hoth
    · exact absurd hpth (hk _)
    · exact h.known hoth hpth
  · rcases scope?_pushScope hoth with ⟨rfl, rfl⟩ | hoth
    · exact hbl _ _ hbl'
    · exact h.opened hoth hbl'

theorem namespaceOf (h : table.Placed) {path : String} (hns : namespaceOf path table = .ok scope table') :
    table'.Placed := by
  have hrt := h.rooted.namespaceOf hns
  have hkp := (namespaceOf_keeps hns).1
  have hold : ∀ {key id}, table.namespaces.get? key = some id → table'.namespaces.get? key = some id :=
    (Edits.namespaceOf hns).namespaces
  obtain ⟨_, rfl⟩ | ⟨_, rfl, rfl⟩ := namespaceOf_eq_ok hns
  · exact h
  · have hscope? : ∀ {id old}, (table.pushScope ⟨normalizePath path, some table.defaultNamespace,
        .globalNamespace (normalizePath path), ∅, ∅⟩).2.scope? id = some old → _ := scope?_pushScope
    refine ⟨hrt, fun hoth hix => ?_, fun hoth hpth => ?_, fun {key id} hkn => ?_, fun hoth hbl => ?_⟩
    · rcases hscope? hoth with ⟨rfl, rfl⟩ | hoth
      · exact ⟨_, rfl⟩
      · exact h.enclosed hoth hix
    · rcases hscope? hoth with ⟨rfl, rfl⟩ | hoth
      · cases hpth
        exact .inl (by simp [SymbolTable.pushScope])
      · exact (h.known hoth hpth).imp_left hold
    · simp only [get?_insert] at hkn
      split at hkn
      · next hkey =>
        cases hkn
        exact ⟨_, _, scope?_pushScope_self table _, rfl, normalizePath_normalizePath path, hkey⟩
      · exact h.normal_mono hkp hkn
    · rcases hscope? hoth with ⟨rfl, rfl⟩ | hoth
      · cases hbl
      · obtain ⟨key, hkey⟩ := h.opened hoth hbl
        exact ⟨key, hold hkey⟩

end Placed

theorem Edits.placed (heds : table.Edits table') (h : table.Placed) : table'.Placed := by
  have hkp := heds.keepsScopes
  have hrt := heds.rooted h.rooted
  cases heds.reshapes with
  | keep hsz hnss => exact h.of_keeps hrt hkp hsz hnss
  | add _ henc hk hbl => exact h.pushScope hrt henc hk fun storage uses heq => ⟨_, hbl storage uses heq⟩
  | namespaceOf hns => exact h.namespaceOf hns

/-! ## The whole table -/

/-- A symbol is a variable and no parameter. -/
def IsPlain (symbol : Symbol) : Prop := symbol.var?.map (·.isParameter) = some false

/-- The order in a table. -/
structure Represented (table : SymbolTable) : Prop where
  placed : table.Placed
  /-- What a scope keeps under a key has a name of this lower case, and was declared where this scope keeps declarations. -/
  kept : ∀ {storage key id}, id ∈ table.fileOf storage key → ∃ symbol home, table.symbol? id = some symbol ∧
    lowerCase symbol.name = key ∧ symbol.scope = some home ∧ table.storageScope home = .ok storage
  /-- So it is of the aliases of a namespace block, which were declared in it. -/
  used : ∀ {block key id}, id ∈ table.usesOf block key → ∃ symbol, table.symbol? id = some symbol ∧
    lowerCase symbol.name = key ∧ symbol.scope = some block
  once : table.stored.Nodup
  /-- A variable is declared once, but for parameters and super-globals. -/
  distinct : ∀ {storage key key' id id' symbol symbol'}, storage ≠ table.superGlobalScope →
    id ∈ table.fileOf storage key → id' ∈ table.fileOf storage key' → table.symbol? id = some symbol →
    table.symbol? id' = some symbol' → IsPlain symbol → IsPlain symbol' → symbol.name = symbol'.name → id = id'

namespace Represented

variable (h : table.Represented)

include h

theorem rooted : table.Rooted := h.placed.rooted

theorem symbol?_of_mem_stored (hid : id ∈ table.stored) : ∃ symbol, table.symbol? id = some symbol := by
  obtain ⟨scope, key, hid | hid⟩ := mem_stored.mp hid
  · obtain ⟨symbol, _, hsym, _⟩ := h.kept hid
    exact ⟨symbol, hsym⟩
  · obtain ⟨symbol, hsym, _⟩ := h.used hid
    exact ⟨symbol, hsym⟩

theorem nodup_of_perm (hperm : table'.stored.Perm (⟨table.generation, table.symbols.size⟩ :: table.stored)) :
    table'.stored.Nodup := by
  rw [hperm.nodup_iff, List.nodup_cons]
  refine ⟨fun hmem => ?_, h.once⟩
  obtain ⟨symbol, hsym⟩ := h.symbol?_of_mem_stored hmem
  exact ne_of_symbol? hsym rfl

variable (heds : table.Edits table')

include heds

theorem kept_mono (hid : id ∈ table.fileOf storage key) : ∃ symbol home, table'.symbol? id = some symbol ∧
    lowerCase symbol.name = key ∧ symbol.scope = some home ∧ table'.storageScope home = .ok storage := by
  obtain ⟨symbol, home, hsym, hnm, hhm, hsto⟩ := h.kept hid
  obtain ⟨symbol', hsym', hretains⟩ := heds.retains hsym
  exact ⟨symbol', home, hsym', hretains.name ▸ hnm, hretains.scope.trans hhm,
    h.placed.rooted.storageScope_keeps (heds.placed h.placed).rooted heds.keepsScopes hsto⟩

theorem used_mono (hid : id ∈ table.usesOf block key) : ∃ symbol, table'.symbol? id = some symbol ∧
    lowerCase symbol.name = key ∧ symbol.scope = some block := by
  obtain ⟨symbol, hsym, hnm, hhm⟩ := h.used hid
  obtain ⟨symbol', hsym', hretains⟩ := heds.retains hsym
  exact ⟨symbol', hsym', hretains.name ▸ hnm, hretains.scope.trans hhm⟩

theorem plain_of_kept (hid : id ∈ table.fileOf storage key) (hsym' : table'.symbol? id = some symbol')
    (hpn : IsPlain symbol') : ∃ symbol, table.symbol? id = some symbol ∧ IsPlain symbol ∧ symbol.name = symbol'.name := by
  obtain ⟨symbol, _, hsym, _⟩ := h.kept hid
  obtain ⟨found, hf, hretains⟩ := heds.retains hsym
  cases hf.symm.trans hsym'
  exact ⟨symbol, hsym, hretains.parameter.symm.trans hpn, hretains.name.symm⟩

theorem distinct_mono {key' : String} {id' : SymbolId} {first second : Symbol} (hsto : storage ≠ table'.superGlobalScope)
    (hid : id ∈ table.fileOf storage key) (hid' : id' ∈ table.fileOf storage key') (hfst : table'.symbol? id = some first)
    (hsnd : table'.symbol? id' = some second) (hpn : IsPlain first) (hpn' : IsPlain second)
    (hnm : first.name = second.name) : id = id' := by
  obtain ⟨old, hold, holdPlain, holdName⟩ := h.plain_of_kept heds hid hfst hpn
  obtain ⟨old', hold', holdPlain', holdName'⟩ := h.plain_of_kept heds hid' hsnd hpn'
  rw [superGlobalScope, heds.keepsScopes.generation] at hsto
  exact h.distinct hsto hid hid' hold hold' holdPlain holdPlain' (holdName.trans (hnm.trans holdName'.symm))

theorem of_files (hfls : table.KeepsFiles table') : table'.Represented where
  placed := heds.placed h.placed
  kept hid := h.kept_mono heds (hfls.files _ _ ▸ hid)
  used hid := h.used_mono heds (hfls.uses _ _ ▸ hid)
  once := hfls.stored ▸ h.once
  distinct hsto hid hid' := h.distinct_mono heds hsto (hfls.files _ _ ▸ hid) (hfls.files _ _ ▸ hid')

end Represented

/-- What may be declared in a scope is no variable that this scope keeps already. -/
theorem Allows.name_ne (h : table.Allows scope symbol) (hrt : table.Rooted) (hpn : IsPlain symbol)
    (hsto : table.storageScope scope = .ok storage) (hspc : storage ≠ table.superGlobalScope)
    (hid : id ∈ table.fileOf storage (lowerCase symbol.name)) {other : Symbol} (hoth : table.symbol? id = some other)
    (hpn' : IsPlain other) : other.name ≠ symbol.name := by
  obtain ⟨data, hdt, hpar⟩ := Option.map_eq_some_iff.mp hpn
  obtain ⟨data', hdt', _⟩ := Option.map_eq_some_iff.mp hpn'
  rcases h data hdt with htrue | rfl | hno
  · rw [hpar] at htrue
    nomatch htrue
  · obtain ⟨entry, path, he, hk⟩ := hrt.special 2 (by omega)
    have hself := storageScope_of_home (hrt.home_self he (by simp [Scope.isConditional, hk]))
    rw [hk] at hself
    exact absurd (Except.ok.inj (hsto.symm.trans hself)) hspc
  · obtain ⟨entry, he⟩ := hrt.scope?_storageScope hsto
    rw [find?_eq_ok hsto he] at hno
    have hfits := List.find?_eq_none.mp (Except.ok.inj hno) id hid
    rintro hnm
    refine hfits ?_
    rw [fits, hoth]
    simp [hnm, hdt']

theorem Represented.define (h : table.Represented) (hallows : table.Allows scope symbol)
    (hdef : define scope symbol table = .ok id table') : table'.Represented := by
  have hrt := h.placed.rooted
  have heds : table.Edits table' := .define hallows hdef
  have hpcd := heds.placed h.placed
  obtain ⟨_, _, _, _, hnew, _⟩ := define_eq_ok hdef
  obtain ⟨home, hhm, hsym⟩ := symbol?_define hdef
  have hsym := (hsym id).trans (if_pos rfl)
  -- A variable that is new is none of those that are kept.
  have hoth : ∀ {storage key other old}, storage ≠ table'.superGlobalScope → table.storageScope scope = .ok storage →
      other ∈ table.fileOf storage key → table'.symbol? other = some old → IsPlain old → IsPlain symbol →
      old.name ≠ symbol.name := by
    intro storage key other new hspc hsto hid hnew hpn hpn' hnm
    obtain ⟨old, hold, holdPlain, holdName⟩ := h.plain_of_kept heds hid hnew hpn
    obtain ⟨found, _, hf, hkey, _⟩ := h.kept hid
    cases hf.symm.trans hold
    rw [superGlobalScope, heds.keepsScopes.generation] at hspc
    refine hallows.name_ne hrt hpn' hsto hspc ?_ hold holdPlain (holdName.trans hnm)
    rwa [← hnm, ← holdName, hkey]
  refine ⟨hpcd, fun hid => ?_, fun hid => h.used_mono heds (usesOf_define hdef ▸ hid),
    h.nodup_of_perm (hnew ▸ stored_define hrt hdef),
    fun hspc hid hid' hfst hsnd hpn hpn' hnm => ?_⟩
  · rcases hrt.mem_fileOf_define hdef hid with hid | ⟨rfl, rfl, hsto⟩
    · exact h.kept_mono heds hid
    · refine ⟨_, home, hsym, rfl, rfl, ?_⟩
      exact hrt.storageScope_keeps hpcd.rooted heds.keepsScopes
        ((hrt.storageScope_variableScope hhm).trans hsto)
  · rcases hrt.mem_fileOf_define hdef hid with hid | ⟨rfl, rfl, hsto⟩
    · rcases hrt.mem_fileOf_define hdef hid' with hid' | ⟨rfl, rfl, hsto⟩
      · exact h.distinct_mono heds hspc hid hid' hfst hsnd hpn hpn' hnm
      · cases hsym.symm.trans hsnd
        exact absurd hnm (hoth hspc hsto hid hfst hpn hpn')
    · rcases hrt.mem_fileOf_define hdef hid' with hid' | ⟨rfl, _, _⟩
      · cases hsym.symm.trans hfst
        exact absurd hnm.symm (hoth hspc hsto hid' hsnd hpn' hpn)
      · rfl

theorem Represented.defineUse (h : table.Represented) (hdef : defineUse block symbol table = .ok id table') :
    table'.Represented := by
  have heds : table.Edits table' := .defineUse hdef
  have hfls : ∀ storage key, table'.fileOf storage key = table.fileOf storage key := fun _ _ => fileOf_defineUse hdef
  have hperm := stored_defineUse hdef
  refine ⟨heds.placed h.placed, fun hid => h.kept_mono heds (hfls _ _ ▸ hid), fun hid => ?_, ?_,
    fun hspc hid hid' => h.distinct_mono heds hspc (hfls _ _ ▸ hid) (hfls _ _ ▸ hid')⟩
  · rcases mem_usesOf_defineUse hdef hid with hid | ⟨rfl, rfl, rfl⟩
    · exact h.used_mono heds hid
    · obtain ⟨rfl, _, _, _, _, _, rfl⟩ := defineUse_eq_ok hdef
      exact ⟨_, (symbol?_pushSymbol table _ _).trans (if_pos rfl), rfl, rfl⟩
  · obtain ⟨rfl, _⟩ := defineUse_eq_ok hdef
    exact h.nodup_of_perm hperm

theorem Edits.represented (heds : table.Edits table') (h : table.Represented) : table'.Represented := by
  obtain hfls | ⟨_, _, _, hallows, hdef⟩ | ⟨_, _, _, hdef⟩ := heds.files
  · exact h.of_files heds hfls
  · exact h.define hallows hdef
  · exact h.defineUse hdef

theorem represented_new (generation : Generation) : (new generation).Represented := by
  have hscope? : ∀ {id entry}, (new generation).scope? id = some entry → id.index < 3 := by
    intro id entry he
    exact lt_size_of_scope? he
  have hkinds : ∀ {id entry}, (new generation).scope? id = some entry →
      ∀ storage uses, entry.kind ≠ .namespaceBlock storage uses := by
    rintro id entry he storage uses hk
    obtain ⟨_, hpth, _⟩ := scope_of_new he
    cases hpth.symm.trans hk
  have hstd : (new generation).stored = [] := rfl
  refine ⟨⟨rooted_new generation, fun he hix => absurd (hscope? he) (by omega), fun {id entry path} he hk => ?_,
    fun {key id} hkn => ?_, fun he hk => absurd hk (hkinds he _ _)⟩, fun hid => ?_, fun hid => ?_, by rw [hstd]; exact .nil,
    fun _ hid => ?_⟩
  · obtain ⟨hgen, hget⟩ := scope?_eq_some he
    obtain ⟨_, index⟩ := id
    cases hgen
    match index, hscope? he with
    | 0, _ =>
      cases hget
      cases hk
      have hlw : lowerCase defaultPath = defaultPath := by decide +kernel
      rw [hlw]
      exact .inl ((get?_insert _ _ _ _).trans (if_pos rfl))
    | 1, _ =>
      cases hget
      cases hk
      exact .inr (.inl ⟨rfl, rfl⟩)
    | 2, _ =>
      cases hget
      cases hk
      exact .inr (.inr ⟨rfl, rfl⟩)
  · simp only [new, get?_insert, get?_empty] at hkn
    split at hkn
    · next hkey =>
      cases hkn
      subst hkey
      exact ⟨_, _, if_pos rfl, rfl, by decide +kernel, by decide +kernel⟩
    · nomatch hkn
  · rw [fileOf_new] at hid
    nomatch hid
  · have hmem := mem_stored.mpr ⟨_, _, .inr hid⟩
    rw [hstd] at hmem
    nomatch hmem
  · rw [fileOf_new] at hid
    nomatch hid

/-! ## Answers -/

theorem Placed.exists_enclosing (h : table.Placed) {id : ScopeId} (he : table.scope? id = some entry)
    (hix : 3 ≤ id.index) : ∃ outer around, entry.enclosing = some outer ∧ table.scope? outer = some around ∧
      outer.index < id.index := by
  obtain ⟨outer, hou⟩ := h.enclosed he hix
  obtain ⟨around, har⟩ := h.rooted.scope?_enclosing he hou
  exact ⟨outer, around, hou, har, (h.rooted.enclosing he hou).2⟩

/-- The declarations of a namespace block lie in the scope of a namespace, which is known by its normal path. -/
theorem Placed.exists_storage (h : table.Placed) {id : ScopeId} {uses : OrderedMap String (List SymbolId)}
    (he : table.scope? id = some entry) (hk : entry.kind = .namespaceBlock storage uses) :
    ∃ around path, table.scope? storage = some around ∧ around.kind = .globalNamespace path ∧
      table.namespaces.get? (lowerCase (normalizePath path)) = some storage := by
  obtain ⟨key, hkey⟩ := h.opened he hk
  obtain ⟨around, path, har, hpth, hnrm, rfl⟩ := h.normal hkey
  exact ⟨around, path, har, hpth, by rwa [hnrm]⟩

/-- Two scopes of namespaces whose paths have the same lower case are the same. -/
theorem Placed.eq_of_path (h : table.Placed) {id id' : ScopeId} {entry entry' : Scope} {path path' : String}
    (he : table.scope? id = some entry) (hk : entry.kind = .globalNamespace path)
    (he' : table.scope? id' = some entry') (hk' : entry'.kind = .globalNamespace path')
    (hpth : lowerCase path = lowerCase path') : id = id' := by
  -- A path that is known is normal, and the names of the other two scopes are not.
  have hnrm : ∀ {id name}, table.namespaces.get? (lowerCase name) = some id →
      (lowerCase name).toList.head? = some separator := by
    intro id name hkn
    obtain ⟨_, path, _, _, hnrm, hlw⟩ := h.normal hkn
    rw [← hlw, ← hnrm]
    exact head?_lowerCase_normalizePath path
  have hcore : (lowerCase "core").toList.head? ≠ some separator := by decide +kernel
  have hsup : (lowerCase "superglobals").toList.head? ≠ some separator := by decide +kernel
  have hap : lowerCase "core" ≠ lowerCase "superglobals" := by decide +kernel
  rcases h.known he hk with hkn | ⟨rfl, rfl⟩ | ⟨rfl, rfl⟩ <;>
    rcases h.known he' hk' with hkn' | ⟨rfl, rfl⟩ | ⟨rfl, rfl⟩
  · rw [hpth] at hkn
    exact Option.some.inj (hkn.symm.trans hkn')
  · rw [hpth] at hkn
    exact absurd (hnrm hkn) hcore
  · rw [hpth] at hkn
    exact absurd (hnrm hkn) hsup
  · rw [← hpth] at hkn'
    exact absurd (hnrm hkn') hcore
  · rfl
  · exact absurd hpth hap
  · rw [← hpth] at hkn'
    exact absurd (hnrm hkn') hsup
  · exact absurd hpth.symm hap
  · rfl

/-- A scope keeps declarations, is inside a namespace and knows its function and its variables. -/
structure Answers (table : SymbolTable) (id : ScopeId) : Prop where
  storage : ∃ storage entry, table.storageScope id = .ok storage ∧ table.scope? storage = some entry
  variableScope : ∃ home entry, table.variableScope id = .ok home ∧ table.scope? home = some entry ∧ entry.isConditional = false
  enclosingNamespace : ∃ block entry, table.enclosingNamespace id = .ok block ∧ table.scope? block = some entry ∧
    entry.isNamespace = true
  enclosingMethod : ∃ function, table.enclosingMethod id = .ok function
  initialisation : ∀ symbol, ∃ state, table.initialisation id symbol = .ok state
  /-- The chain of the scope is whole: it ends with a scope that has none around it, and does not get longer. -/
  chain : (∃ last, (table.chain id).getLast? = some last ∧ last.2.enclosing = none) ∧
    ∀ length, id.index < length → table.chainWithin length id = table.chain id

theorem scope?_of_mem_chainWithin {id : ScopeId} {length : Nat} {found : ScopeId × Scope}
    (h : found ∈ table.chainWithin length id) : table.scope? found.1 = some found.2 :=
  (of_mem_chainWithin (P := fun _ => True) length trivial (fun _ _ => trivial) h).2

theorem Rooted.exists_last_chain (h : table.Rooted) {id : ScopeId} (he : table.scope? id = some entry) :
    ∃ last, (table.chain id).getLast? = some last ∧ last.2.enclosing = none := by
  obtain ⟨bound, hbo⟩ : ∃ bound, id.index < bound := ⟨_, Nat.lt_succ_self _⟩
  induction bound generalizing id entry with
  | zero => omega
  | succ bound ih =>
    rw [h.chain_eq he]
    cases hou : entry.enclosing with
    | none => exact ⟨_, rfl, hou⟩
    | some outer =>
      obtain ⟨around, har⟩ := h.scope?_enclosing he hou
      obtain ⟨last, hls, hno⟩ := ih har (by have := (h.enclosing he hou).2; omega)
      exact ⟨last, by rw [List.getLast?_cons, hls, Option.getD_some], hno⟩

theorem Rooted.exists_enclosingNamespace (h : table.Rooted) {id : ScopeId} (he : table.scope? id = some entry) :
    ∃ block around, table.enclosingNamespace id = .ok block ∧ table.scope? block = some around ∧
      around.isNamespace = true := by
  obtain ⟨last, hls, hno⟩ := h.exists_last_chain he
  have hmem := List.mem_of_getLast? hls
  obtain ⟨path, hpth⟩ := h.enclosed (scope?_of_mem_chainWithin hmem) hno
  cases hfind : (table.chain id).find? (fun entry => entry.2.isNamespace) with
  | none =>
    have hls := List.find?_eq_none.mp hfind last hmem
    simp [Scope.isNamespace, hpth] at hls
  | some found =>
    have hns := List.find?_some hfind
    refine ⟨found.1, found.2, ?_, scope?_of_mem_chainWithin (List.mem_of_find?_eq_some hfind), hns⟩
    rw [enclosingNamespace, scope_eq_ok.mpr he, hfind]
    rfl

/-- In a table that is in order every scope answers. -/
theorem Represented.answers (h : table.Represented) {id : ScopeId} (he : table.scope? id = some entry) :
    table.Answers id := by
  have hrt := h.placed.rooted
  obtain ⟨home, around, hhm, har, hbr⟩ := hrt.home_eq_ok he
  refine ⟨?_, ⟨home, around, ?_, har, hbr⟩, hrt.exists_enclosingNamespace he, ?_, fun symbol => ?_,
    hrt.exists_last_chain he, fun length hlen => hrt.chainWithin_eq hlen (Nat.lt_succ_self _)⟩
  · obtain ⟨kept, hkt⟩ := hrt.scope?_storageScope (storageScope_of_home hhm)
    exact ⟨_, kept, storageScope_of_home hhm, hkt⟩
  · rw [variableScope, hhm]
    rfl
  · rw [enclosingMethod, hhm]
    dsimp only [bind, Except.bind]
    split <;> exact ⟨_, rfl⟩
  · rw [initialisation, scope_eq_ok.mpr he]
    exact ⟨_, rfl⟩

end SymbolTable

end SoftTyping
