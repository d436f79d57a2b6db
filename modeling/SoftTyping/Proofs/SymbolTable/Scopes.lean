import SoftTyping.Proofs.SymbolTable.Sound

/-!
# What steps on a table leave of its scopes

Scopes are only ever added, and none is moved or turned into one of another kind (`KeepsScopes`). Together with what they
keep of the symbols this is what the passes rely on (`Grows`).
-/

namespace SoftTyping

/-- The kind of a scope without what is declared in it. -/
def ScopeKind.outline : ScopeKind → ScopeKind
  | .namespaceBlock storage _ => .namespaceBlock storage ∅
  | kind => kind

/-- Apart from the blocks of namespaces, a kind is its outline. -/
theorem ScopeKind.eq_of_outline {kind kind' : ScopeKind} (h : kind'.outline = kind.outline)
    (hk : ∀ storage uses, kind ≠ .namespaceBlock storage uses) : kind' = kind := by
  cases kind <;> cases kind' <;> simp_all [outline]

/-- What looks like the block of a namespace is one. -/
theorem ScopeKind.exists_of_outline {kind : ScopeKind} {storage : ScopeId} {uses : OrderedMap String (List SymbolId)}
    (h : kind.outline = (ScopeKind.namespaceBlock storage uses).outline) :
    ∃ uses', kind = .namespaceBlock storage uses' := by
  cases kind <;> simp_all [outline]

namespace SymbolTable

variable {table table' table'' : SymbolTable} {scope block enclosing : ScopeId} {symbol : Symbol} {id : SymbolId}
  {kind : ScopeKind} {change : Symbol → Symbol} {path : String}

/-- The scopes of one table stand in another where they stood, and are of the same kind. -/
structure KeepsScopes (table table' : SymbolTable) : Prop where
  generation : table'.generation = table.generation
  scope : ∀ {id entry}, table.scope? id = some entry → ∃ entry', table'.scope? id = some entry' ∧
    entry'.enclosing = entry.enclosing ∧ entry'.kind.outline = entry.kind.outline
  name : ∀ {id entry entry'}, table.scope? id = some entry → table'.scope? id = some entry' → entry'.name = entry.name

/-- A table that still finds every scope keeps them. -/
theorem keepsScopes_of_scope? (hgen : table'.generation = table.generation)
    (h : ∀ {id entry}, table.scope? id = some entry → table'.scope? id = some entry) : table.KeepsScopes table' :=
  ⟨hgen, fun {_ entry} he => ⟨entry, h he, rfl, rfl⟩, fun he he' => by cases (h he).symm.trans he'; rfl⟩

theorem KeepsScopes.refl (table : SymbolTable) : table.KeepsScopes table :=
  keepsScopes_of_scope? rfl fun he => he

theorem KeepsScopes.trans (h : table.KeepsScopes table') (h' : table'.KeepsScopes table'') : table.KeepsScopes table'' := by
  refine ⟨h'.generation.trans h.generation, fun {id entry} he => ?_, fun he hls => ?_⟩ <;>
  obtain ⟨entry', he', henc, hk⟩ := h.scope he
  · obtain ⟨entry'', he'', henc', hk'⟩ := h'.scope he'
    exact ⟨entry'', he'', henc'.trans henc, hk'.trans hk⟩
  · exact (h'.name he' hls).trans (h.name he he')

/-- A scope is found in the table of its generation, at its place. -/
theorem scope?_eq_some {entry : Scope} (h : table.scope? scope = some entry) :
    scope.generation = table.generation ∧ table.scopes[scope.index]? = some entry := by
  unfold scope? at h
  split at h
  · next hgen => exact ⟨hgen, h⟩
  · nomatch h

/-- Asking for a scope succeeds exactly if there is one. -/
theorem scope_eq_ok {entry : Scope} : table.scope scope = .ok entry ↔ table.scope? scope = some entry := by
  unfold SymbolTable.scope
  cases table.scope? scope <;> simp

/-- Tables with the same scopes find the same. -/
theorem scope?_of_scopes (hgen : table'.generation = table.generation) (hscs : table'.scopes = table.scopes) :
    table'.scope? = table.scope? := by
  funext id
  rw [scope?, scope?, hgen, hscs]

/-- A change of one scope is seen at that scope alone. -/
theorem scope?_of_modify {index : Nat} {change : Scope → Scope} (hgen : table'.generation = table.generation)
    (hscs : table'.scopes = table.scopes.modify index change) (other : ScopeId) :
    table'.scope? other = if index = other.index then (table.scope? other).map change else table.scope? other := by
  rw [scope?, scope?, hgen, hscs]
  by_cases hsm : other.generation = table.generation
  · rw [if_pos hsm, if_pos hsm, Array.getElem?_modify]
  · rw [if_neg hsm, if_neg hsm, Option.map_none, ite_self]

theorem keepsScopes_of_scopes (hgen : table'.generation = table.generation)
    (hscs : table'.scopes = table.scopes) : table.KeepsScopes table' :=
  keepsScopes_of_scope? hgen fun he => scope?_of_scopes hgen hscs ▸ he

/-- A further scope leaves the others. -/
theorem keepsScopes_pushScope (table : SymbolTable) (entry : Scope) :
    table.KeepsScopes { table with scopes := table.scopes.push entry } := by
  refine keepsScopes_of_scope? rfl fun he => ?_
  obtain ⟨hgen, hget⟩ := scope?_eq_some he
  have hlt := (Array.getElem?_eq_some_iff.mp hget).1
  rw [scope?, if_pos hgen, Array.getElem?_push, if_neg (by omega), hget]

/-- A change that keeps the outline of a scope keeps the scopes. -/
theorem keepsScopes_of_modify (index : Nat) (change : Scope → Scope) (hgen : table'.generation = table.generation)
    (hscs : table'.scopes = table.scopes.modify index change) (hnm : ∀ entry, (change entry).name = entry.name)
    (h : ∀ entry, table.scopes[index]? = some entry →
      (change entry).enclosing = entry.enclosing ∧ (change entry).kind.outline = entry.kind.outline) :
    table.KeepsScopes table' := by
  refine ⟨hgen, fun {id entry} he => ?_, fun {id entry entry'} he he' => ?_⟩
  · rw [scope?_of_modify hgen hscs, he]
    split
    · next hix => exact ⟨change entry, rfl, h entry (hix ▸ (scope?_eq_some he).2)⟩
    · exact ⟨entry, rfl, rfl, rfl⟩
  · rw [scope?_of_modify hgen hscs, he] at he'
    split at he' <;> cases he'
    · exact hnm entry
    · rfl

/-! ## Steps -/

/-- Defining a symbol keeps the scopes. -/
theorem keepsScopes_define (h : define scope symbol table = .ok id table') : table.KeepsScopes table' := by
  obtain ⟨home, storage, _, _, rfl, rfl⟩ := define_eq_ok h
  exact keepsScopes_of_modify storage.index
    (fun entry => { entry with symbols := fileUnder entry.symbols (Text.lowerCase symbol.name) _ }) rfl rfl
    (fun _ => rfl) fun _ _ => ⟨rfl, rfl⟩

/-- A symbol without a scope keeps the scopes. -/
theorem keepsScopes_addDetached (h : addDetached symbol table = .ok id table') : table.KeepsScopes table' := by
  obtain ⟨_, rfl⟩ := addDetached_eq_ok h
  exact keepsScopes_of_scopes rfl rfl

/-- A change of a symbol keeps the scopes. -/
theorem keepsScopes_updateSymbol {u : Unit} (h : updateSymbol id change table = .ok u table') : table.KeepsScopes table' := by
  obtain ⟨_, rfl⟩ := updateSymbol_eq_ok h
  exact keepsScopes_of_scopes rfl rfl

/-- A new scope is found afterwards, and the others are kept. -/
theorem addScope_keeps {name : String} (h : addScope name enclosing kind table = .ok scope table') :
    table.KeepsScopes table' ∧ table'.scope? scope = some { name, enclosing := some enclosing, kind } ∧
      table'.symbols = table.symbols := by
  obtain ⟨rfl, rfl⟩ := addScope_eq_ok h
  refine ⟨keepsScopes_pushScope table _, ?_, rfl⟩
  simp [scope?, pushScope]

/-- Looking for a namespace keeps the scopes and leaves the symbols. -/
theorem namespaceOf_keeps (h : namespaceOf path table = .ok scope table') :
    table.KeepsScopes table' ∧ table'.symbols = table.symbols := by
  obtain ⟨_, rfl⟩ | ⟨_, _, rfl⟩ := namespaceOf_eq_ok h
  · exact ⟨.refl _, rfl⟩
  · exact ⟨(keepsScopes_pushScope table _).trans (keepsScopes_of_scopes rfl rfl), rfl⟩

/-- A namespace that was asked for is found from then on. -/
theorem findNamespace?_namespaceOf (h : namespaceOf path table = .ok scope table') :
    table'.findNamespace? path = some scope := by
  obtain ⟨hf, rfl⟩ | ⟨_, _, rfl⟩ := namespaceOf_eq_ok h
  · exact hf
  · simp [findNamespace?]

/-- A `use` becomes the newest symbol and is noted in its block. -/
theorem defineUse_eq_ok (h : defineUse block symbol table = .ok id table') :
    id = ⟨table.generation, table.symbols.size⟩ ∧ ∃ entry storage uses, table.scope? block = some entry ∧
      entry.kind = .namespaceBlock storage uses ∧
      table' = { table with
        symbols := table.symbols.push { symbol with scope := some block }
        scopes := table.scopes.modify block.index fun entry =>
          { entry with kind := .namespaceBlock storage (fileUnder uses (Text.lowerCase symbol.name) id) } } := by
  simp only [defineUse, Step.bind_eq_ok, Step.query_eq_ok] at h
  obtain ⟨added, _, hadded, entry, _, ⟨he, rfl⟩, h⟩ := h
  obtain ⟨rfl, rfl⟩ := addDetached_eq_ok hadded
  cases hk : entry.kind with
  | namespaceBlock storage uses =>
    simp only [hk, Step.bind_eq_ok, Step.pure_eq_ok] at h
    obtain ⟨_, _, hup, rfl, rfl⟩ := h
    rw [updateScope_eq_ok hup]
    exact ⟨rfl, entry, storage, uses, scope_eq_ok.mp he, hk, rfl⟩
  | _ =>
    simp only [hk] at h
    exact absurd h Step.throw_ne_ok

/-- A `use` keeps the scopes. -/
theorem keepsScopes_defineUse (h : defineUse block symbol table = .ok id table') : table.KeepsScopes table' := by
  obtain ⟨_, entry, storage, uses, he, hk, rfl⟩ := defineUse_eq_ok h
  refine keepsScopes_of_modify block.index
    (fun entry => { entry with kind := .namespaceBlock storage (fileUnder uses (Text.lowerCase symbol.name) id) })
    rfl rfl (fun _ => rfl) ?_
  intro other hoth
  refine ⟨rfl, ?_⟩
  rw [(scope?_eq_some he).2] at hoth
  cases hoth
  rw [hk]
  rfl

/-! ## Tables that grow -/

/-- One table comes from another by declaring. -/
structure Grows (table table' : SymbolTable) : Prop where
  scopes : table.KeepsScopes table'
  sound : table.Sound → table'.Sound

theorem Grows.refl (table : SymbolTable) : table.Grows table := ⟨.refl table, id⟩

theorem Grows.trans (h : table.Grows table') (h' : table'.Grows table'') : table.Grows table'' :=
  ⟨h.scopes.trans h'.scopes, fun hsd => h'.sound (h.sound hsd)⟩

/-- A table grows by a symbol that it admits. -/
theorem grows_define (h : define scope symbol table = .ok id table')
    (hsym : ∀ home, table.Admits table.symbols.size { symbol with scope := home }) : table.Grows table' :=
  ⟨keepsScopes_define h, fun hsd => (hsd.define hsym h).1⟩

theorem grows_addDetached (h : addDetached symbol table = .ok id table')
    (hsym : table.Admits table.symbols.size symbol) : table.Grows table' := by
  refine ⟨keepsScopes_addDetached h, fun hsd => ?_⟩
  rw [(addDetached_eq_ok h).2]
  exact hsd.pushSymbol hsym

/-- A table grows by a `use`, which is no type and no method. -/
theorem grows_defineUse (h : defineUse block symbol table = .ok id table')
    (htp : symbol.type? = none) (hmth : symbol.method? = none) : table.Grows table' := by
  refine ⟨keepsScopes_defineUse h, fun hsd => ?_⟩
  obtain ⟨_, _, _, _, _, _, rfl⟩ := defineUse_eq_ok h
  have hadm : table.Admits table.symbols.size { symbol with scope := some block } := admits_of_none htp hmth
  exact (hsd.pushSymbol hadm).of_symbols rfl rfl

theorem grows_addScope {name : String} (h : addScope name enclosing kind table = .ok scope table') : table.Grows table' :=
  ⟨(addScope_keeps h).1, fun hsd => hsd.of_symbols (addScope_keeps h).1.generation (addScope_keeps h).2.2⟩

theorem grows_namespaceOf (h : namespaceOf path table = .ok scope table') : table.Grows table' :=
  ⟨(namespaceOf_keeps h).1, fun hsd => hsd.of_symbols (namespaceOf_keeps h).1.generation (namespaceOf_keeps h).2⟩

/-- A change of a symbol that keeps the table sound makes it grow. -/
theorem grows_updateSymbol {u : Unit} (h : updateSymbol id change table = .ok u table')
    (hsd : table.Sound → ({ table with symbols := table.symbols.modify id.index change } : SymbolTable).Sound) :
    table.Grows table' := by
  refine ⟨keepsScopes_updateSymbol h, fun hold => ?_⟩
  rw [(updateSymbol_eq_ok h).2]
  exact hsd hold

end SymbolTable

end SoftTyping
