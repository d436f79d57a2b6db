import SoftTyping.Proofs.Analysis.Operations

/-!
# Tables that libraries and passes build

A table is built by declaring libraries and then asking any operations of the passes, refused or not (`Built`). Its lattice has
no circles (`Built.layered`), and the erroneous type lies above no other (`Built.not_hasParent`).
-/

namespace SoftTyping.SymbolTable

variable {table table' : SymbolTable} {id : SymbolId}

/-- The tables that libraries and passes build. -/
inductive Built : SymbolTable → Prop where
  /-- Libraries are declared; any of their declarations may be refused. -/
  | libraries (generation : Generation) (declarations : List BuiltinDeclaration) :
    Built (registered generation declarations)
  /-- Names are declared and bound. -/
  | operation {table : SymbolTable} (h : Built table) (request : OperationRequest)
    (hrequest : request.operation.IsOfPasses) : Built (table.operate request)
  /-- A variable has a new version. -/
  | version {table : SymbolTable} (h : Built table) (id : SymbolId) (typeVar : TypeVarId) :
    Built ((updateSymbol id (·.mapVariable fun data => { data with versions := data.versions ++ [typeVar] })).leaves table)

theorem Built.keeps {P : SymbolTable → Prop} (h : table.Built)
    (hlib : ∀ generation declarations, P (registered generation declarations))
    (hamended : ∀ {table table'}, table.Amended table' → P table → P table') : P table := by
  induction h with
  | libraries generation declarations => exact hlib generation declarations
  | @operation table _ request hrequest ih =>
    exact hamended (hrequest.amended_leaves request.rules { request.surroundings with table }) ih
  | version _ id typeVar ih =>
    refine hamended (leads_updateSymbol fun symbol _ => ?_) ih
    obtain ⟨name, position, scope, data⟩ := symbol
    cases data <;> exact ⟨⟨rfl, rfl, rfl⟩, rfl⟩

theorem built_withLibraries {generation : Generation} {libraries : List Library}
    (h : withLibraries generation libraries = .ok table) : table.Built :=
  eq_registered h ▸ .libraries generation _

theorem Built.layered (h : table.Built) : table.Layered :=
  h.keeps (fun _ _ => (isBuiltinOnly_registered _ _).sound.layered) fun hamended => hamended.2.layered

/-! ## The erroneous type -/

theorem Edits.exists_fileOf (h : table.Edits table') (storage : ScopeId) (key : String) :
    ∃ added, table'.fileOf storage key = table.fileOf storage key ++ added := by
  obtain hfls | ⟨_, _, _, _, hdef⟩ | ⟨_, _, _, hdef⟩ := h.files
  · exact ⟨[], by rw [hfls.files, List.append_nil]⟩
  · rcases fileOf_define hdef storage key with hfile | ⟨hfile, _⟩
    · exact ⟨[], by rw [hfile, List.append_nil]⟩
    · exact ⟨[_], hfile⟩
  · exact ⟨[], by rw [fileOf_defineUse hdef, List.append_nil]⟩

theorem Edits.mem_fileOf (h : table.Edits table') {storage : ScopeId} {key : String} (hid : id ∈ table'.fileOf storage key) :
    id ∈ table.fileOf storage key ∨ id = ⟨table.generation, table.symbols.size⟩ := by
  obtain hfls | ⟨_, _, _, _, hdef⟩ | ⟨_, _, _, hdef⟩ := h.files
  · exact .inl (hfls.files storage key ▸ hid)
  · obtain hold | ⟨rfl, _⟩ := mem_fileOf_define hdef hid
    · exact .inl hold
    · obtain ⟨_, _, _, _, rfl, _⟩ := define_eq_ok hdef
      exact .inr rfl
  · exact .inl (fileOf_defineUse hdef ▸ hid)

/-- The erroneous type is kept under no name, and no type names it as a parent. -/
structure Apart (table : SymbolTable) : Prop where
  erroneous : ∃ symbol, table.symbol? table.erroneousType = some symbol
  unfiled : ∀ storage key, table.erroneousType ∉ table.fileOf storage key
  parents : ∀ {id data}, (id, data) ∈ table.types → table.erroneousType ∉ data.parents

theorem IsBuiltinOnly.apart (h : table.IsBuiltinOnly) : table.Apart := by
  refine ⟨?_, h.unfiled, fun hmem => ?_⟩
  · obtain ⟨symbol, hsym, _⟩ := h.sound.erroneous
    exact ⟨symbol, (if_pos rfl).trans hsym⟩
  · obtain ⟨symbol, hsym, hdt⟩ := mem_types.mp hmem
    exact (h.types (symbol?_eq_some hsym).2 hdt).2.2

theorem Edited.apart (hedited : table.Edited table') (h : table.Apart) : table'.erroneousType = table.erroneousType ∧
    (∃ symbol, table'.symbol? table'.erroneousType = some symbol) ∧
      ∀ storage key, table'.erroneousType ∉ table'.fileOf storage key := by
  induction hedited with
  | refl => exact ⟨rfl, h.erroneous, h.unfiled⟩
  | tail _ heds ih =>
    obtain ⟨hsm, ⟨symbol, hsym⟩, hunfiled⟩ := ih
    obtain ⟨symbol', hsym', _⟩ := heds.retains hsym
    rw [← hsm, erroneousType, heds.keepsScopes.generation]
    refine ⟨rfl, ⟨symbol', hsym'⟩, fun storage key hid => ?_⟩
    obtain hold | hnew := heds.mem_fileOf hid
    · exact hunfiled storage key hold
    · exact Nat.ne_of_lt (lt_size_of_symbol? hsym) (congrArg SymbolId.index hnew)

theorem Built.apart (h : table.Built) : table.Apart := by
  refine h.keeps (fun _ _ => (isBuiltinOnly_registered _ _).apart) fun hamended h => ?_
  obtain ⟨hsm, herr, hunfiled⟩ := hamended.1.apart h
  refine ⟨herr, hunfiled, fun hmem => ?_⟩
  rw [hsm]
  rcases hamended.2.gained hmem with hold | ⟨_, hnil⟩
  · exact h.parents hold
  · rw [hnil]
    nofun

/-- No type lies directly below the erroneous type. -/
theorem Built.not_hasParent (h : table.Built) : ¬ table.HasParent id table.erroneousType := by
  rintro ⟨data, _, hmem, _, hprt | ⟨_, _, hmixed, _⟩⟩
  · exact h.apart.parents hmem hprt
  · obtain ⟨_, _, _, _, storage, hfile⟩ := coreType?_eq_some hmixed
    exact h.apart.unfiled storage _ hfile

end SoftTyping.SymbolTable
