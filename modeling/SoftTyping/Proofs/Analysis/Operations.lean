import SoftTyping.Analysis.Declarations
import SoftTyping.Analysis.References
import SoftTyping.Proofs.Lattice
import SoftTyping.Proofs.SymbolTable.Libraries

/-!
# Tables under any operations

The built-in libraries, the pass that declares names and the pass that binds them work on a table by operations, each of which
may be refused half-way. Main statement: whatever operations have been asked of a table, in any order and on any trees, the
table is in order (`represented_operations`). The passes add no types but classes, which have no parents (`GainsClasses`).
-/

namespace SoftTyping

open Step SymbolTable

/-- A symbol is no type, or a class without parents. -/
def Symbol.IsTopmost (symbol : Symbol) : Prop :=
  ∀ data, symbol.type? = some data → data.kind = .classType ∧ data.parents = []

theorem Symbol.isTopmost_of_none {symbol : Symbol} (h : symbol.type? = none) : symbol.IsTopmost := by
  intro data hdt
  rw [h] at hdt
  nomatch hdt

namespace SymbolTable

variable {table table' : SymbolTable} {scope block outer : ScopeId} {symbol : Symbol} {id : SymbolId}
  {R : SymbolTable → SymbolTable → Prop} {change : Symbol → Symbol}

theorem isOrder_edited : IsOrder Edited := ⟨fun _ => .refl, .trans⟩

/-- One table has the types of another, and beyond these only classes without parents. -/
structure GainsClasses (table table' : SymbolTable) : Prop where
  kept : ∀ {entry}, entry ∈ table.types → entry ∈ table'.types
  gained : ∀ {entry}, entry ∈ table'.types → entry ∈ table.types ∨ entry.2.kind = .classType ∧ entry.2.parents = []

theorem GainsClasses.layered (h : table.GainsClasses table') (hlay : table.Layered) : table'.Layered := by
  refine ⟨fun hmem hk => ?_, fun {id data} hmem parent hprt => ?_⟩ <;> rcases h.gained hmem with hold | ⟨_, hnil⟩
  · exact hlay.classes hold hk
  · exact hnil
  · obtain ⟨hlt, symbol, parentData, hsym, hdt, hk⟩ := hlay.parents hold parent hprt
    have he : (⟨table.generation, parent.index⟩, parentData) ∈ table.types :=
      mem_types.mpr ⟨symbol, (if_pos rfl).trans hsym, hdt⟩
    obtain ⟨symbol', hsym', hdt'⟩ := mem_types.mp (h.kept he)
    exact ⟨hlt, symbol', parentData, (symbol?_eq_some hsym').2, hdt', hk⟩
  · rw [hnil] at hprt
    nomatch hprt

theorem gainsClasses_of_symbol? (h : table'.symbol? = table.symbol?) : table.GainsClasses table' := by
  have hsm : ∀ entry, entry ∈ table'.types ↔ entry ∈ table.types := fun ⟨id, data⟩ => by rw [mem_types, mem_types, h]
  exact ⟨(hsm _).mpr, fun hmem => .inl ((hsm _).mp hmem)⟩

theorem gainsClasses_of_push (hgen : table'.generation = table.generation)
    (hsyms : table'.symbols = table.symbols.push symbol) (h : symbol.IsTopmost) : table.GainsClasses table' := by
  have hlookup := symbol?_of_push hgen hsyms
  refine ⟨fun {entry} hmem => ?_, fun {entry} hmem => ?_⟩ <;> obtain ⟨found, hf, hdt⟩ := mem_types.mp hmem
  · refine mem_types.mpr ⟨found, ?_, hdt⟩
    rw [hlookup, if_neg, hf]
    intro heq
    have hget := (symbol?_eq_some hf).2
    rw [heq, Array.getElem?_eq_none (Nat.le_refl _)] at hget
    nomatch hget
  · rw [hlookup] at hf
    split at hf
    · cases hf
      exact .inr (h entry.2 hdt)
    · exact .inl (mem_types.mpr ⟨found, hf, hdt⟩)

theorem gainsClasses_updateSymbol {u : Unit} (hup : updateSymbol id change table = .ok u table')
    (h : ∀ symbol, table.symbol? id = some symbol → (change symbol).type? = symbol.type?) : table.GainsClasses table' := by
  have hsm : ∀ other, (table'.symbol? other).bind Symbol.type? = (table.symbol? other).bind Symbol.type? := by
    intro other
    rw [symbol?_updateSymbol hup]
    split
    · next heq =>
      subst heq
      cases hsym : table.symbol? other with
      | none => rfl
      | some symbol => exact h symbol hsym
    · rfl
  have hmem : ∀ entry, entry ∈ table'.types ↔ entry ∈ table.types := fun ⟨other, data⟩ => by
    rw [mem_types, mem_types, ← Option.bind_eq_some_iff, ← Option.bind_eq_some_iff, hsm]
  exact ⟨(hmem _).mpr, fun he => .inl ((hmem _).mp he)⟩

/-- One table comes from another by edits that add no types but classes without parents. -/
def Amended (table table' : SymbolTable) : Prop := table.Edited table' ∧ table.GainsClasses table'

theorem isOrder_amended : IsOrder Amended where
  refl := fun _ => ⟨.refl, fun h => h, .inl⟩
  trans := fun ⟨hfst, htps⟩ ⟨hsnd, htps'⟩ => ⟨hfst.trans hsnd, fun h => htps'.kept (htps.kept h), fun h =>
    (htps'.gained h).elim htps.gained .inr⟩

/-! ## Built-in declarations -/

theorem leads_declare (declaration : BuiltinDeclaration) : Leads Edited (declare declaration) table := by
  have hup : ∀ {table : SymbolTable} {id : SymbolId} {change : Symbol → Symbol},
      (∀ symbol, Retains symbol (change symbol)) → Leads Edited (updateSymbol id change) table := fun h =>
    leads_updateSymbol_of isOrder_edited fun _ _ hup => .single (.updateSymbol (fun symbol _ => h symbol) hup)
  refine leads_declare_of isOrder_edited (fun hnew => ?_) (fun _ _ => hup fun symbol => .mapType symbol _)
    (fun _ => hup fun symbol => .mapMethod symbol _) declaration
  exact leads_define_of isOrder_edited (fun _ _ hdef => .single (.define hnew.allows hdef)) fun _ => .single (.push _)

/-! ## Changes of the passes -/

theorem leads_addDetached (h : symbol.IsTopmost) : Leads Amended (addDetached symbol) table :=
  ⟨.single (.push symbol), gainsClasses_of_push rfl rfl h⟩

theorem leads_namespaceOf (path : String) : Leads Amended (namespaceOf path) table := by
  refine .of_result (fun storage table' h => ⟨.single (.namespaceOf h), gainsClasses_of_symbol? ?_⟩) nofun
  exact symbol?_of_symbols (namespaceOf_keeps h).1.generation (namespaceOf_keeps h).2

theorem leads_updateSymbol
    (h : ∀ symbol, table.symbol? id = some symbol → Retains symbol (change symbol) ∧ (change symbol).type? = symbol.type?) :
    Leads Amended (updateSymbol id change) table :=
  leads_updateSymbol_of isOrder_amended fun _ _ hup =>
    ⟨.single (.updateSymbol (fun symbol hsym => (h symbol hsym).1) hup),
      gainsClasses_updateSymbol hup fun symbol hsym => (h symbol hsym).2⟩

theorem leads_mapMethod (id : SymbolId) (change : MethodData → MethodData) :
    Leads Amended (updateSymbol id (·.mapMethod change)) table := by
  refine leads_updateSymbol fun symbol _ => ⟨.mapMethod symbol _, ?_⟩
  obtain ⟨name, position, scope, data⟩ := symbol
  cases data <;> rfl

theorem leads_addScope {name : String} {kind : ScopeKind}
    (h : ∀ inner table', addScope name outer kind table = .ok inner table' → table.Edits table') :
    Leads Amended (addScope name outer kind) table := by
  refine .of_result (fun inner table' hadd => ⟨.single (h inner table' hadd), ?_⟩) fun fault table' hadd => ?_
  · exact gainsClasses_of_symbol? (symbol?_of_symbols (addScope_keeps hadd).1.generation (addScope_keeps hadd).2.2)
  · rcases bind_eq_error.mp hadd with hrfu | ⟨_, _, _, hpu⟩
    · rw [(query_eq_error.mp hrfu).2]
      exact isOrder_amended.refl _
    · nomatch hpu

theorem leads_define (h : table.Allows scope symbol) (htopmost : symbol.IsTopmost) :
    Leads Amended (define scope symbol) table := by
  refine leads_define_of isOrder_amended (fun _ _ hdef => ⟨.single (.define h hdef), ?_⟩) fun _ =>
    ⟨.single (.push _), gainsClasses_of_push rfl rfl htopmost⟩
  obtain ⟨home, _, _, _, _, rfl⟩ := define_eq_ok hdef
  have hhomed : ({ symbol with scope := some home } : Symbol).IsTopmost := htopmost
  exact gainsClasses_of_push rfl rfl hhomed

theorem defineUse_eq_error {fault : Fault} (h : defineUse block symbol table = .error fault table') :
    table' = (table.pushSymbol { symbol with scope := some block }).2 := by
  simp only [defineUse, bind_eq_error, query_eq_error, query_eq_ok] at h
  rcases h with hadd | ⟨_, _, hadd, h⟩
  · cases hadd
  obtain ⟨rfl, rfl⟩ := addDetached_eq_ok hadd
  rcases h with ⟨_, rfl⟩ | ⟨entry, _, ⟨_, rfl⟩, h⟩
  · rfl
  cases hk : entry.kind with
  | namespaceBlock storage uses =>
    simp only [hk, bind_eq_error] at h
    rcases h with hup | ⟨_, _, _, hpure⟩
    · exact (updateScope_eq_error hup).2
    · cases hpure
  | _ =>
    simp only [hk] at h
    cases h
    rfl

theorem leads_defineUse (h : symbol.IsTopmost) : Leads Amended (defineUse block symbol) table := by
  refine .of_result (fun id table' hdef => ⟨.single (.defineUse hdef), ?_⟩) fun fault table' hdef => ?_
  · obtain ⟨_, _, _, _, _, _, rfl⟩ := defineUse_eq_ok hdef
    exact gainsClasses_of_push rfl rfl h
  · exact defineUse_eq_error hdef ▸ ⟨.single (.push _), gainsClasses_of_push rfl rfl h⟩

theorem leads_initialise (change : OrderedMap SymbolId Initialisation → OrderedMap SymbolId Initialisation) :
    Leads Amended (updateScope scope fun entry => { entry with initialised := change entry.initialised }) table :=
  Leads.query_bind isOrder_amended fun _ _ => ⟨.single (.initialise scope change), gainsClasses_of_symbol? rfl⟩

end SymbolTable

namespace Workspace

variable {workspace : Workspace} {α β : Type} {second : α → Step Workspace β}

/-- The table of one workspace comes from that of another by edits that add no types but classes without parents. -/
def Amended (before after : Workspace) : Prop := before.table.Amended after.table

theorem isOrder_amended : Step.IsOrder Amended :=
  ⟨fun w => SymbolTable.isOrder_amended.refl w.table, SymbolTable.isOrder_amended.trans⟩

theorem leads_onTable {step : Step SymbolTable α} (h : Step.Leads SymbolTable.Amended step workspace.table) :
    Leads Amended (onTable step) workspace :=
  Leads.onPart h fun _ htb => htb

theorem leads_askTable_bind {question : SymbolTable → Except Fault α}
    (h : ∀ a, question workspace.table = .ok a → Leads Amended (second a) workspace) :
    Leads Amended (askTable question >>= second) workspace :=
  Leads.query_bind isOrder_amended h

theorem leads_askTree_bind {question : Tree → Except Fault α}
    (h : ∀ a, Leads Amended (second a) workspace) : Leads Amended (askTree question >>= second) workspace :=
  Leads.query_bind isOrder_amended fun a _ => h a

theorem leads_updateNode (id : NodeId) (change : Node → Node) : Leads Amended (updateNode id change) workspace :=
  leads_askTree_bind fun _ => isOrder_amended.refl _

theorem leads_report (issue : Issue) : Leads Amended (report issue) workspace := isOrder_amended.refl _

theorem leads_then {first : Step Workspace α} (h : Leads Amended first workspace)
    (hsnd : ∀ a w, Leads Amended (second a) w) : Leads Amended (first >>= second) workspace :=
  Leads.bind isOrder_amended h fun a t _ => hsnd a t

theorem leads_pure (a : α) : Leads Amended (pure a) workspace := isOrder_amended.refl _

/-! ## Declarations -/

theorem leads_place (id : NodeId) (scope : ScopeId) : Leads Amended (place id scope) workspace :=
  leads_askTable_bind fun _ _ => leads_updateNode id _

theorem leads_declareFor {id : NodeId} {scope : ScopeId} {symbol : Symbol} (h : workspace.table.Allows scope symbol)
    (htopmost : symbol.IsTopmost) : Leads Amended (declareFor id scope symbol) workspace :=
  leads_then (leads_onTable (SymbolTable.leads_define h htopmost)) fun _ _ => leads_then (leads_updateNode id _)
    fun _ _ => leads_pure _

theorem leads_openNamespace (id : NodeId) : Leads Amended (openNamespace id) workspace := by
  refine leads_askTree_bind fun node => ?_
  refine Step.Leads.bind isOrder_amended (leads_onTable (SymbolTable.leads_namespaceOf node.text)) fun storage after haf => ?_
  obtain ⟨table, htb, rfl⟩ := onPart_eq_ok.mp haf
  refine leads_then (leads_onTable (SymbolTable.leads_addScope fun _ _ hadd => ?_)) fun _ _ =>
    leads_then (leads_updateNode id _) fun _ _ => leads_pure _
  exact .openNamespace (SymbolTable.findNamespace?_namespaceOf htb) hadd

theorem leads_declareAlias (id : NodeId) (block : ScopeId) : Leads Amended (declareAlias id block) workspace := by
  refine leads_askTree_bind fun node => ?_
  have hdef : ∀ (symbol : Symbol) (w : Workspace), symbol.type? = none → Leads Amended (do
      let declared ← onTable (defineUse block symbol)
      annotate id block declared
      pure declared) w := fun _ _ hno =>
    leads_then (leads_onTable (SymbolTable.leads_defineUse (Symbol.isTopmost_of_none hno))) fun _ _ =>
      leads_then (leads_updateNode id _) fun _ _ => leads_pure _
  split
  · refine leads_askTree_bind fun target => Leads.get_bind ?_
    split
    · exact leads_askTree_bind fun _ => leads_then (leads_pure _) fun _ _ => hdef _ _ rfl
    · exact leads_then (leads_pure _) fun _ _ => hdef _ _ rfl
  · exact Leads.throw isOrder_amended _

theorem leads_declareConstant (id : NodeId) (scope : ScopeId) : Leads Amended (declareConstant id scope) workspace :=
  leads_askTree_bind fun _ => Leads.get_bind
    (leads_declareFor (allows_of_none rfl) (Symbol.isTopmost_of_none rfl))

theorem leads_declareClass (id : NodeId) (scope : ScopeId) : Leads Amended (declareClass id scope) workspace :=
  leads_askTree_bind fun _ => leads_askTable_bind fun _ _ => leads_declareFor (allows_of_none rfl) fun data hdt => by
    cases hdt
    exact ⟨rfl, rfl⟩

theorem leads_declareFunction (id : NodeId) (scope : ScopeId) : Leads Amended (declareFunction id scope) workspace := by
  refine leads_askTree_bind fun node => Leads.get_bind ?_
  refine leads_then (leads_onTable (SymbolTable.leads_define (SymbolTable.allows_of_none rfl) (Symbol.isTopmost_of_none rfl)))
    fun method _ => ?_
  refine leads_then (leads_onTable (SymbolTable.leads_addScope fun _ _ => .addScope (.inr ⟨method, rfl⟩))) fun inner _ => ?_
  refine leads_then (leads_onTable (SymbolTable.leads_mapMethod _ _)) fun _ _ => ?_
  exact leads_then (leads_updateNode id _) fun _ _ => leads_pure _

theorem leads_declareParameter (id : NodeId) (scope : ScopeId) : Leads Amended (declareParameter id scope) workspace := by
  refine leads_askTable_bind fun entry _ => ?_
  split
  · refine leads_then (leads_pure _) fun method _ => leads_askTree_bind fun node =>
      leads_then (leads_declareFor ?_ (Symbol.isTopmost_of_none rfl)) fun _ _ => ?_
    · intro data hdt
      cases hdt
      exact .inl rfl
    · exact leads_then (leads_onTable (SymbolTable.leads_mapMethod _ _)) fun _ _ =>
        leads_pure _
  · exact Leads.throw isOrder_amended _

theorem leads_openBranch (id : NodeId) (enclosing : ScopeId) : Leads Amended (openBranch id enclosing) workspace :=
  leads_then (leads_onTable (SymbolTable.leads_addScope fun _ _ => .addScope (.inl rfl))) fun _ _ =>
    leads_then (leads_updateNode id _) fun _ _ => leads_pure _

theorem leads_declareVariable (id : NodeId) : Leads Amended (declareVariable id) workspace := by
  refine leads_askTree_bind fun _ => leads_askTree_bind fun node => leads_askTable_bind fun owner _ =>
    leads_askTable_bind fun existing hexisting => ?_
  split
  · exact leads_then (leads_pure _) fun _ _ => leads_then (leads_updateNode id _) fun _ _ => leads_pure _
  · refine leads_then (leads_onTable (SymbolTable.leads_define ?_ (Symbol.isTopmost_of_none rfl))) fun _ _ =>
      leads_then (leads_updateNode id _) fun _ _ => leads_pure _
    exact fun _ _ => .inr (.inr hexisting)

/-! ## References -/

theorem leads_reportRepeated (declared : SymbolId) (first : Option SymbolId) :
    Leads Amended (reportRepeated declared first) workspace := by
  unfold reportRepeated
  split
  · exact leads_pure _
  · exact leads_askTable_bind fun _ _ => leads_askTable_bind fun _ _ => leads_report _

theorem leads_bindAlias (rules : NameRules) (id : NodeId) : Leads Amended (bindAlias rules id) workspace := by
  refine leads_askTree_bind fun node => leads_askTree_bind fun use => leads_askTree_bind fun block =>
    leads_askTable_bind fun symbol hsym => ?_
  cases ht : symbol.aliasTarget? with
  | none => exact Leads.throw isOrder_amended _
  | some target =>
    refine leads_askTable_bind fun found _ => ?_
    cases found.symbol with
    | none => exact leads_then (leads_report _) fun _ _ => leads_pure _
    | some resolved =>
      refine leads_then (leads_onTable (SymbolTable.leads_updateSymbol fun other hoth => ?_)) fun _ _ => leads_pure _
      cases (SymbolTable.symbol_eq_ok.mp hsym).symm.trans hoth
      obtain ⟨name, position, scope, data⟩ := symbol
      cases data <;> cases ht
      exact ⟨⟨rfl, rfl, rfl⟩, rfl⟩

theorem leads_checkAliasUnique (id : NodeId) : Leads Amended (checkAliasUnique id) workspace :=
  leads_askTree_bind fun _ => leads_askTree_bind fun _ => leads_askTable_bind fun _ _ => leads_askTable_bind fun _ _ =>
    leads_reportRepeated _ _

theorem leads_checkUnique (id : NodeId) : Leads Amended (checkUnique id) workspace :=
  leads_askTree_bind fun _ => leads_askTable_bind fun _ _ => Leads.query_bind isOrder_amended fun _ _ =>
    leads_askTable_bind fun _ _ => leads_reportRepeated _ _

theorem leads_bindNode (rules : NameRules) (id : NodeId) (kind : IdentifierKind) (failure : IssueKind) :
    Leads Amended (bindNode rules id kind failure) workspace := by
  refine leads_askTree_bind fun node => leads_askTree_bind fun scope => leads_askTable_bind fun found _ =>
    leads_then ?_ fun _ _ => leads_then ?_ fun symbol _ => leads_then (leads_updateNode id _) fun _ _ => leads_pure _
  · unfold reportForwardAlias
    split
    · split
      · exact leads_askTable_bind fun _ _ => leads_report _
      · exact leads_pure _
    · exact leads_pure _
  · unfold foundSymbol
    split
    · exact leads_pure _
    · exact leads_then (leads_onTable (SymbolTable.leads_addDetached (Symbol.isTopmost_of_none rfl))) fun _ _ =>
        leads_then (leads_report _) fun _ _ => leads_pure _

theorem leads_bindHint (rules : NameRules) (id : NodeId) : Step.Leads Amended (bindHint rules id) workspace := by
  refine leads_askTree_bind fun parameter => Step.Leads.get_bind ?_
  split
  · exact leads_pure _
  · refine leads_then (leads_bindNode rules _ _ _) fun resolved _ => leads_askTable_bind fun symbol _ => Step.Leads.get_bind ?_
    refine leads_then (leads_onTable (SymbolTable.leads_updateSymbol fun symbol _ => ?_)) fun _ _ => leads_pure _
    obtain ⟨name, position, scope, data⟩ := symbol
    cases data <;> exact ⟨⟨rfl, rfl, rfl⟩, rfl⟩

theorem leads_checkDeclaredBefore (id : NodeId) : Leads Amended (checkDeclaredBefore id) workspace := by
  refine leads_askTree_bind fun node => leads_askTree_bind fun referred => leads_askTable_bind fun builtin _ => ?_
  split
  · exact leads_pure _
  · refine leads_askTable_bind fun symbol _ => ?_
    split
    · exact leads_report _
    · exact leads_pure _

theorem leads_markWritten (id : NodeId) : Leads Amended (markWritten id) workspace :=
  leads_askTree_bind fun symbol => leads_askTree_bind fun _ =>
    leads_onTable (SymbolTable.leads_initialise fun initialised => initialised.insert symbol .fully)

theorem leads_checkWritten (id : NodeId) : Leads Amended (checkWritten id) workspace := by
  refine leads_askTree_bind fun node => leads_askTree_bind fun symbol => leads_askTree_bind fun scope =>
    leads_askTable_bind fun found _ => ?_
  split
  · exact leads_pure _
  · exact leads_report _

theorem leads_mergeBranches (target : ScopeId) (branches : List ScopeId) (exhaustive : Bool) :
    Leads Amended (mergeBranches target branches exhaustive) workspace :=
  leads_onTable (Step.Leads.query_bind SymbolTable.isOrder_amended fun merged _ =>
    leads_initialise fun initialised => absorb initialised merged)

theorem leads_closeBody (function : NodeId) : Leads Amended (closeBody function) workspace := by
  refine leads_askTree_bind fun body => Leads.get_bind ?_
  split
  · exact leads_pure _
  · refine leads_askTree_bind fun _ => leads_askTree_bind fun _ => ?_
    exact leads_then (isOrder_amended.refl _) fun _ _ => leads_then (isOrder_amended.refl _) fun _ _ => leads_pure _

end Workspace

/-! ## Any operations -/

/-- An operation of the libraries, or of one of the two passes that work on names. -/
inductive Operation where
  | declare (declaration : BuiltinDeclaration)
  | place (id : NodeId) (scope : ScopeId)
  | openNamespace (id : NodeId)
  | declareAlias (id : NodeId) (block : ScopeId)
  | declareConstant (id : NodeId) (scope : ScopeId)
  | declareClass (id : NodeId) (scope : ScopeId)
  | declareFunction (id : NodeId) (scope : ScopeId)
  | declareParameter (id : NodeId) (scope : ScopeId)
  | openBranch (id : NodeId) (enclosing : ScopeId)
  | declareVariable (id : NodeId)
  | bindAlias (id : NodeId)
  | checkAliasUnique (id : NodeId)
  | checkUnique (id : NodeId)
  | bindVariable (id : NodeId)
  | bindConstant (id : NodeId)
  | bindFunction (id : NodeId)
  | bindType (id : NodeId)
  | bindHint (id : NodeId)
  | checkDeclaredBefore (id : NodeId)
  | markWritten (id : NodeId)
  | checkWritten (id : NodeId)
  | mergeBranches (target : ScopeId) (branches : List ScopeId) (exhaustive : Bool)
  | closeBody (function : NodeId)

namespace Operation

/-- The workspace that an operation leaves behind, whether it is refused or not. -/
def leaves (rules : NameRules) (workspace : Workspace) : Operation → Workspace
  | .declare declaration => (Workspace.onTable (SymbolTable.declare declaration)).leaves workspace
  | .place id scope => (Workspace.place id scope).leaves workspace
  | .openNamespace id => (Workspace.openNamespace id).leaves workspace
  | .declareAlias id block => (Workspace.declareAlias id block).leaves workspace
  | .declareConstant id scope => (Workspace.declareConstant id scope).leaves workspace
  | .declareClass id scope => (Workspace.declareClass id scope).leaves workspace
  | .declareFunction id scope => (Workspace.declareFunction id scope).leaves workspace
  | .declareParameter id scope => (Workspace.declareParameter id scope).leaves workspace
  | .openBranch id enclosing => (Workspace.openBranch id enclosing).leaves workspace
  | .declareVariable id => (Workspace.declareVariable id).leaves workspace
  | .bindAlias id => (Workspace.bindAlias rules id).leaves workspace
  | .checkAliasUnique id => (Workspace.checkAliasUnique id).leaves workspace
  | .checkUnique id => (Workspace.checkUnique id).leaves workspace
  | .bindVariable id => (Workspace.bindVariable rules id).leaves workspace
  | .bindConstant id => (Workspace.bindConstant rules id).leaves workspace
  | .bindFunction id => (Workspace.bindFunction rules id).leaves workspace
  | .bindType id => (Workspace.bindType rules id).leaves workspace
  | .bindHint id => (Workspace.bindHint rules id).leaves workspace
  | .checkDeclaredBefore id => (Workspace.checkDeclaredBefore id).leaves workspace
  | .markWritten id => (Workspace.markWritten id).leaves workspace
  | .checkWritten id => (Workspace.checkWritten id).leaves workspace
  | .mergeBranches target branches exhaustive => (Workspace.mergeBranches target branches exhaustive).leaves workspace
  | .closeBody function => (Workspace.closeBody function).leaves workspace

/-- An operation of the passes, and not of the libraries. -/
def IsOfPasses : Operation → Prop
  | .declare _ => False
  | _ => True

theorem IsOfPasses.amended_leaves {operation : Operation} (h : operation.IsOfPasses) (rules : NameRules)
    (workspace : Workspace) : Workspace.Amended workspace (operation.leaves rules workspace) := by
  cases operation with
  | declare declaration => nomatch h
  | place id scope => exact Workspace.leads_place id scope
  | openNamespace id => exact Workspace.leads_openNamespace id
  | declareAlias id block => exact Workspace.leads_declareAlias id block
  | declareConstant id scope => exact Workspace.leads_declareConstant id scope
  | declareClass id scope => exact Workspace.leads_declareClass id scope
  | declareFunction id scope => exact Workspace.leads_declareFunction id scope
  | declareParameter id scope => exact Workspace.leads_declareParameter id scope
  | openBranch id enclosing => exact Workspace.leads_openBranch id enclosing
  | declareVariable id => exact Workspace.leads_declareVariable id
  | bindAlias id => exact Workspace.leads_bindAlias rules id
  | checkAliasUnique id => exact Workspace.leads_checkAliasUnique id
  | checkUnique id => exact Workspace.leads_checkUnique id
  | bindVariable id | bindConstant id | bindFunction id | bindType id => exact Workspace.leads_bindNode rules id _ _
  | bindHint id => exact Workspace.leads_bindHint rules id
  | checkDeclaredBefore id => exact Workspace.leads_checkDeclaredBefore id
  | markWritten id => exact Workspace.leads_markWritten id
  | checkWritten id => exact Workspace.leads_checkWritten id
  | mergeBranches target branches exhaustive => exact Workspace.leads_mergeBranches target branches exhaustive
  | closeBody function => exact Workspace.leads_closeBody function

theorem edited_leaves (operation : Operation) (rules : NameRules) (workspace : Workspace) :
    workspace.table.Edited (operation.leaves rules workspace).table := by
  by_cases h : operation.IsOfPasses
  · exact (h.amended_leaves rules workspace).1
  · cases operation with
    | declare declaration =>
      exact Leads.onPart (R := fun before after : Workspace => before.table.Edited after.table)
        (leads_declare declaration) fun _ htb => htb
    | _ => exact absurd trivial h

end Operation

/-- An operation that is asked of a table: by which rules names are looked up, and the workspace around the table, of which
the tree is whatever it has been made. -/
structure OperationRequest where
  rules : NameRules
  surroundings : Workspace
  operation : Operation

/-- The table that an operation leaves behind. -/
def SymbolTable.operate (table : SymbolTable) (request : OperationRequest) : SymbolTable :=
  (request.operation.leaves request.rules { request.surroundings with table }).table

theorem SymbolTable.edited_foldl_operate (requests : List OperationRequest) (table : SymbolTable) :
    table.Edited (requests.foldl operate table) := by
  induction requests generalizing table with
  | nil => exact .refl
  | cons request rest ih =>
    exact .trans (request.operation.edited_leaves request.rules { request.surroundings with table })
      (ih (table.operate request))

theorem SymbolTable.represented_foldl_operate (generation : Generation) (requests : List OperationRequest) :
    (requests.foldl operate (.new generation)).Represented :=
  keeps_of_changes (edited_foldl_operate requests (.new generation)) Edits.represented (represented_new generation)

/-- Whatever operations have been asked of a table, in any order, on any trees and with any handles, refused or not: a scope
that the table did not start with stands in an older one; the declarations of a namespace block lie in the scope of a
namespace that is known by its normal path, and no two scopes of namespaces have the same path but for the case of letters;
what scopes keep is in order (`Represented`); and every question about where a scope stands has an answer. -/
theorem represented_operations (generation : Generation) (requests : List OperationRequest) :
    let table := requests.foldl SymbolTable.operate (.new generation)
    (∀ {id entry}, table.scope? id = some entry → 3 ≤ id.index → ∃ outer around, entry.enclosing = some outer ∧
        table.scope? outer = some around ∧ outer.index < id.index) ∧
      (∀ {block entry storage uses}, table.scope? block = some entry → entry.kind = .namespaceBlock storage uses →
        ∃ around path, table.scope? storage = some around ∧ around.kind = .globalNamespace path ∧
          table.namespaces.get? (Text.lowerCase (normalizePath path)) = some storage) ∧
      (∀ {id id' entry entry' path path'}, table.scope? id = some entry → entry.kind = .globalNamespace path →
        table.scope? id' = some entry' → entry'.kind = .globalNamespace path' →
        Text.lowerCase path = Text.lowerCase path' → id = id') ∧
      table.Represented ∧ ∀ {id entry}, table.scope? id = some entry → table.Answers id := by
  intro table
  have hrepresented : table.Represented := SymbolTable.represented_foldl_operate generation requests
  exact ⟨hrepresented.placed.exists_enclosing, hrepresented.placed.exists_storage, hrepresented.placed.eq_of_path, hrepresented,
    hrepresented.answers⟩

end SoftTyping
