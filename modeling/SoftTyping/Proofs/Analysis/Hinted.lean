import SoftTyping.Proofs.Analysis.Redefined
import SoftTyping.Proofs.Analysis.Signed

/-!
# Type hints of parameters

The second pass binds the type hint of a parameter to a symbol and declares the parameter with the type that this symbol
stands for. Nothing that comes later binds the hint again or declares another type (`Proceeds.hints`), so this holds of
every parameter of a program that has been analysed (`Analysed.takesHint`).
-/

namespace SoftTyping.Workspace

open Step SymbolTable Shape

variable {w v v₁ v' : Workspace} {id hint : NodeId} {symbol parameter : SymbolId} {u : Unit} {P : NodeId → Prop}
  {rules : NameRules} {role inner : Role} {kind : NodeKind} {shape : Shape} {shapes children rest : List Shape}

/-- A parameter of the program has a type hint. -/
def HasHint (w : Workspace) (id hint : NodeId) : Prop :=
  (∃ node, w.tree.get? id = some node ∧ node.kind = .parameter) ∧ w.tree.childOfKind? id .typeName = some hint

/-- A hint is bound to a symbol, and a parameter is declared with the type that this symbol stands for. -/
def TakesHint (w : Workspace) (parameter : SymbolId) (hint : NodeId) : Prop :=
  ∃ resolved entry, w.tree.symbolOf hint = .ok resolved ∧ w.table.symbol? resolved = some entry ∧
    w.table.declaredType? parameter = some (w.table.asType resolved)

/-! ## Steps that declare no type -/

/-- No variable is declared with another type. -/
def KeepsHints (w w' : Workspace) : Prop := ∀ symbol, w'.table.declaredType? symbol = w.table.declaredType? symbol

theorem letsReport_keepsHints : LetsReport KeepsHints fun _ => True where
  order := ⟨fun _ _ => rfl, fun h h' symbol => (h' symbol).trans (h symbol)⟩
  report := fun _ w _ w' h => by
    rw [report_eq_ok.mp h]
    exact fun _ => rfl

/-- A change of a symbol that is no variable. -/
theorem keepsHints_updateSymbol {change : Symbol → Symbol} {entry : Symbol} (he : v.table.symbol? symbol = some entry)
    (hvar : entry.var? = none) (hchg : (change entry).var? = none)
    (h : onTable (updateSymbol symbol change) v = .ok u v') : KeepsHints v v' := by
  intro other
  obtain ⟨table, htb, rfl⟩ := onTable_eq_ok.mp h
  rw [declaredType?, symbol?_updateSymbol htb]
  split
  · next hoth => rw [declaredType?, hoth, he, Option.map_some, Option.bind_some, Option.bind_some, hvar, hchg]
  · rfl

theorem keepsHints_bindNode {kind : IdentifierKind} {failure : IssueKind} :
    Respects KeepsHints (bindNode rules id kind failure) := by
  have hR := letsReport_keepsHints.order
  refine .ask hR fun node => .ask hR fun _ => .ask hR fun found => .bind hR
    (letsReport_keepsHints.reportForwardAlias trivial) fun _ => .bind hR ?_ fun _ => .bind hR ?_ fun _ => .pure hR _
  · unfold foundSymbol
    split
    · exact .pure hR _
    · refine .bind hR (fun w _ w' hadd other => ?_) fun _ => .bind hR (letsReport_keepsHints.report trivial) fun _ =>
        .pure hR _
      obtain ⟨table, htb, rfl⟩ := onTable_eq_ok.mp hadd
      obtain ⟨_, rfl⟩ := addDetached_eq_ok htb
      rw [declaredType?, symbol?_pushSymbol]
      split
      · next hoth =>
        rw [declaredType?, Option.eq_none_iff_forall_not_mem.mpr fun _ hold => ne_pushSymbol hold hoth]
        rfl
      · rfl
  · intro w _ w' hup
    obtain ⟨_, rfl⟩ := updateNode_eq_ok.mp hup
    exact fun _ => rfl

theorem keepsHints_bindAlias : Respects KeepsHints (bindAlias rules id) := by
  intro w found w' h
  obtain ⟨_, _, _, entry, _, _, _, _, _, _, he, ht, _, _, ⟨_, hrep⟩ | ⟨_, _, hup⟩⟩ := bindAlias_eq_ok.mp h
  · exact letsReport_keepsHints.report trivial hrep
  · refine keepsHints_updateSymbol he ?_ rfl hup
    obtain ⟨_, _, _, data⟩ := entry
    cases data <;> first | rfl | cases ht

theorem keepsHints_referName : Respects KeepsHints (referName rules id kind) := by
  have hR := letsReport_keepsHints.order
  cases kind
  case variableRef =>
    refine .bind hR keepsHints_bindNode fun _ w _ w' h => ?_
    obtain ⟨_, _, _, _, _, _, _, _, ⟨_, rfl⟩ | ⟨_, _, _, hrep⟩⟩ := checkWritten_eq_ok h
    · exact hR.refl _
    · exact letsReport_keepsHints.report trivial hrep
  case identifier => exact .bind hR keepsHints_bindNode fun _ => letsReport_keepsHints.checkDeclaredBefore trivial
  case typeName | call => exact .bind hR keepsHints_bindNode fun _ => .pure hR _
  all_goals exact .pure hR _

theorem keepsHints_checkUnique : Respects KeepsHints (checkUnique id) := letsReport_keepsHints.checkUnique trivial

/-! ## The pass -/

theorem asType_of_binds {table table' : SymbolTable} {entry : Symbol} (h : Relation.ReflTransGen Binds table table')
    (he : table.symbol? symbol = some entry) : table'.asType symbol = table.asType symbol := by
  obtain ⟨entry', he', hout⟩ := keepsSymbols_of_binds h he
  rw [asType, asType, he, he', erroneousType, erroneousType, (grows_of_binds h).scopes.generation, Option.bind_some,
    Option.bind_some, ← Symbol.type?_outline entry', hout, Symbol.type?_outline]

theorem TakesHint.refers (h : v.TakesHint parameter hint) (href : Refers P v v') (hP : ¬ P hint)
    (hsm : v'.table.declaredType? parameter = v.table.declaredType? parameter) : v'.TakesHint parameter hint := by
  obtain ⟨resolved, entry, hres, he, hdec⟩ := h
  obtain ⟨node, hnd, hsym⟩ := Tree.symbolOf_eq_ok.mp hres
  obtain ⟨entry', he', _⟩ := keepsSymbols_of_binds href.binds he
  refine ⟨resolved, entry', Tree.symbolOf_eq_ok.mpr ⟨node, href.frame hP hnd, hsym⟩, he', ?_⟩
  rw [hsm, hdec, asType_of_binds href.binds he]

theorem symbolOf_bindNode {kind : IdentifierKind} {failure : IssueKind}
    (h : bindNode rules id kind failure v = .ok symbol v') : v'.tree.symbolOf id = .ok symbol := by
  obtain ⟨_, _, _, hup⟩ := bindNode_eq_ok h
  obtain ⟨⟨node, hnd⟩, rfl⟩ := updateNode_eq_ok.mp hup
  exact Tree.symbolOf_eq_ok.mpr ⟨_, by rw [Tree.get?_update, if_pos rfl, hnd, Option.map_some], rfl⟩

theorem Refers.childOfKind? (h : Refers P w v) (hwf : w.tree.WellFormed) {node : Node} (hnd : w.tree.get? id = some node)
    (hbl : node.kind ≠ .block) (sought : NodeKind) : v.tree.childOfKind? id sought = w.tree.childOfKind? id sought := by
  obtain ⟨node', hnd', hkt⟩ := h.kept hnd
  rw [Tree.childOfKind?, Tree.childOfKind?, Tree.children_of_get? hnd', hkt.children hbl, ← Tree.children_of_get? hnd]
  refine List.find?_congr fun child hcd => ?_
  obtain ⟨below, hbel, _⟩ := hwf.parent hcd
  obtain ⟨below', hbel', hkt'⟩ := h.kept hbel
  rw [hbel, hbel', Option.any_some, Option.any_some, hkt'.kind]

/-- Parameters among some nodes take their hints, and the types of no others change. -/
structure Hints (w : Workspace) (role : Role) (shapes : List Shape) (v v' : Workspace) : Prop where
  frame : ∀ {symbol}, (∀ id ∈ declarationsIn role shapes, w.tree.symbolOf id ≠ .ok symbol) →
    v'.table.declaredType? symbol = v.table.declaredType? symbol
  bound : ∀ {id hint}, id ∈ declarationsIn role shapes → w.HasHint id hint →
    HasAny shapes hint ∧ ∃ parameter, w.tree.symbolOf id = .ok parameter ∧ v'.TakesHint parameter hint

theorem KeepsHints.hints (h : KeepsHints v v') (hno : declarationsIn role shapes = []) : Hints w role shapes v v' :=
  ⟨fun _ => h _, fun hid => by rw [hno] at hid; nomatch hid⟩

theorem Hints.after (h : Hints w role shapes v₁ v') (hfst : KeepsHints v v₁) : Hints w role shapes v v' :=
  ⟨fun hsym => (h.frame hsym).trans (hfst _), h.bound⟩

/-- A step that declares no type and binds no hint. -/
theorem Hints.before (h : Hints w role shapes v v₁) (hkp : KeepsHints v₁ v') (href : Refers P v₁ v')
    (hP : ∀ {id hint}, w.HasHint id hint → ¬ P hint) : Hints w role shapes v v' := by
  refine ⟨fun hsym => (hkp _).trans (h.frame hsym), fun hid hhint => ?_⟩
  obtain ⟨hhas, parameter, hpar, htks⟩ := h.bound hid hhint
  exact ⟨hhas, parameter, hpar, htks.refers href (hP hhint) (hkp _)⟩

/-- The nodes below a node that is no parameter with a hint. -/
theorem Hints.below (h : Hints w inner children v v')
    (hsup : declarationsIn inner children ⊆ declarationsIn role [.node id kind children])
    (hsub : ∀ {other hint}, other ∈ declarationsIn role [.node id kind children] → w.HasHint other hint →
      other ∈ declarationsIn inner children) : Hints w role [.node id kind children] v v' := by
  refine ⟨fun hsym => h.frame fun other hoth => hsym other (hsup hoth), fun hid hhint => ?_⟩
  obtain ⟨hhas, htks⟩ := h.bound (hsub hid hhint) hhint
  exact ⟨hasAny_singleton.mpr (has_node.mpr (.inr hhas)), htks⟩

theorem Hints.below_of_eq (h : Hints w inner children v v')
    (hsm : declarationsIn role [.node id kind children] = declarationsIn inner children) :
    Hints w role [.node id kind children] v v' :=
  h.below (hsm ▸ List.Subset.refl _) fun hoth _ => hsm ▸ hoth

theorem Hints.below_declared (h : Hints w inner children v v') (href : Refers P w v₁)
    (hfol : Follows v₁.tree (.node id kind children)) (hk : kind ≠ .parameter)
    (hsm : declarationsIn role [.node id kind children] = id :: declarationsIn inner children) :
    Hints w role [.node id kind children] v v' := by
  refine h.below (hsm ▸ List.subset_cons_self _ _) fun hoth hhint => ?_
  rcases List.mem_cons.mp (hsm ▸ hoth) with rfl | hoth
  · obtain ⟨⟨node, hnd, hpar⟩, _⟩ := hhint
    obtain ⟨new, hnew, hkt⟩ := href.kept hnd
    obtain ⟨_, hsm, hk'⟩ := hfol.exists_node
    cases hnew.symm.trans hsm
    exact absurd (hk'.symm.trans (hkt.kind.trans hpar)) hk
  · exact hoth

/-- Nodes declare symbols of their own. -/
structure Own (w : Workspace) (nodes : List NodeId) : Prop where
  declared : ∀ id ∈ nodes, ∃ symbol, w.DeclaredBy id symbol
  nodup : (nodes.map w.tree.symbolOf).Nodup

theorem own_append {nodes nodes' : List NodeId} (h : w.Own (nodes ++ nodes')) :
    w.Own nodes ∧ w.Own nodes' ∧ ∀ id ∈ nodes, ∀ other ∈ nodes', w.tree.symbolOf other ≠ w.tree.symbolOf id := by
  obtain ⟨hdec, hndp⟩ := h
  rw [List.map_append, List.nodup_append] at hndp
  obtain ⟨hfst, hrs, hap⟩ := hndp
  obtain ⟨hdecFst, hdecRest⟩ := List.forall_mem_append.mp hdec
  exact ⟨⟨hdecFst, hfst⟩, ⟨hdecRest, hrs⟩, fun id hid other hoth heq =>
    hap _ (List.mem_map_of_mem hid) _ (List.mem_map_of_mem hoth) heq.symm⟩

theorem own_expression (w : Workspace) (shapes : List Shape) : w.Own (declarationsIn .expression shapes) := by
  rw [declarationsIn_expression]
  exact ⟨nofun, .nil⟩

theorem DeclaredBy.symbolOf (h : w.DeclaredBy id symbol) : w.tree.symbolOf id = .ok symbol := by
  obtain ⟨node, _, _, hnd, hsym, _⟩ := h
  exact Tree.symbolOf_eq_ok.mpr ⟨node, hnd, hsym⟩

theorem DeclaredBy.isParameter {node : Node} (h : w.DeclaredBy id symbol) (hnd : w.tree.get? id = some node)
    (hk : node.kind = .parameter) : w.table.IsParameter symbol := by
  obtain ⟨_, entry, _, hsm, _, he, _, _, hkind, hdec⟩ := h
  cases hnd.symm.trans hsm
  rw [hk] at hkind
  cases hkind
  obtain ⟨data, hdt, hpar⟩ := Symbol.declaredAs?_eq_var.mp hdec
  exact ⟨entry, data, he, hdt, hpar⟩

/-- A parameter takes its hint. -/
theorem takesHint_bindHint {resolved : SymbolId} {entry : Symbol} (hpar : v₁.table.IsParameter parameter)
    (hbi : bindNode rules hint .type .unknownType v = .ok resolved v₁) (he : v₁.table.symbol? resolved = some entry)
    (hup : onTable (updateSymbol parameter (·.mapVariable fun data =>
      { data with declared := some (v₁.table.asType resolved) })) v₁ = .ok u v') : v'.TakesHint parameter hint := by
  have hres := symbolOf_bindNode hbi
  obtain ⟨table, htb, rfl⟩ := onTable_eq_ok.mp hup
  have hbis := Relation.ReflTransGen.single (Binds.declareType (isHint_asType he) htb)
  obtain ⟨entry', he', _⟩ := keepsSymbols_of_binds hbis he
  obtain ⟨old, data, hold, hdt, _⟩ := hpar
  refine ⟨resolved, entry', hres, he', ?_⟩
  rw [asType_of_binds hbis he, declaredType?, symbol?_updateSymbol htb, if_pos rfl, hold, Option.map_some, Option.bind_some,
    Symbol.var?_mapVariable, hdt, Option.map_some, Option.bind_some]

theorem hints_bindHint {found : Option SymbolId} (hwf : w.tree.WellFormed) (href : Refers (fun _ => True) w v)
    (hown : w.Own [id]) (hfol : Follows v.tree (.node id .parameter children)) (h : bindHint rules id v = .ok found v') :
    Hints w .part [.node id .parameter children] v v' := by
  obtain ⟨parameter, hpar, hone⟩ := bindHint_eq_ok h
  obtain ⟨symbol, hdec⟩ := hown.declared id (List.mem_singleton_self id)
  obtain rfl : parameter = symbol := Except.ok.inj (hpar.symm.trans (hdec.refers href).symbolOf)
  have hch : ∀ {other}, w.HasHint id other → v.tree.childOfKind? id .typeName = some other := by
    rintro other ⟨⟨node, hnd, hk⟩, hhint⟩
    rw [href.childOfKind? hwf hnd (by rw [hk]; nofun), hhint]
  rcases hone with ⟨hno, rfl⟩ | ⟨hint, resolved, entry, v₁, _, hhint, hbi, he, hup⟩
  · refine ⟨fun _ => rfl, fun hid hhint => ?_⟩
    cases List.mem_singleton.mp hid
    nomatch hno.symm.trans (hch hhint)
  · refine ⟨fun hoth => ?_, fun hid hhint' => ?_⟩
    · obtain ⟨table, htb, rfl⟩ := onTable_eq_ok.mp hup
      rw [declaredType?, symbol?_updateSymbol htb, if_neg]
      · exact keepsHints_bindNode hbi _
      · rintro rfl
        exact hoth id (List.mem_singleton_self id) hdec.symbolOf
    · cases List.mem_singleton.mp hid
      cases hhint.symm.trans (hch hhint')
      obtain ⟨hmem, below, hbel, hk⟩ := Tree.childOfKind?_eq_some hhint
      have href₁ := (refers_bindNode hbel (by rw [hk]; rfl) hbi).mono (Q := fun _ => True) fun _ _ => trivial
      obtain ⟨node, hnd, hpk⟩ := (href₁.follows hfol).exists_node
      refine ⟨hasAny_singleton.mpr (has_node.mpr (.inr (hfol.has_child nofun hmem))), parameter, hdec.symbolOf, ?_⟩
      exact takesHint_bindHint ((hdec.refers (href.trans href₁)).isParameter hnd hpk) hbi he hup

theorem Proceeds.hints (h : Proceeds rules role shapes v v') (hwf : w.tree.WellFormed) (href : Refers (fun _ => True) w v)
    (hdis : Distinct shapes) (hown : w.Own (declarationsIn role shapes)) : Hints w role shapes v v' := by
  have hR := letsReport_keepsHints.order
  induction h with
  | nil => exact KeepsHints.hints (hR.refl _) rfl
  | @cons role shape rest _ _ _ _ _ hone _ hrefRest ih ih' =>
    have hspl : declarationsIn role (shape :: rest) = declarationsIn role [shape] ++ declarationsIn role rest := by
      simp [declarationsIn]
    rw [hspl] at hown
    obtain ⟨hown, hownRest, hap⟩ := own_append hown
    cases hdis with | cons hno hch hapart hdisRest =>
    have hfst := ih href (.cons hno hch (by simp [HasAny]) .nil) hown
    have hrs := ih' (href.trans (hone.mono fun _ _ => trivial)) hdisRest hownRest
    refine ⟨fun hsym => ?_, fun hid hhint => ?_⟩
    · obtain ⟨hsymFst, hsymRest⟩ := List.forall_mem_append.mp (hspl ▸ hsym)
      exact (hrs.frame hsymRest).trans (hfst.frame hsymFst)
    · rcases List.mem_append.mp (hspl ▸ hid) with hid | hid
      · obtain ⟨hhas, parameter, hpar, htks⟩ := hfst.bound hid hhint
        have hhas := hasAny_singleton.mp hhas
        refine ⟨hasAny_cons.mpr (.inl hhas), parameter, hpar, htks.refers hrefRest (hapart _ hhas) ?_⟩
        exact hrs.frame fun other hoth => hpar ▸ hap _ hid other hoth
      · obtain ⟨hhas, htks⟩ := hrs.bound hid hhint
        exact ⟨hasAny_cons.mpr (.inr hhas), htks⟩
  | name hnames _ hnm hone _ ih =>
    cases hdis with | cons _ hch =>
    have hall := ih (href.trans (hone.mono fun _ _ => trivial)) hch (own_expression _ _)
    refine (hall.after (keepsHints_referName hnm)).below_of_eq ?_
    rw [declarationsIn_of_names hnames, declarationsIn_expression]
  | enters hnt _ _ ih =>
    cases hdis with | cons _ hch =>
    rw [declarationsIn_of_enters? hnt] at hown
    exact (ih href hch hown).below_of_eq (declarationsIn_of_enters? hnt)
  | passes hps => exact KeepsHints.hints (hR.refl _) (declarationsIn_of_passes hps)
  | parameter hfol huq hhint =>
    have hone := refers_checkUnique (P := fun _ => True) huq
    exact (hints_bindHint hwf (href.trans hone) hown (hone.follows hfol) hhint).after (keepsHints_checkUnique huq)
  | use hbi huq =>
    exact KeepsHints.hints (hR.trans (keepsHints_bindAlias hbi) (letsReport_keepsHints.checkAliasUnique trivial huq)) rfl
  | type hfol huq =>
    exact (KeepsHints.hints (keepsHints_checkUnique huq) (declarationsIn_expression _)).below_declared href hfol (by decide)
      (by rw [declarationsIn_expression]; rfl)
  | constant hfol huq _ ih =>
    cases hdis with | cons _ hch =>
    have hall := ih (href.trans (refers_checkUnique huq)) hch (own_expression _ _)
    exact (hall.after (keepsHints_checkUnique huq)).below_declared href hfol (by decide)
      (by rw [declarationsIn_expression]; rfl)
  | @function id children _ _ _ _ _ hfol huq _ hpts hclose ih =>
    have hspl : declarationsIn .statement [.node id .functionDecl children] = [id] ++ declarationsIn .part children := by
      simp [declarationsIn, declarations]
    cases hdis with | cons _ hch =>
    have hall := ih (href.trans (refers_checkUnique huq)) hch (own_append (hspl ▸ hown)).2.1
    refine ((hall.after (keepsHints_checkUnique huq)).below_declared href hfol (by decide) hspl).before ?_
      (refers_closeBody hclose) fun hhint hbl => ?_
    · obtain ⟨_, _, _, _, _, ⟨_, _, rfl⟩ | ⟨_, _, _, _, rfl⟩⟩ := closeBody_eq_ok.mp hclose <;> exact fun _ => rfl
    · obtain ⟨_, node, hnd, hk⟩ := Tree.childOfKind?_eq_some hhint.2
      obtain ⟨_, new, hnew, hbl⟩ := hbl
      obtain ⟨_, hsm, hkt⟩ := (href.trans (hpts.mono fun _ _ => trivial)).kept hnd
      cases hnew.symm.trans hsm
      cases hk.symm.trans (hkt.kind.symm.trans hbl)
  | @branches id kind children _ _ _ _ _ _ hk _ _ _ _ hmg ih =>
    have hsm : declarationsIn .statement [.node id kind children] = declarationsIn .branch children := by
      rcases hk with rfl | rfl <;> simp [declarationsIn, declarations]
    cases hdis with | cons _ hch =>
    refine ((ih href hch (hsm ▸ hown)).below_of_eq hsm).before ?_ (refers_mergeBranches (P := fun _ => False) hmg)
      fun _ => not_false
    obtain ⟨_, htb, rfl⟩ := onTable_eq_ok.mp hmg
    obtain ⟨_, _, rfl⟩ := mergeBranches_eq_ok htb
    exact fun _ => rfl
  | assignment _ _ _ hwr ih =>
    cases hdis with | cons _ hch =>
    cases hch with | cons _ _ _ hvl =>
    refine KeepsHints.hints (hR.trans (fun _ => (ih href hvl (own_expression _ _)).frame ?_) ?_) rfl
    · rw [declarationsIn_expression]
      exact List.forall_mem_nil _
    · obtain ⟨_, _, _, _, _, _, _, hmark, rfl⟩ := markWritten_eq_ok hwr
      obtain rfl := updateScope_eq_ok hmark
      exact fun _ => rfl

/-! ## Programs -/

theorem own_of_declared {nodes : List NodeId} {ids : List SymbolId} (h : List.Forall₂ w.DeclaredBy nodes ids)
    (hndp : ids.Nodup) : w.Own nodes := by
  have hsm : nodes.map w.tree.symbolOf = ids.map .ok := by
    clear hndp
    induction h with
    | nil => rfl
    | cons hone _ ih => rw [List.map_cons, List.map_cons, hone.symbolOf, ih]
  refine ⟨fun id hid => ?_, hsm ▸ hndp.map fun _ _ => Except.ok.inj⟩
  obtain ⟨symbol, _, hdec⟩ := Refusal.exists_right_of_forall₂ h hid
  exact ⟨symbol, hdec⟩

theorem nodup_declaredFrom (table : SymbolTable) (n : Nat) : (table.declaredFrom n).Nodup :=
  (List.Nodup.map (fun _ _ heq => congrArg SymbolId.index heq) List.nodup_range').filter _

theorem HasHint.annotates {w₁ : Workspace} (h : w.HasHint id hint) (htree : w.tree.Annotates w₁.tree) :
    w₁.HasHint id hint := by
  obtain ⟨⟨node, hnd, hk⟩, hhint⟩ := h
  obtain ⟨node', hnd', hbare⟩ := htree.get? hnd
  refine ⟨⟨node', hnd', (Node.kind_of_bare hbare).trans hk⟩, ?_⟩
  rw [← hhint, Tree.childOfKind?, Tree.childOfKind?, htree.children_eq]
  refine congrArg (List.find? · _) (funext fun child => ?_)
  have hsm := congrArg (Option.any (·.kind = .typeName)) (htree child)
  rwa [Option.any_map, Option.any_map] at hsm

theorem Types.symbolOf (h : Types v v') (hsym : v.tree.symbolOf id = .ok symbol) : v'.tree.symbolOf id = .ok symbol := by
  obtain ⟨node, hnd, hsym⟩ := Tree.symbolOf_eq_ok.mp hsym
  obtain ⟨node', hnd', _⟩ := h.tree.get? hnd
  refine Tree.symbolOf_eq_ok.mpr ⟨node', hnd', ?_⟩
  rw [h.kept hnd hnd', hsym]

/-- The last pass leaves what parameters are declared with. -/
theorem Types.takesHint (h : Types v v') (hpar : v.table.IsParameter parameter) (htks : v.TakesHint parameter hint) :
    v'.TakesHint parameter hint := by
  obtain ⟨resolved, entry, hres, he, hdec⟩ := htks
  obtain ⟨entry', he', _, htp, _⟩ := MatchesSymbols.symbol? h.table.symbols he
  obtain ⟨old, _, hold, _⟩ := hpar
  obtain ⟨new, hnew, _, _, hsm⟩ := MatchesSymbols.symbol? h.table.symbols hold
  refine ⟨resolved, entry', h.symbolOf hres, he', ?_⟩
  rw [declaredType?, hold, Option.bind_some] at hdec
  rw [declaredType?, hnew, Option.bind_some, hsm, hdec, asType, asType, he, he', Option.bind_some, Option.bind_some, htp,
    erroneousType, erroneousType, h.table.generation]

/-- Every parameter of a program with a type hint takes it. -/
theorem Analysed.takesHint {w₁ w₂ w₃ : Workspace} (h : Analysed rules w w₁ w₂ w₃)
    (hid : id ∈ declarationsIn .statement w.statements) (hhint : w.HasHint id hint) :
    ∃ parameter, w₃.tree.symbolOf id = .ok parameter ∧ w₂.table.IsParameter parameter ∧ w₃.TakesHint parameter hint := by
  obtain ⟨_, _, hlib⟩ := h.libraries
  obtain ⟨_, _, hnds⟩ := exists_declared hlib h.wellFormed (fun hno : False => hno.elim) h.declared
  rw [← h.touches.statements_eq] at hid hnds
  have hown := own_of_declared hnds (nodup_declaredFrom _ _)
  have hdis := (apart_statements h.wellFormed₁).distinct h.wellFormed₁
  have hhints := (proceeds_referAll h.wellFormed₁ h.referred).1.hints h.wellFormed₁ (.refl w₁) hdis hown
  have hhint₁ := hhint.annotates h.touches.tree
  obtain ⟨_, parameter, hpar, htks⟩ := hhints.bound hid hhint₁
  obtain ⟨symbol, hdec⟩ := hown.declared id hid
  obtain rfl : parameter = symbol := Except.ok.inj (hpar.symm.trans hdec.symbolOf)
  obtain ⟨⟨node, hnd, hk⟩, _⟩ := hhint₁
  obtain ⟨new, hnew, hkt⟩ := h.refers.kept hnd
  have hdec₂ := hdec.refers h.refers
  have hpar₂ := hdec₂.isParameter hnew (hkt.kind.trans hk)
  exact ⟨parameter, h.types.symbolOf hdec₂.symbolOf, hpar₂, h.types.takesHint hpar₂ htks⟩

end SoftTyping.Workspace
