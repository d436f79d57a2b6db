import SoftTyping.Proofs.Analysis.Analysed
import SoftTyping.Proofs.Analysis.Enumerated
import SoftTyping.Proofs.SymbolTable.Repeated

/-!
# Repeated declarations of a program

The second pass reports that a declaration is repeated exactly if its own name, looked up where it is declared, stands for
another one (`redefines_referAll`, `referAll_redefinitions`).
-/

namespace SoftTyping

open Step Shape Refusal

namespace Workspace

open SymbolTable

variable {w w' w'' v v' v₁ : Workspace} {id : NodeId} {symbol : SymbolId} {u : Unit} {P : NodeId → Prop} {rules : NameRules}
  {role : Role} {kind : NodeKind} {shape : Shape} {shapes children rest : List Shape} {found found' : List Issue}

/-! ## What the steps report -/

/-- An issue is that a declaration other than an alias is repeated. -/
def isRepetition (issue : Issue) : Bool := issue.kind = .alreadyDefined && !issue.repeats "alias"

/-- A step finds some repeated declarations. -/
def Redefines (found : List Issue) (w w' : Workspace) : Prop :=
  w'.issues.issues.filter isRepetition = w.issues.issues.filter isRepetition ++ found

theorem Redefines.trans (h : Redefines found w w') (h' : Redefines found' w' w'') : Redefines (found ++ found') w w'' := by
  rw [Redefines, h', h, List.append_assoc]

theorem isOrder_redefines : IsOrder (Redefines []) :=
  ⟨fun _ => (List.append_nil _).symm, fun h h' => h.trans h'⟩

theorem redefines_report {issue : Issue} (h : report issue w = .ok u w') :
    Redefines (if isRepetition issue then [issue] else []) w w' := by
  rw [report_eq_ok.mp h]
  show (w.issues.issues ++ [issue]).filter isRepetition = _
  rw [List.filter_append, List.filter_singleton, Bool.cond_eq_ite]

theorem admits_redefines : Admits (Redefines []) (· ≠ .alreadyDefined) where
  order := isOrder_redefines
  report := fun {issue} hk w _ w' h => by
    have hredefines := redefines_report h
    rwa [if_neg (by simp [isRepetition, hk])] at hredefines
  rest := fun _ _ hiss => by rw [Redefines, hiss, List.append_nil]

/-- The issue of a declaration that repeats another one. -/
def repetition? (w : Workspace) (id : NodeId) : Option Issue :=
  ((w.tree.get? id).bind (·.symbol)).bind fun symbol => w.table.issueOf? symbol (w.table.firstLabelled symbol)

theorem isRepetition_repeatedIssue {entry : Symbol} {kind : IdentifierKind} (h : entry.declaredAs? = some kind)
    (earlier : Symbol) :
    isRepetition (entry.repeatedIssue earlier) = true := by
  have hlabel : entry.label ≠ "alias" := by
    obtain ⟨_, _, _, data⟩ := entry
    cases data with
    | var data => cases hpar : data.isParameter <;> simp [Symbol.label, hpar]
    | method data => cases hk : data.kind <;> simp [Symbol.label, hk]
    | const _ | type _ => simp [Symbol.label]
    | aliasOf _ _ | erroneous _ => cases h
  have hk : (entry.repeatedIssue earlier).kind = .alreadyDefined := rfl
  rw [isRepetition, Symbol.repeats_repeatedIssue]
  simp [hk, hlabel]

theorem repetition?_eq (h : w.DeclaredBy id symbol) :
    w.repetition? id = w.table.issueOf? symbol (w.table.firstLabelled symbol) := by
  obtain ⟨node, _, _, hnd, hsym, _⟩ := h
  rw [repetition?, hnd, Option.bind_some, hsym, Option.bind_some]

theorem redefines_checkUnique (hown : w.DeclaredBy id symbol) (h : checkUnique id w = .ok u w') :
    Redefines (w.repetition? id).toList w w' := by
  rw [repetition?_eq hown]
  obtain ⟨node, entry, _, hnd, hsym, he, _, _, _, hdec⟩ := hown
  simp only [checkUnique, Step.bind_eq_ok, askTree_eq_ok, askTable_eq_ok, Step.query_eq_ok, Tree.symbolOf_eq_ok] at h
  obtain ⟨_, _, ⟨⟨node', hnd', hsym'⟩, rfl⟩, entry', _, ⟨he', rfl⟩, scope, _, ⟨hsc, rfl⟩, first, w, ⟨hfst, rfl⟩, h⟩ := h
  cases hnd.symm.trans hnd'
  cases hsym.symm.trans hsym'
  cases he.symm.trans (symbol_eq_ok.mp he')
  have hlabelled : w.table.firstLabelled symbol = .ok first :=
    Refusal.bind_eq_ok.mpr ⟨entry, he', Refusal.bind_eq_ok.mpr ⟨scope, hsc, hfst⟩⟩
  rw [hlabelled]
  unfold reportRepeated at h
  match first, h with
  | none, h =>
    rw [(Step.pure_eq_ok.mp h).2]
    exact isOrder_redefines.refl w
  | some other, h =>
    by_cases hoth : other = symbol
    · subst hoth
      simp only [Option.filter_some, bne_self_eq_false, Bool.false_eq_true, if_false, Step.pure_eq_ok] at h
      rw [h.2, issueOf?, if_pos rfl]
      exact isOrder_redefines.refl w
    · simp only [Option.filter_some, bne_iff_ne, ne_eq, hoth, not_false_eq_true, if_true, Step.bind_eq_ok,
        askTable_eq_ok] at h
      obtain ⟨_, _, ⟨hsm, rfl⟩, earlier, w, ⟨hea, rfl⟩, h⟩ := h
      cases he'.symm.trans hsm
      have his : w.table.issueOf? symbol (.ok (some other)) = some (entry.repeatedIssue earlier) := by
        simp only [issueOf?, if_neg hoth, he, symbol_eq_ok.mp hea]
      have hredefines := redefines_report (show report (entry.repeatedIssue earlier) w = .ok u w' from h)
      rw [if_pos (isRepetition_repeatedIssue hdec earlier)] at hredefines
      rw [his]
      exact hredefines

/-! ## What the pass reports -/

theorem isName_of_declares? {declared : IdentifierKind} (h : kind.declares? = some declared) : kind.isName = false := by
  cases kind <;> first | rfl | nomatch h

theorem DeclaredBy.refers (h : w.DeclaredBy id symbol) (href : Refers P w v) : v.DeclaredBy id symbol := by
  obtain ⟨node, entry, kind, hnd, hsym, he, hnm, hpsn, hk, hdec⟩ := h
  obtain ⟨node', hnd', hkt⟩ := href.kept hnd
  obtain ⟨entry', he', hout⟩ := keepsSymbols_of_binds href.binds he
  refine ⟨node', entry', kind, hnd', (hkt.symbol (isName_of_declares? hk)).trans hsym, he', ?_, ?_,
    hkt.kind.symm ▸ hk, ?_⟩
  · rw [Symbol.name_of_outline hout, hnm, hkt.text]
  · rw [Symbol.position_of_outline hout, hpsn, hkt.position]
  · rw [← Symbol.declaredAs?_outline, hout, Symbol.declaredAs?_outline, hdec]

theorem isInitialisation_writtenIssue? {table : SymbolTable} {scope : ScopeId} {issue : IssueKind} {name : String}
    (h : writtenIssue? table scope symbol = .ok (some (issue, name))) : issue.isInitialisation = true := by
  obtain ⟨entry, _, h⟩ := bind_eq_ok.mp h
  split at h
  · nomatch h
  · split at h
    · nomatch h
    · obtain ⟨_, _, h⟩ := bind_eq_ok.mp h
      obtain ⟨_, _, h⟩ := bind_eq_ok.mp h
      obtain ⟨_, _, h⟩ := bind_eq_ok.mp h
      obtain ⟨_, _, h⟩ := bind_eq_ok.mp h
      split at h
      · nomatch h
      · obtain ⟨_, _, h⟩ := bind_eq_ok.mp h
        split at h <;> cases h <;> rfl

theorem redefines_referName : Respects (Redefines []) (referName rules id kind) := by
  have hR := isOrder_redefines
  cases kind
  case variableRef =>
    refine .bind hR (admits_redefines.bindNode nofun nofun) fun _ => ?_
    intro v _ v' h
    obtain ⟨_, _, _, _, _, _, _, hf, ⟨_, rfl⟩ | ⟨kind, name, rfl, hrep⟩⟩ := checkWritten_eq_ok h
    · exact hR.refl _
    · refine admits_redefines.report ?_ hrep
      rintro rfl
      nomatch isInitialisation_writtenIssue? hf
  case identifier => exact .bind hR (admits_redefines.bindNode nofun nofun) fun _ => admits_redefines.checkDeclaredBefore nofun
  case typeName | call => exact .bind hR (admits_redefines.bindNode nofun nofun) fun _ => .pure hR _
  all_goals exact .pure hR _

theorem redefines_checkAliasUnique {node : Node} {entry : Symbol} (hnd : v.tree.get? id = some node)
    (hsym : node.symbol = some symbol) (he : v.table.symbol? symbol = some entry) (hlabel : entry.label = "alias")
    (h : checkAliasUnique id v = .ok u v') : Redefines [] v v' := by
  simp only [checkAliasUnique, Step.bind_eq_ok, askTree_eq_ok, askTable_eq_ok, Tree.symbolOf_eq_ok] at h
  obtain ⟨_, _, ⟨⟨node', hnd', hsym'⟩, rfl⟩, _, _, ⟨_, rfl⟩, _, _, ⟨_, rfl⟩, first, v, ⟨_, rfl⟩, h⟩ := h
  cases hnd.symm.trans hnd'
  cases hsym.symm.trans hsym'
  unfold reportRepeated at h
  cases hoth : first.filter (fun other => other != symbol) with
  | none =>
    simp only [hoth, Step.pure_eq_ok] at h
    rw [h.2]
    exact isOrder_redefines.refl v
  | some other =>
    simp only [hoth, Step.bind_eq_ok, askTable_eq_ok] at h
    obtain ⟨_, _, ⟨hsm, rfl⟩, earlier, v, ⟨_, rfl⟩, h⟩ := h
    cases he.symm.trans (symbol_eq_ok.mp hsm)
    have hredefines := redefines_report (show report (entry.repeatedIssue earlier) v = .ok u v' from h)
    rwa [if_neg] at hredefines
    rw [isRepetition, Symbol.repeats_repeatedIssue, hlabel]
    simp

theorem redefines_useDecl {found : Option SymbolId} (hbi : bindAlias rules id v = .ok found v₁)
    (huq : checkAliasUnique id v₁ = .ok u v') : Redefines [] v v' := by
  have hfst := admits_redefines.bindAlias nofun hbi
  have href : Refers (fun _ => False) v v₁ := refers_bindAlias hbi
  obtain ⟨node, use, _, entry, target, _, hnd, _, hsym, _, he, ht, _⟩ := bindAlias_eq_ok.mp hbi
  obtain ⟨entry', he', hout⟩ := keepsSymbols_of_binds href.binds he
  have hlabel : entry.label = "alias" := by
    obtain ⟨_, _, _, data⟩ := entry
    cases data <;> first | rfl | cases ht
  refine hfst.trans (redefines_checkAliasUnique (href.frame not_false hnd) hsym he' ?_ huq)
  rw [← Symbol.label_outline, hout, Symbol.label_outline, hlabel]

theorem redefines_unique (hwn : w.table.Owned) (href : Refers P w v) (hown : ∃ symbol, w.DeclaredBy id symbol)
    (h : checkUnique id v = .ok u v') : Redefines (w.repetition? id).toList v v' := by
  obtain ⟨symbol, hown⟩ := hown
  have hown' := hown.refers href
  have hsm : v.repetition? id = w.repetition? id := by
    rw [repetition?_eq hown, repetition?_eq hown']
    obtain ⟨_, _, _, _, _, he, _⟩ := hown
    exact firstLabelled_of_binds hwn href.binds he
  exact hsm ▸ redefines_checkUnique hown' h

theorem declarationsIn_of_enters? {inner : Role} (h : role.enters? kind = some inner) :
    declarationsIn role [.node id kind children] = declarationsIn inner children := by
  rw [declarationsIn, declarationsIn, List.append_nil]
  rcases inner?_of_enters? h with ⟨hinn, _⟩ | hinn
  · exact declarations_of_inner hinn
  · cases role <;> cases kind <;> cases h <;> first | rfl | cases hinn

theorem declarationsIn_of_names (h : role.Names kind) : declarationsIn role [.node id kind children] = [] := by
  rcases h with rfl | ⟨rfl, hk⟩
  · rfl
  · cases kind <;> first | rfl | exact absurd rfl hk

theorem Proceeds.redefines (h : Proceeds rules role shapes v v') (hwn : w.table.Owned) (href : Refers (fun _ => True) w v)
    (hown : ∀ id ∈ declarationsIn role shapes, ∃ symbol, w.DeclaredBy id symbol) :
    Redefines ((declarationsIn role shapes).filterMap w.repetition?) v v' := by
  induction h with
  | nil => exact isOrder_redefines.refl _
  | @cons role shape rest _ _ _ _ _ hone _ _ ih ih' =>
    have hspl : declarationsIn role (shape :: rest) =
        declarationsIn role [shape] ++ declarationsIn role rest := by
      simp [declarationsIn]
    rw [hspl] at hown ⊢
    rw [List.filterMap_append]
    exact (ih href fun id hid => hown id (List.mem_append_left _ hid)).trans
      (ih' (href.trans (hone.mono fun _ _ => trivial)) fun id hid => hown id (List.mem_append_right _ hid))
  | name hnames _ hnm hone _ ih =>
    rw [declarationsIn_of_names hnames]
    rw [declarationsIn_expression] at ih
    exact (redefines_referName hnm).trans (ih (href.trans (hone.mono fun _ _ => trivial)) (List.forall_mem_nil _))
  | enters hnt _ _ ih =>
    rw [declarationsIn_of_enters? hnt] at hown ⊢
    exact ih href hown
  | passes hps =>
    rw [declarationsIn_of_passes hps]
    exact isOrder_redefines.refl _
  | parameter _ huq hhint =>
    have hall := (redefines_unique hwn href (hown _ List.mem_cons_self) huq).trans
      (admits_redefines.bindHint (by simp) (by simp) hhint)
    rwa [List.append_nil] at hall
  | use hbi huq => exact redefines_useDecl hbi huq
  | type _ huq => exact redefines_unique hwn href (hown _ List.mem_cons_self) huq
  | constant _ huq _ ih =>
    rw [declarationsIn_expression] at ih
    have hall := (redefines_unique hwn href (hown _ List.mem_cons_self) huq).trans
      (ih (href.trans (refers_checkUnique huq)) (List.forall_mem_nil _))
    rwa [List.filterMap_nil, List.append_nil] at hall
  | @function id children _ _ _ _ _ _ huq _ _ hclose ih =>
    have hspl : declarationsIn .statement [.node id .functionDecl children] =
        [id] ++ declarationsIn .part children := by
      simp [declarationsIn, declarations]
    rw [hspl] at hown ⊢
    rw [List.filterMap_append]
    have hpts := ih (href.trans (refers_checkUnique huq)) fun x hx => hown x (List.mem_append_right _ hx)
    have hall := ((redefines_unique hwn href (hown id List.mem_cons_self) huq).trans hpts).trans
      (admits_redefines.closeBody hclose)
    rwa [List.append_nil] at hall
  | @branches id kind children _ _ _ _ _ _ hk _ _ _ _ hmg ih =>
    have hsm : declarationsIn .statement [.node id kind children] = declarationsIn .branch children := by
      rcases hk with rfl | rfl <;> simp [declarationsIn, declarations]
    rw [hsm] at hown ⊢
    obtain ⟨table, _, rfl⟩ := onTable_eq_ok.mp hmg
    exact ih href hown
  | assignment _ _ _ hwr ih =>
    rw [declarationsIn_expression] at ih
    obtain ⟨_, _, _, _, _, _, _, _, rfl⟩ := markWritten_eq_ok hwr
    exact ih href (List.forall_mem_nil _)

/-- The second pass finds the repeated declarations of a program. -/
theorem redefines_referAll (hwf : w.tree.WellFormed) (hwn : w.table.Owned)
    (hown : ∀ id ∈ declarationsIn .statement w.statements, ∃ symbol, w.DeclaredBy id symbol) (h : referAll rules w = .ok u w') :
    Redefines ((declarationsIn .statement w.statements).filterMap w.repetition?) w w' :=
  (proceeds_referAll hwf h).1.redefines hwn (.refl w) hown

/-! ## Programs -/

/-- The declarations of a program that identifiers of some kind name, in the order of the passes. -/
def declarationsOf (w : Workspace) (kind : IdentifierKind) : List NodeId :=
  (Shape.declarationsIn .statement w.statements).filter fun id => (w.tree.get? id).any (·.kind.declares? = some kind)

variable {w₁ w₂ : Workspace} {generation : Generation} {libraries : List Library}

/-- A program has been declared. -/
theorem exists_declared {tidy : Prop} (hlib : withLibraries generation libraries = .ok w.table) (hwf : w.tree.WellFormed)
    (hfst : tidy → ∀ shape ∈ w.statements, shape.Every ParametersFirst) (h : declareAll w = .ok u w₁) :
    w₁.table.Owned ∧ w₁.table.Programmed tidy w.table.symbols.size ∧
      List.Forall₂ w₁.DeclaredBy (declarationsIn .statement w.statements) (w₁.table.declaredFrom w.table.symbols.size) := by
  have hequipped := equipped_withLibraries hlib
  have hwn := owned_withLibraries hlib
  have hgro : Ground w.table := ⟨hequipped.represented.rooted, hequipped.aside, hequipped.housed⟩
  obtain ⟨ids, hids, hrec⟩ := enumerates_declareAll hwf hgro ⟨nofun, nofun⟩ hfst h
  refine ⟨keeps_of_changes (stands_declareAll hwf h).touches.declares Declares.owned hwn, hequipped.programmed hrec, ?_⟩
  rw [hrec.declared (Nat.le_refl _), SymbolTable.declaredFrom, Nat.sub_self]
  exact hids

theorem repeats_declaredLabel {issue : Issue} {kind : IdentifierKind} (h : issue.repeats kind.declaredLabel = true) :
    isRepetition issue = true := by
  simp only [Issue.repeats, Bool.and_eq_true, decide_eq_true_eq] at h
  have hal : kind.declaredLabel ≠ "alias" := by cases kind <;> decide
  simp [isRepetition, Issue.repeats, h.1, h.2, hal]

theorem Redefines.of_kind (h : Redefines found w w') (kind : IdentifierKind) :
    w'.issues.issues.filter (·.repeats kind.declaredLabel) =
      w.issues.issues.filter (·.repeats kind.declaredLabel) ++ found.filter (·.repeats kind.declaredLabel) := by
  have hfilter : ∀ issues : List Issue, issues.filter (·.repeats kind.declaredLabel) =
      (issues.filter isRepetition).filter (·.repeats kind.declaredLabel) := by
    intro issues
    rw [List.filter_filter]
    refine List.filter_congr fun issue _ => ?_
    cases hrepeats : issue.repeats kind.declaredLabel with
    | true => rw [repeats_declaredLabel hrepeats]; rfl
    | false => rfl
  rw [hfilter w'.issues.issues, h, List.filter_append, ← hfilter]

/-- The declarations of a kind, as nodes and as symbols. -/
theorem forall₂_declarationsOf {ids : List SymbolId} (htch : Touches P w w₁) (kind : IdentifierKind)
    (h : List.Forall₂ w₁.DeclaredBy (declarationsIn .statement w.statements) ids) :
    List.Forall₂ w₁.DeclaredBy (w.declarationsOf kind) (ids.filter fun id =>
      (w₁.table.symbol? id).any (·.declaredAs? = some kind)) := by
  refine List.rel_filter ?_ h
  rintro id symbol ⟨node, entry, declared, hnd, _, he, _, _, hk, hdec⟩
  obtain ⟨old, hold, hbare⟩ := htch.tree.symm.get? hnd
  simp [hold, he, hdec, Node.kind_of_bare hbare, hk]

/-- The check and lookups of a kind find the same repeated declarations. -/
theorem filter_repetitions {n : Nat} {kind : IdentifierKind} {caseInsensitiveTypes : Bool} {nodes : List NodeId}
    (hwn : w.table.Owned) (hprg : w.table.Programmed True n) (hrl : kind = .type → caseInsensitiveTypes = true)
    (h : List.Forall₂ w.DeclaredBy nodes (w.table.declaredFrom n)) :
    (nodes.filterMap w.repetition?).filter (·.repeats kind.declaredLabel) =
      ((w.table.declaredFrom n).filter fun id => (w.table.symbol? id).any (·.declaredAs? = some kind)).filterMap
        (w.table.redefinition? caseInsensitiveTypes kind) := by
  have hnds : nodes.filterMap w.repetition? =
      (w.table.declaredFrom n).filterMap fun id => w.table.issueOf? id (w.table.firstLabelled id) := by
    generalize w.table.declaredFrom n = ids at h
    induction h with
    | nil => rfl
    | cons hdec _ ih => rw [List.filterMap_cons, List.filterMap_cons, repetition?_eq hdec, ih]
  rw [hnds, List.filter_filterMap, List.filterMap_filter]
  exact List.filterMap_congr fun id hid => filter_issueOf? hwn hprg hrl hid

/-- A constant, class, function or parameter of a program is reported as repeated exactly if its own name, looked up where it
is declared as an identifier of its kind, stands for another declaration, which the issue names. So all but one of those that
one identifier may stand for are reported. Classes are compared without regard to case, whatever the configuration says. -/
theorem referAll_redefinitions (hlibraries : withLibraries generation libraries = .ok w.table) (hwf : w.tree.WellFormed)
    (hfirst : ∀ shape ∈ w.statements, shape.Every Shape.ParametersFirst) (hdeclared : declareAll w = .ok () w₁)
    (hreferred : referAll rules w₁ = .ok () w₂) (kind : IdentifierKind)
    (hkind : kind = .type → rules.caseInsensitiveTypes = true) :
    ∃ ids, List.Forall₂ w₂.DeclaredBy (w.declarationsOf kind) ids ∧
      w₂.issues.issues.filter (·.repeats kind.declaredLabel) = w.issues.issues.filter (·.repeats kind.declaredLabel) ++
        ids.filterMap (w₂.table.redefinition? rules.caseInsensitiveTypes kind) ∧
      ∀ name scope position (same : List SymbolId), same.Nodup →
        (∀ id, id ∈ same ↔
          id ∈ ids ∧ w₂.table.Denotes (.ofKind name kind scope position rules.caseInsensitiveTypes) id) →
        (same.filterMap (w₂.table.redefinition? rules.caseInsensitiveTypes kind)).length = same.length - 1 := by
  obtain ⟨howned, hprogram, hnodes⟩ := exists_declared hlibraries hwf (fun _ : True => hfirst) hdeclared
  have htouches := (stands_declareAll hwf hdeclared).touches
  have hwf₁ := htouches.tree.wellFormed hwf
  have hrefers := refers_referAll hwf₁ hreferred
  have hstatements : w₁.statements = w.statements := congrArg Shape.children (htouches.tree.shape_eq Tree.root)
  have hown : ∀ id ∈ Shape.declarationsIn .statement w₁.statements, ∃ symbol, w₁.DeclaredBy id symbol := by
    intro id hid
    obtain ⟨symbol, _, hsymbol⟩ := Refusal.exists_right_of_forall₂ hnodes (hstatements ▸ hid)
    exact ⟨symbol, hsymbol⟩
  have hredefines := redefines_referAll hwf₁ howned hown hreferred
  have hthere : ∀ {id}, id ∈ w₁.table.declaredFrom w.table.symbols.size → ∃ symbol, w₁.table.symbol? id = some symbol :=
    fun hid => by
      obtain ⟨_, symbol, hsymbol, _⟩ := mem_declaredFrom.mp hid
      exact ⟨symbol, hsymbol⟩
  refine ⟨_, (forall₂_declarationsOf htouches kind hnodes).imp fun _ _ hdeclared => hdeclared.refers hrefers, ?_, ?_⟩
  · rw [hredefines.of_kind kind, hstatements, filter_repetitions howned hprogram hkind hnodes, htouches.issues]
    refine congrArg _ (List.filterMap_congr fun id hid => ?_)
    obtain ⟨symbol, hsymbol⟩ := hthere (List.mem_of_mem_filter hid)
    exact (redefinition?_of_binds howned hrefers.binds hsymbol _ _).symm
  · intro name scope position same hnodup hsame
    have hids : ∀ id, id ∈ same ↔ id ∈ w₁.table.declaredFrom w.table.symbols.size ∧
        w₁.table.Denotes (.ofKind name kind scope position rules.caseInsensitiveTypes) id := by
      intro id
      rw [hsame, List.mem_filter]
      refine ⟨fun ⟨⟨hid, _⟩, hdenotes⟩ => ?_, fun ⟨hid, hdenotes⟩ => ?_⟩ <;> obtain ⟨symbol, hsymbol⟩ := hthere hid
      · exact ⟨hid, (denotes_of_binds hrefers.binds hsymbol _).mp hdenotes⟩
      · refine ⟨⟨hid, ?_⟩, (denotes_of_binds hrefers.binds hsymbol _).mpr hdenotes⟩
        obtain ⟨_, _, _, hfound, hdeclared, _⟩ := hdenotes
        rw [hfound, Option.any_some]
        exact decide_eq_true hdeclared
    rw [← length_redefinitions howned hprogram rfl hnodup hids]
    refine congrArg List.length (List.filterMap_congr fun id hid => ?_)
    obtain ⟨symbol, hsymbol⟩ := hthere ((hids id).mp hid).1
    exact redefinition?_of_binds howned hrefers.binds hsymbol _ _

/-- Two classes whose names differ in case, and a function with two parameters of one name. -/
def twinProgram : List SourceTree :=
  [.node .classDecl "Foo" ⟨1, 1⟩ [], .node .classDecl "foo" ⟨2, 1⟩ [],
    .node .functionDecl "f" ⟨3, 1⟩ [.node .parameter "$x" ⟨3, 4⟩ [], .node .parameter "$x" ⟨3, 8⟩ [],
      .node .block "" ⟨3, 12⟩ []]]

def twinDeclared : Workspace := left (declareAll (startOf twinProgram))

def twinReferred (caseInsensitiveTypes : Bool) : Workspace :=
  left (referAll ⟨Resolver.standard, caseInsensitiveTypes⟩ twinDeclared)

theorem referAll_redefinitions_twin : ∃ ids,
    List.Forall₂ (twinReferred true).DeclaredBy ((startOf twinProgram).declarationsOf .type) ids ∧
    (twinReferred true).issues.issues.filter (·.repeats "type") =
      ids.filterMap ((twinReferred true).table.redefinition? true .type) ∧
    ((twinReferred true).issues.issues.filter (·.repeats "type")).length = 1 := by
  have hdeclared : declareAll (startOf twinProgram) = .ok () twinDeclared := eq_ok_left (by decide +kernel)
  have hreferred : referAll ⟨Resolver.standard, true⟩ twinDeclared = .ok () (twinReferred true) :=
    eq_ok_left (by decide +kernel)
  obtain ⟨ids, hids, hissues, _⟩ := referAll_redefinitions (withLibraries_startOf _) (Tree.wellFormed_ofProgram _)
    (by decide +kernel) hdeclared hreferred .type fun _ => rfl
  exact ⟨ids, hids, hissues, by decide +kernel⟩

/-- A class is reported as repeated, although a configuration tells its name from the other one. -/
theorem referAll_redefinitions_of_case :
    (twinReferred false).table.ownName false .type ⟨0, 11⟩ = .ok (some ⟨0, 11⟩) ∧
      ((twinReferred false).issues.issues.filter (·.repeats "type")).length = 1 := by
  decide +kernel

end Workspace

end SoftTyping
