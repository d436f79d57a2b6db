import SoftTyping.Proofs.Analysis.Referred
import SoftTyping.Proofs.Paths
import SoftTyping.Proofs.SymbolTable.Initialised

/-!
# What binding names marks and reports

The pass that binds names marks variables as initialised in the scope of the statements that it visits and in the scopes
that are opened below them, and nowhere else. It reports that a variable is not initialised only where one is read
(`Checks`, `checked`).
-/

namespace SoftTyping

open Step SymbolTable Shape Tree

/-- Whether a visit of a node may mark variables in the scope where the node stands. -/
def Role.Marks : Role → NodeKind → Prop
  | .statement, kind => kind.isDeclaration = false
  | .part, kind => kind = .block
  | .branch, _ | .expression, _ => False

namespace Workspace

variable {w w' w'' : Workspace} {id : NodeId} {scope : ScopeId} {symbol : SymbolId} {u : Unit} {α : Type} {a : α}
  {rules : NameRules} {reads reads' : Position → Prop} {owns owns' : ScopeId → Prop} {position : Position}
  {kind : IdentifierKind} {failure : IssueKind} {node : Node}

/-- A step marks variables only in scopes of its own, and finds variables that are not initialised only at places where one
is read. -/
structure Checks (reads : Position → Prop) (owns : ScopeId → Prop) (w w' : Workspace) : Prop where
  marks : ∀ id, ¬ owns id → w'.table.marks id = w.table.marks id
  issues : ∃ added, w'.issues.issues = w.issues.issues ++ added ∧
    ∀ issue ∈ added, issue.kind.isInitialisation = true → reads issue.position

theorem Checks.refl (w : Workspace) : Checks reads owns w w := ⟨fun _ _ => rfl, [], (List.append_nil _).symm, nofun⟩

theorem Checks.trans (h : Checks reads owns w w') (h' : Checks reads owns w' w'') : Checks reads owns w w'' := by
  obtain ⟨added, hadded, hreads⟩ := h.issues
  obtain ⟨added', hadded', hreads'⟩ := h'.issues
  refine ⟨fun id hid => (h'.marks id hid).trans (h.marks id hid), added ++ added', ?_, fun issue his => ?_⟩
  · rw [hadded', hadded, List.append_assoc]
  · rcases List.mem_append.mp his with his | his
    · exact hreads issue his
    · exact hreads' issue his

theorem Checks.mono (h : Checks reads owns w w') (hreads : ∀ position, reads position → reads' position)
    (howns : ∀ id, owns id → owns' id) : Checks reads' owns' w w' := by
  obtain ⟨added, hadded, hiss⟩ := h.issues
  exact ⟨fun id hid => h.marks id fun hown => hid (howns id hown), added, hadded, fun issue his hk =>
    hreads _ (hiss issue his hk)⟩

theorem Checks.widen (h : Checks reads owns w w') (howns : ∀ id, owns id → owns' id) : Checks reads owns' w w' :=
  h.mono (fun _ => id) howns

/-! ## Small steps -/

/-- A relation that the small steps of the pass respect, as long as they report issues of some kinds only. -/
structure Admits (R : Workspace → Workspace → Prop) (kinds : IssueKind → Prop) : Prop extends LetsReport R kinds where
  rest : ∀ {w w' : Workspace}, w'.table.generation = w.table.generation → w'.table.scopes = w.table.scopes →
    w'.issues = w.issues → R w w'

namespace Admits

variable {R : Workspace → Workspace → Prop} {kinds : IssueKind → Prop} (h : Admits R kinds) {found : Resolution}

include h

theorem updateNode {change : Node → Node} : Respects R (updateNode id change) := by
  intro w _ w' hup
  obtain ⟨_, rfl⟩ := updateNode_eq_ok.mp hup
  exact h.rest rfl rfl rfl

theorem updateSymbol {change : Symbol → Symbol} : Respects R (onTable (updateSymbol symbol change)) := by
  intro w _ w' hup
  obtain ⟨table, htb, rfl⟩ := onTable_eq_ok.mp hup
  obtain ⟨_, rfl⟩ := updateSymbol_eq_ok htb
  exact h.rest rfl rfl rfl

theorem bindAlias (hk : kinds .aliasTargetNotDefined) : Respects R (bindAlias rules id) := by
  refine .ask h.order fun _ => .ask h.order fun _ => .ask h.order fun _ => .ask h.order fun symbol => ?_
  split
  · exact .throw _
  · refine .ask h.order fun found => ?_
    split
    · exact .bind h.order h.updateSymbol fun _ => .pure h.order _
    · exact .bind h.order (h.report hk) fun _ => .pure h.order _

theorem foundSymbol (hfailure : kinds failure) : Respects R (foundSymbol node kind failure found) := by
  unfold Workspace.foundSymbol
  split
  · exact .pure h.order _
  · refine .bind h.order ?_ fun _ => .bind h.order (h.report hfailure) fun _ => .pure h.order _
    intro w _ w' hadd
    obtain ⟨table, htb, rfl⟩ := onTable_eq_ok.mp hadd
    obtain ⟨_, rfl⟩ := addDetached_eq_ok htb
    exact h.rest rfl rfl rfl

theorem bindNode (hal : kinds .aliasForwardReference) (hfailure : kinds failure) :
    Respects R (bindNode rules id kind failure) :=
  .ask h.order fun _ => .ask h.order fun _ => .ask h.order fun _ => .bind h.order (h.reportForwardAlias hal) fun _ =>
    .bind h.order (h.foundSymbol hfailure) fun _ => .bind h.order h.updateNode fun _ => .pure h.order _

theorem bindHint (hal : kinds .aliasForwardReference) (hfailure : kinds .unknownType) :
    Respects R (bindHint rules id) := by
  refine .ask h.order fun _ => .bind h.order (.get h.order) fun w => ?_
  split
  · exact .pure h.order _
  · exact .bind h.order (h.bindNode hal hfailure) fun _ => .ask h.order fun _ =>
      .bind h.order (.get h.order) fun _ => .bind h.order h.updateSymbol fun _ => .pure h.order _

theorem closeBody : Respects R (closeBody id) := by
  have hadd : ∀ {parent kind text position scope}, Respects R (addPlaced parent kind text position scope) := by
    intro parent kind text position scope w _ w' hadd
    obtain ⟨_, rfl⟩ := addPlaced_eq_ok.mp hadd
    exact h.rest rfl rfl rfl
  refine .ask h.order fun _ => .bind h.order (.get h.order) fun _ => ?_
  split
  · exact .pure h.order _
  · exact .ask h.order fun _ => .ask h.order fun _ => .bind h.order hadd fun _ =>
      .bind h.order hadd fun _ => .pure h.order _

end Admits

/-! ## Steps that mark nothing and find nothing -/

/-- A step that neither marks a variable nor finds one that is not initialised. -/
abbrev Quiet : Workspace → Workspace → Prop := Checks (fun _ => False) (fun _ => False)

theorem Quiet.checks (h : Quiet w w') : Checks reads owns w w' := Checks.mono h nofun nofun

theorem admits_quiet : Admits Quiet (·.isInitialisation = false) where
  order := ⟨.refl, .trans⟩
  report := fun {issue} hk w _ w' h => by
    rw [report_eq_ok.mp h]
    refine ⟨fun _ _ => rfl, [issue], rfl, fun other hoth hini => ?_⟩
    rw [List.mem_singleton.mp hoth, hk] at hini
    nomatch hini
  rest := fun hgen hscs hiss =>
    ⟨fun id _ => by simp only [marks, scope?, hgen, hscs], [], by rw [hiss, List.append_nil], nofun⟩

theorem quiet_checkUnique : Respects Quiet (checkUnique id) := admits_quiet.checkUnique rfl

theorem quiet_bindNode (hfailure : failure.isInitialisation = false) :
    Respects Quiet (bindNode rules id kind failure) := admits_quiet.bindNode rfl hfailure

theorem quiet_bindHint : Respects Quiet (bindHint rules id) := admits_quiet.bindHint rfl rfl

/-! ## Reading and writing -/

/-- What checking a read does. -/
theorem checkWritten_eq_ok (h : checkWritten id w = .ok u w') :
    ∃ node symbol scope found, w.tree.get? id = some node ∧ node.symbol = some symbol ∧ node.scope = some scope ∧
      writtenIssue? w.table scope symbol = .ok found ∧
      ((found = none ∧ w' = w) ∨ ∃ kind name, found = some (kind, name) ∧
        report ((Issue.ofKind kind node.position).withParameter "name" name) w = .ok u w') := by
  simp only [checkWritten, bind_eq_ok, askTree_eq_ok, askTable_eq_ok, node_eq_ok, symbolOf_eq_ok,
    scopeOf_eq_ok] at h
  obtain ⟨node, _, ⟨hnd, rfl⟩, symbol, _, ⟨⟨_, hsm, hsym⟩, rfl⟩, scope, _, ⟨⟨_, hsm', hsc⟩, rfl⟩, found, w,
    ⟨hf, rfl⟩, h⟩ := h
  cases hnd.symm.trans hsm
  cases hnd.symm.trans hsm'
  refine ⟨node, symbol, scope, found, hnd, hsym, hsc, hf, ?_⟩
  match found, h with
  | none, h => exact .inl ⟨rfl, (pure_eq_ok.mp h).2⟩
  | some (kind, name), h => exact .inr ⟨kind, name, rfl, h⟩

theorem checks_report {issue : Issue} (h : report issue w = .ok u w') : Checks (· = issue.position) owns w w' := by
  rw [report_eq_ok.mp h]
  refine ⟨fun _ _ => rfl, [issue], rfl, fun other hoth _ => ?_⟩
  rw [List.mem_singleton.mp hoth]

theorem checks_checkWritten (hnd : w.tree.get? id = some node) (h : checkWritten id w = .ok u w') :
    Checks (· = node.position) owns w w' := by
  obtain ⟨same, _, _, _, hsm, _, _, _, hf⟩ := checkWritten_eq_ok h
  cases hnd.symm.trans hsm
  rcases hf with ⟨_, rfl⟩ | ⟨kind, name, _, hrep⟩
  · exact .refl _
  · exact checks_report hrep

theorem markWritten_eq_ok (h : markWritten id w = .ok u w') :
    ∃ node symbol scope table, w.tree.get? id = some node ∧ node.symbol = some symbol ∧ node.scope = some scope ∧
      markInitialised scope symbol w.table = .ok u table ∧ w' = { w with table } := by
  simp only [markWritten, bind_eq_ok, askTree_eq_ok, symbolOf_eq_ok, scopeOf_eq_ok, onTable_eq_ok] at h
  obtain ⟨symbol, _, ⟨⟨node, hnd, hsym⟩, rfl⟩, scope, w, ⟨⟨_, hsm, hsc⟩, rfl⟩, table, htb, rfl⟩ := h
  cases hnd.symm.trans hsm
  exact ⟨node, symbol, scope, table, hnd, hsym, hsc, htb, rfl⟩

theorem checks_markWritten (hnd : w.tree.get? id = some node) (hsc : node.scope = some scope)
    (h : markWritten id w = .ok u w') : Checks reads (· = scope) w w' := by
  obtain ⟨same, symbol, _, table, hsm, _, hsc', hmark, rfl⟩ := markWritten_eq_ok h
  cases hnd.symm.trans hsm
  cases hsc.symm.trans hsc'
  exact ⟨fun id hid => marks_markInitialised hmark hid, [], (List.append_nil _).symm, nofun⟩

theorem checks_mergeBranches {branches : List ScopeId} {exhaustive : Bool}
    (h : mergeBranches scope branches exhaustive w = .ok u w') : Checks reads (· = scope) w w' := by
  obtain ⟨table, hmg, rfl⟩ := onTable_eq_ok.mp h
  exact ⟨fun id hid => marks_mergeBranches hmg hid, [], (List.append_nil _).symm, nofun⟩

/-! ## Expressions -/

/-- A variable is read at a place of some nodes. -/
def ReadsAt (w : Workspace) (shapes : List Shape) (position : Position) : Prop :=
  ∃ id node, Shape.HasAny shapes id ∧ w.tree.get? id = some node ∧ node.kind = .variableRef ∧ node.position = position

variable {P : NodeId → Prop} {shape : Shape} {shapes children rest : List Shape} {kind : NodeKind} {w₁ : Workspace}
  {tree : Tree}

theorem ReadsAt.mono (h : w.ReadsAt shapes position) (hmono : ∀ id, HasAny shapes id → HasAny rest id) :
    w.ReadsAt rest position := by
  obtain ⟨id, node, hid, hnd⟩ := h
  exact ⟨id, node, hmono id hid, hnd⟩

theorem Follows.exists_of_has (h : Follows tree shape) (hid : shape.Has id) : ∃ node, tree.get? id = some node := by
  induction hid with
  | here =>
    obtain ⟨hnd, _⟩ := h
    exact ⟨_, hnd⟩
  | inside hcd _ ih =>
    obtain ⟨_, _, _, _, hch⟩ := h
    exact ih (hch _ hcd)

theorem ReadsAt.of_refers (h : w₁.ReadsAt shapes position) (href : Refers P w w₁)
    (hfol : ∀ shape ∈ shapes, Follows w.tree shape) : w.ReadsAt shapes position := by
  obtain ⟨id, node, ⟨shape, hsh, hid⟩, hnd, hk, hpsn⟩ := h
  obtain ⟨old, hold⟩ := (hfol shape hsh).exists_of_has hid
  obtain ⟨new, hnew, hkt⟩ := href.kept hold
  cases hnd.symm.trans hnew
  exact ⟨id, old, ⟨shape, hsh, hid⟩, hold, hkt.kind.symm.trans hk, hkt.position.symm.trans hpsn⟩

/-- A step at some nodes after another. -/
theorem Checks.after (hfst : Checks (w.ReadsAt shapes) owns w w₁) (href : Refers P w w₁)
    (hfol : ∀ shape ∈ rest, Follows w.tree shape) (hrs : Checks (w₁.ReadsAt rest) owns w₁ w')
    (hmono : ∀ id, HasAny rest id → HasAny shapes id) : Checks (w.ReadsAt shapes) owns w w' :=
  hfst.trans (hrs.mono (fun _ hreads => (hreads.of_refers href hfol).mono hmono) fun _ => id)

theorem checks_referName (hnd : w.tree.get? id = some node) (hk : node.kind = kind)
    (h : referName rules id kind w = .ok u w') :
    Checks (fun position => kind = .variableRef ∧ position = node.position) owns w w' := by
  cases kind <;> simp only [referName, bind_eq_ok, pure_eq_ok] at h
  case variableRef =>
    obtain ⟨_, w₁, hbi, hcheck⟩ := h
    obtain ⟨new, hnew, hkt⟩ := (refers_bindNode hnd (by rw [hk]; rfl) hbi).kept hnd
    refine (quiet_bindNode rfl hbi).checks.trans ((checks_checkWritten hnew hcheck).mono ?_ fun _ hown => hown)
    exact fun position hpsn => ⟨rfl, hpsn.trans hkt.position⟩
  case identifier =>
    obtain ⟨_, _, hbi, hcheck⟩ := h
    exact (quiet_bindNode rfl hbi).checks.trans (admits_quiet.checkDeclaredBefore rfl hcheck).checks
  case typeName =>
    obtain ⟨_, _, hbi, _, rfl⟩ := h
    exact (quiet_bindNode rfl hbi).checks
  case call =>
    obtain ⟨_, _, hbi, _, rfl⟩ := h
    exact (quiet_bindNode rfl hbi).checks
  all_goals
    rw [h.2]
    exact .refl w

theorem hasAny_singleton {other : NodeId} : HasAny [shape] other ↔ shape.Has other := by
  simp [HasAny]

theorem checks_cons (hfol : ∀ other ∈ shape :: rest, Follows w.tree other) (href : Refers P w w₁)
    (hfst : Checks (w.ReadsAt [shape]) owns w w₁) (hrs : Checks (w₁.ReadsAt rest) owns w₁ w') :
    Checks (w.ReadsAt (shape :: rest)) owns w w' := by
  refine .after (hfst.mono (fun _ hreads => hreads.mono fun x hx => ?_) fun _ hown => hown) href
    (List.forall_mem_cons.mp hfol).2 hrs fun x hx => hasAny_cons.mpr (.inr hx)
  exact hasAny_cons.mpr (.inl (hasAny_singleton.mp hx))

theorem checks_children (hfol : Follows w.tree (.node id kind children)) (href : Refers P w w₁)
    (hfst : Checks (w.ReadsAt [.node id kind children]) owns w w₁) (hch : Checks (w₁.ReadsAt children) owns w₁ w') :
    Checks (w.ReadsAt [.node id kind children]) owns w w' :=
  hfst.after href hfol.child hch fun _ hx => hasAny_singleton.mpr (has_node.mpr (.inr hx))

theorem checks_expression (hfol : Follows w.tree (.node id kind children)) (hnm : referName rules id kind w = .ok u w₁)
    (href : Refers P w w₁) (hch : Checks (w₁.ReadsAt children) owns w₁ w') :
    Checks (w.ReadsAt [.node id kind children]) owns w w' := by
  obtain ⟨node, hnd, hk⟩ := hfol.exists_node
  refine checks_children hfol href ((checks_referName hnd hk hnm).mono ?_ fun _ hown => hown) hch
  rintro position ⟨hvb, rfl⟩
  exact ⟨id, node, hasAny_singleton.mpr .here, hnd, hk.trans hvb, rfl⟩

variable {role inner : Role} {lo mid hi : Nat} {opened : ScopeId} {node : Node}

theorem Proceeds.checks_expressions (h : Proceeds rules .expression shapes w w') :
    Checks (w.ReadsAt shapes) (fun _ => False) w w' := by
  generalize hro : Role.expression = role at h
  induction h with
  | nil => exact .refl _
  | cons hfol _ href _ _ ih ih' => exact checks_cons hfol href (ih hro) (ih' hro)
  | name _ hfol hnm href _ ih => exact checks_expression hfol hnm href (ih rfl)
  | enters hnt =>
    subst hro
    nomatch hnt
  | passes hps =>
    subst hro
    exact absurd hps not_false
  | _ => nomatch hro

/-! ## The pass -/

/-- The scopes that may be marked at nodes that stand in a scope: that scope, and those that are opened below them. -/
def MayMark (role : Role) (shapes : List Shape) (scope : ScopeId) (lo hi : Nat) (id : ScopeId) : Prop :=
  (∃ shape ∈ shapes, role.Marks shape.kind) ∧ id = scope ∨ (lo ≤ id.index ∧ id.index < hi)

theorem MayMark.mono {lo' hi' : Nat} {id : ScopeId} (h : MayMark role shapes scope lo hi id)
    (hshs : (∃ shape ∈ shapes, role.Marks shape.kind) → ∃ shape ∈ rest, inner.Marks shape.kind) (hlo : lo' ≤ lo)
    (hhi : hi ≤ hi') :
    MayMark inner rest scope lo' hi' id :=
  h.imp (And.imp_left hshs) fun hbetween => ⟨by omega, by omega⟩

theorem MayMark.of_opened {id : ScopeId} (h : MayMark role shapes opened (opened.index + 1) mid id) (hlo : lo ≤ opened.index)
    (hle : opened.index + 1 ≤ mid) (hhi : mid ≤ hi) : lo ≤ id.index ∧ id.index < hi := by
  rcases h with ⟨_, rfl⟩ | ⟨hle', hlt⟩
  · exact ⟨hlo, by omega⟩
  · exact ⟨by omega, by omega⟩

theorem Follows.children_eq (h : Follows tree (.node id kind children)) (hnd : tree.get? id = some node)
    (hbl : kind ≠ .block) : node.children = children.map Shape.id := by
  obtain ⟨hsm, _, hlsd, _, _⟩ := h
  cases hnd.symm.trans hsm
  exact hlsd hbl

theorem Follows.stands_children {table : SymbolTable} (h : Follows tree (.node id kind children))
    (hnd : tree.get? id = some node) (hstn : Stands tree table inner scope lo hi node.children) :
    ∃ mid ≤ hi, Stands tree table inner scope lo mid (children.map Shape.id) := by
  obtain ⟨hsm, _, _, ⟨others, hoths⟩, _⟩ := h
  cases hnd.symm.trans hsm
  rw [← hoths] at hstn
  obtain ⟨mid, hfst, hrs⟩ := hstn.split
  exact ⟨mid, hrs.le, hfst⟩

/-- A node that is shown and shares its scope with its children. -/
theorem Follows.within (h : Follows w.tree (.node id kind children)) (hinn : role.inner? kind = some inner)
    (hstn : Stands w.tree w.table role scope lo hi [id]) :
    ∃ node, w.tree.get? id = some node ∧ node.scope = some scope ∧
      ∃ mid ≤ hi, Stands w.tree w.table inner scope lo mid (children.map Shape.id) := by
  obtain ⟨node, hnd, hk⟩ := h.exists_node
  obtain ⟨hsc, mid, hmid, hch⟩ := hstn.of_within hnd (hk ▸ hinn)
  obtain ⟨low, hlow, hshown⟩ := h.stands_children hnd hch
  exact ⟨node, hnd, hsc, low, Nat.le_trans hlow hmid, hshown⟩

/-- A node that is shown and opens a scope for its children. -/
theorem Follows.opens (h : Follows w.tree (.node id kind children)) (hinn : role.opens? kind = some inner)
    (hstn : Stands w.tree w.table role scope lo hi [id]) :
    ∃ node opened, w.tree.get? id = some node ∧ Opens w.table scope role node opened inner ∧ lo ≤ opened.index ∧
      ∃ mid ≤ hi, Stands w.tree w.table inner opened (opened.index + 1) mid (children.map Shape.id) := by
  obtain ⟨node, hnd, hk⟩ := h.exists_node
  obtain ⟨opened, hops, hlo, mid, hmid, hch⟩ := hstn.of_opens hnd (hk ▸ hinn)
  obtain ⟨low, hlow, hshown⟩ := h.stands_children hnd hch
  exact ⟨node, opened, hnd, hops, hlo, low, Nat.le_trans hlow hmid, hshown⟩

theorem inner?_of_enters? (h : role.enters? kind = some inner) :
    role.inner? kind = some inner ∧ (∀ other, inner.Marks other → role.Marks kind) ∨ role.opens? kind = some inner := by
  cases role <;> cases kind <;>
    first | exact .inr h | exact .inl ⟨h, fun _ _ => rfl⟩ | nomatch h

theorem Proceeds.checks (h : Proceeds rules role shapes w w')
    (hstn : Stands w.tree w.table role scope lo hi (shapes.map Shape.id)) :
    Checks (w.ReadsAt shapes) (MayMark role shapes scope lo hi) w w' := by
  induction h generalizing scope lo hi with
  | nil => exact .refl _
  | cons hfol _ href _ _ ih ih' =>
    obtain ⟨mid, hone, hoths⟩ := hstn.cons_split
    refine checks_cons hfol href ((ih hone).widen fun _ hid => hid.mono ?_ (Nat.le_refl lo) hoths.le)
      ((ih' (href.stands hoths)).widen fun _ hid => hid.mono ?_ hone.le (Nat.le_refl hi))
    · rintro ⟨other, hoth, hk⟩
      exact ⟨other, List.mem_cons.mpr (.inl (List.mem_singleton.mp hoth)), hk⟩
    · rintro ⟨other, hoth, hk⟩
      exact ⟨other, List.mem_cons_of_mem _ hoth, hk⟩
  | name _ hfol hnm href hrun _ =>
    exact (checks_expression hfol hnm href hrun.checks_expressions).widen nofun
  | @enters _ _ _ _ _ w _ hnt hfol _ ih =>
    rcases inner?_of_enters? hnt with ⟨hinn, hk⟩ | hinn
    · obtain ⟨_, _, _, mid, hmid, hch⟩ := hfol.within hinn hstn
      exact checks_children hfol (.refl (P := fun _ => False) w) (.refl w) ((ih hch).widen fun _ hid =>
        hid.mono (fun ⟨_, _, hmarks⟩ => ⟨_, List.mem_singleton_self _, hk _ hmarks⟩) (Nat.le_refl lo) hmid)
    · obtain ⟨_, _, _, _, hlo, mid, hmid, hch⟩ := hfol.opens hinn hstn
      exact checks_children hfol (.refl (P := fun _ => False) w) (.refl w) ((ih hch).widen fun _ hid =>
        .inr (hid.of_opened hlo hch.le hmid))
  | passes => exact .refl _
  | parameter _ huq hhint => exact (quiet_checkUnique huq).checks.trans (quiet_bindHint hhint).checks
  | use hbi huq =>
    exact (admits_quiet.bindAlias rfl hbi).checks.trans (admits_quiet.checkAliasUnique rfl huq).checks
  | type _ huq => exact (quiet_checkUnique huq).checks
  | constant hfol huq hrun _ =>
    exact checks_children hfol (refers_checkUnique (P := fun _ => False) huq) (quiet_checkUnique huq).checks
      (hrun.checks_expressions.widen nofun)
  | function hfol huq _ _ hclose ih =>
    have href := refers_checkUnique (P := fun _ => False) huq
    obtain ⟨_, _, _, _, hlo, mid, hmid, hch⟩ := hfol.opens rfl hstn
    refine (checks_children hfol href (quiet_checkUnique huq).checks ((ih (href.stands hch)).widen
      fun _ hid => ?_)).trans (admits_quiet.closeBody hclose).checks
    exact .inr (hid.of_opened hlo hch.le hmid)
  | @branches id kind children _ _ _ w _ _ hk hfol _ href hsc hmg ih =>
    have hinn : Role.statement.inner? kind = some .branch ∧ kind.isDeclaration = false := by
      rcases hk with rfl | rfl <;> exact ⟨rfl, rfl⟩
    have hstm : MayMark .statement [.node id kind children] scope lo hi scope :=
      .inl ⟨⟨_, List.mem_singleton_self _, hinn.2⟩, rfl⟩
    obtain ⟨node, hnd, hndScope, mid, hmid, hch⟩ := hfol.within hinn.1 hstn
    obtain ⟨node', hnd', hsc⟩ := scopeOf_eq_ok.mp hsc
    obtain ⟨kept, hkt, hsm⟩ := href.kept hnd
    cases hnd'.symm.trans hkt
    cases hsc.symm.trans (hsm.scope.trans hndScope)
    refine (checks_children hfol (.refl (P := fun _ => False) w) (.refl w) ((ih hch).widen fun id hid => ?_)).trans
      ((checks_mergeBranches hmg).widen fun id hid => hid ▸ hstm)
    rcases hid with ⟨⟨_, _, hno⟩, _⟩ | ⟨hle, hlt⟩
    · exact absurd hno not_false
    · exact .inr ⟨hle, by omega⟩
  | @assignment id target value w w₁ w' hfol hrun href hwr =>
    obtain ⟨node, hnd, hk⟩ := hfol.exists_node
    obtain ⟨_, ⟨written, hthr, hsc⟩, _⟩ := hstn.of_assignment hnd hk (hfol.children_eq hnd (by simp))
    obtain ⟨written', hthr', hkt⟩ := href.kept hthr
    refine (hrun.checks_expressions.mono (fun _ hreads => hreads.mono fun x hx => ?_) nofun).trans
      ((checks_markWritten hthr' (hkt.scope.trans hsc) hwr).widen fun _ hown => ?_)
    · exact hasAny_singleton.mpr (.inside (List.mem_cons_of_mem _ (List.mem_singleton_self _)) (hasAny_singleton.mp hx))
    · exact .inl ⟨⟨_, List.mem_singleton_self _, rfl⟩, hown⟩

end Workspace

end SoftTyping
