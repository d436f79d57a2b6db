import SoftTyping.Proofs.Analysis.Bodies

/-!
# Reports of reads and the paths to them

A read of a local variable in the body of a function or a namespace is reported as not initialised exactly if some path
from the start of the body to the read does not write the variable, where returns are passed (`definite_assignment`).
-/

namespace SoftTyping.Workspace

open Step Shape

variable {w w' w₁ w₂ v v' f : Workspace} {P part outer : NodeId → Prop} {id r : NodeId} {scope inner opened : ScopeId}
  {rules : NameRules} {u u' : Unit} {role : Role} {lo mid hi : Nat} {shape first : Shape}
  {shapes body children rest : List Shape}
  {node : Node} {kind : NodeKind} {x : SymbolId} {position : Position} {seen seen' : SymbolId → Prop}

/-! ## Coming to a read -/

/-- A run over nodes that stand in a scope comes to a read, and finds some variables initialised there. -/
def MeetsRead (rules : NameRules) (f : Workspace) (outer : NodeId → Prop) (scope : ScopeId) (r : NodeId)
    (seen : SymbolId → Prop) (w w' : Workspace) : Prop :=
  ∃ inner lo hi children v v', Comes rules f outer .expression inner lo hi [.node r .variableRef children] w v v' w' ∧
    (∀ found, f.table.home scope = .ok found → f.table.home inner = .ok found) ∧
    ∀ x, v.table.fullyInitialised inner x = true ↔ seen x

theorem MeetsRead.extend {outer' : NodeId → Prop} (h : MeetsRead rules f outer scope r seen w w')
    (hbef : Aside f outer w₁ w) (haf : Aside f outer w' w₂) (hou : ∀ id, outer id → outer' id)
    (hseen : ∀ x, seen x ↔ seen' x) : MeetsRead rules f outer' scope r seen' w₁ w₂ := by
  obtain ⟨inner, lo, hi, children, v, v', hcm, hhm, hsee⟩ := h
  exact ⟨inner, lo, hi, children, v, v', hcm.extend (hbef.mono hcm.inside) (haf.mono hcm.inside) hou, hhm,
    fun x => (hsee x).trans (hseen x)⟩

theorem aside_referName (hnd : w.tree.get? id = some node) (hk : node.kind = kind)
    (h : referName rules id kind w = .ok u w') (hf : Refers P w' f) (hid : ¬ part id) : Aside f part w w' := by
  have href := refers_referName hnd hk h
  refine ⟨href.mono fun other hoth => hoth ▸ hid, (checks_referName hnd hk h).mono ?_ fun _ hown => hown⟩
  rintro _ ⟨rfl, rfl⟩
  obtain ⟨node', hnd', hkt⟩ := (href.onward hf).kept hnd
  exact ⟨id, node', hid, hnd', hkt.kind.trans hk, hkt.position⟩

/-- A read in one of some expressions or branches. -/
theorem meetsRead_of_mem (hrdy : Pending role scope lo hi shapes w) (hno : ∀ kind, ¬ role.Marks kind) (hsh : shape ∈ shapes)
    (h : referIn rules role shapes w = .ok u w') (hf : Refers P w' f)
    (hone : ∀ {lo hi v v'}, Pending role scope lo hi [shape] v → referIn rules role [shape] v = .ok () v' →
      Refers (fun _ => True) v' f →
      MeetsRead rules f shape.Has scope r (fun x => v.table.fullyInitialised scope x = true) v v') :
    MeetsRead rules f (HasAny shapes) scope r (fun x => w.table.fullyInitialised scope x = true) w w' := by
  obtain ⟨_, _, v, v', _, hcm, hbef, _⟩ := comes_of_mem hrdy hno hsh h hf
  have hhas : ∀ id, shape.Has id → HasAny [shape] id := fun _ => hasAny_singleton.mpr
  exact (hone hcm.pending hcm.run (hcm.later hf)).extend (hcm.before.mono hhas) (hcm.after.mono hhas)
    (fun id hid => ⟨shape, hsh, hid⟩) fun x => hrdy.full_of_marks hcm.before.refers hbef

theorem meetsRead_of_reads (hre : shape.Reads r) (hrdy : Pending .expression scope lo hi [shape] w)
    (h : referIn rules .expression [shape] w = .ok u w') (hf : Refers P w' f) :
    MeetsRead rules f shape.Has scope r (fun x => w.table.fullyInitialised scope x = true) w w' := by
  induction hre generalizing lo hi w w' u P with
  | here =>
    exact ⟨scope, lo, hi, _, w, w', ⟨hrdy, h, fun _ => hasAny_singleton.mp, .refl w, .refl w'⟩, fun _ hhm => hhm,
      fun _ => Iff.rfl⟩
  | @inside id r kind child children hcd _ ih =>
    simp only [referIn, referExpressions, referExpression, bind_eq_ok, pure_eq_ok] at h
    obtain ⟨_, _, ⟨_, w₁, hnm, hch⟩, _, rfl⟩ := h
    obtain ⟨node, hnd, hk⟩ := (hrdy.follows _ (List.mem_singleton_self _)).exists_node
    obtain ⟨_, _, hins⟩ := hrdy.within (show Role.expression.inner? kind = some .expression by rfl)
    have hck : Checks _ (fun _ => False) w w₁ := checks_referName hnd hk hnm
    have href := refers_referName hnd hk hnm
    have hins₁ := hins.keep href fun id _ _ => hck.marks id not_false
    have hid : ¬ HasAny children id := by
      cases hrdy.distinct with
      | cons hid _ _ _ => exact hid
    exact (meetsRead_of_mem hins₁ (fun _ => not_false) hcd hch hf ih).extend
      (aside_referName hnd hk hnm ((hins₁.visits hch).refers.onward hf) hid) (.refl w') (fun _ hid => has_node.mpr (.inr hid))
      fun x => hins.full_of_marks href fun id _ => hck.marks id not_false

/-! ## Reads in statements -/

/-- A condition is visited as an expression. -/
theorem Pending.condition (h : Pending .branch scope lo hi [shape] w) (hk : shape.kind ≠ .block)
    (hrun : referIn rules .branch [shape] w = .ok u w') :
    Pending .expression scope lo hi [shape] w ∧ referIn rules .expression [shape] w = .ok () w' := by
  refine ⟨h.narrow (h.toReady.condition hk) (Nat.le_refl lo) (Nat.le_refl hi) h.below, ?_⟩
  obtain ⟨id, kind, children⟩ := shape
  rcases referIn_branch hrun with ⟨hbl, _⟩ | ⟨_, hrun⟩
  · exact absurd hbl hk
  · exact bind_eq_ok.mpr ⟨_, _, hrun, rfl⟩

theorem MeetsRead.of_first (h : MeetsRead rules f first.Has scope r seen w w₁)
    (hspl : Splits rules role scope lo mid hi first rest w w₁ w') (hrdy : Pending role scope lo hi (first :: rest) w)
    (hf : Refers P w' f) (hseen : ∀ x, seen x ↔ seen' x) : MeetsRead rules f (HasAny (first :: rest)) scope r seen' w w' :=
  h.extend (.refl w) (hspl.visitsRest.aside hf fun _ hid hfst => hrdy.disjoint hfst hid)
    (fun _ hid => hasAny_cons.mpr (.inl hid)) hseen

/-- A read in the block of a conditional or a loop. -/
theorem meetsRead_of_block {blockId : NodeId} (hrdy : Pending .branch scope lo hi shapes w)
    (hbl : .node blockId .block body ∈ shapes)
    (h : referIn rules .branch shapes w = .ok u w') (hf : Refers P w' f)
    (hone : ∀ {inner lo hi v v'}, Pending .statement inner lo hi body v → referStatements rules body v = .ok () v' →
      Refers (fun _ => True) v' f → MeetsRead rules f (HasAny body) inner r
        (fun x => v.table.fullyInitialised inner x = true ∨ ¬ AvoidsUpto (v.Writes x) body r) v v') :
    MeetsRead rules f (HasAny shapes) scope r
      (fun x => w.table.fullyInitialised scope x = true ∨ ¬ AvoidsUpto (w.Writes x) body r) w w' := by
  obtain ⟨_, _, v, v', _, hcm, hbef, _⟩ := comes_of_mem hrdy (fun _ => not_false) hbl h hf
  obtain ⟨opened, entry, _, _, _, _, hins, _, _, he, hk, hou, hst⟩ := hcm.pending.branch
  have hrun : referStatements rules body v = .ok () v' := by
    rcases referIn_branch hcm.run with ⟨_, hrun⟩ | ⟨hno, _⟩
    · exact hrun
    · exact absurd rfl hno
  have hhas : ∀ id, HasAny body id → HasAny [.node blockId .block body] id :=
    fun _ hid => hasAny_singleton.mpr (has_node.mpr (.inr hid))
  obtain ⟨inner, lo, hi, children, v₁, v₁', hcm₁, hhm, hsee⟩ := hone hins hrun (hcm.later hf)
  refine ⟨inner, lo, hi, children, v₁, v₁', hcm₁.extend (hcm.before.mono fun id hid => hhas id (hcm₁.inside id hid))
    (hcm.after.mono fun id hid => hhas id (hcm₁.inside id hid)) fun id hid => ⟨_, hbl, has_node.mpr (.inr hid)⟩,
    fun found hfound => hhm found ?_, fun x => ?_⟩
  · have hlater := (hins.visits hrun).refers.onward (hcm.later hf)
    obtain ⟨entry', he', henc, hout⟩ := hlater.table.scopes.scope he
    exact (hlater.rooted hins.rooted).home_branch he' ((SymbolTable.isConditional_of_outline hout).trans hk)
      (henc.trans hou) hfound
  · have hwrs : ∀ target, Target body target → (v.Writes x target ↔ w.Writes x target) := fun target ht =>
      hcm.before.refers.writes_iff (not_not_intro (hhas target ht.hasAny)) (hrdy.there ⟨_, hbl, has_node.mpr (.inr ht.hasAny)⟩)
    beta_reduce at hsee ⊢
    rw [hsee, hst, hrdy.full_of_marks hcm.before.refers hbef, avoidsUpto_congr hwrs]

/-- A run over structured statements comes to each read in them. A variable is initialised there if it was so before, or if no
path to the read avoids writing it. -/
theorem meetsRead_of_readsIn (hre : ReadsIn shapes r) (hstr : Structured shapes)
    (hrdy : Pending .statement scope lo hi shapes w)
    (h : referStatements rules shapes w = .ok u w') (hf : Refers P w' f) :
    MeetsRead rules f (HasAny shapes) scope r
      (fun x => w.table.fullyInitialised scope x = true ∨ ¬ AvoidsUpto (w.Writes x) shapes r) w w' := by
  induction hre generalizing scope lo hi w w' u P with
  | @simple id r kind children rest hk hre =>
    obtain ⟨_, w₁, hspl⟩ := hrdy.splits h
    obtain ⟨_, _, hins⟩ := hspl.pending.within (show Role.statement.inner? kind = some .expression by
      cases kind <;> first | rfl | cases hk)
    obtain ⟨_, _, hrun, hnil⟩ := bind_eq_ok.mp hspl.run
    cases (pure_eq_ok.mp hnil).2
    have hrun : referIn rules .expression children w = .ok () w₁ := by
      cases kind <;> first | exact hrun | cases hk
    obtain ⟨shape, hsh, hre⟩ := hre
    have hmeets := meetsRead_of_mem hins (fun _ => not_false) hsh hrun (hspl.visitsRest.refers.onward hf)
      (meetsRead_of_reads hre)
    exact (hmeets.extend (.refl w) (.refl w₁) (fun _ hid => has_node.mpr (.inr hid)) fun _ => Iff.rfl).of_first hspl hrdy hf
      fun x => (or_iff_left (not_not_intro ⟨[], .simple hk ⟨shape, hsh, hre⟩, List.forall_mem_nil _⟩)).symm
  | @value id r target value rest hre =>
    obtain ⟨_, w₁, hspl⟩ := hrdy.splits h
    obtain ⟨_, _, hmid, _, _, hins, _⟩ := hspl.pending.assignment
    have hins := hspl.pending.narrow hins (Nat.le_refl lo) hmid hrdy.below
    obtain ⟨_, _, hrun, hnil⟩ := bind_eq_ok.mp hspl.run
    cases (pure_eq_ok.mp hnil).2
    simp only [referStatement, bind_eq_ok] at hrun
    obtain ⟨_, v, hvl, hmark⟩ := hrun
    have hwr : Aside f value.Has v w₁ := by
      refine ⟨refers_markWritten hmark, fun _ hno => absurd trivial hno, [], ?_, List.forall_mem_nil _⟩
      obtain ⟨_, _, _, _, _, _, _, _, rfl⟩ := markWritten_eq_ok hmark
      exact (List.append_nil _).symm
    have hmeets := meetsRead_of_reads hre hins (bind_eq_ok.mpr ⟨_, v, hvl, rfl⟩)
      (hwr.refers.onward (hspl.visitsRest.refers.onward hf))
    refine (hmeets.extend (.refl w) hwr (fun _ hid => .inside (List.mem_cons_of_mem _ List.mem_cons_self) hid)
      fun _ => Iff.rfl).of_first hspl hrdy hf
      fun x => (or_iff_left (not_not_intro ⟨[], .value hre, List.forall_mem_nil _⟩)).symm
  | condition hk hre =>
    obtain ⟨_, w₁, hspl⟩ := hrdy.splits h
    obtain ⟨_, v, hins, hrun, haf⟩ := hspl.pending.conditional hk hspl.run
    have hmeets := meetsRead_of_mem hins (fun _ => not_false) List.mem_cons_self hrun
      ((haf f fun _ => False).refers.onward (hspl.visitsRest.refers.onward hf)) fun hrdy hrun => by
        obtain ⟨hrdy, hrun⟩ := hrdy.condition (hstr.parts hk).1 hrun
        exact meetsRead_of_reads hre hrdy hrun
    refine (hmeets.extend (.refl w) (haf f _) (fun _ hid => has_node.mpr (.inr hid)) fun _ => Iff.rfl).of_first hspl hrdy hf
      fun x => (or_iff_left (not_not_intro ?_)).symm
    rcases hk with rfl | rfl
    · exact ⟨[], .condition hre, List.forall_mem_nil _⟩
    · obtain ⟨_, ⟨_, _, rfl, _⟩ | ⟨hk, _⟩⟩ := hstr.parts (.inr rfl)
      · exact ⟨[], .loopCondition hre, List.forall_mem_nil _⟩
      · cases hk
  | block hk hbl hre ih =>
    obtain ⟨_, w₁, hspl⟩ := hrdy.splits h
    obtain ⟨_, v, hins, hrun, haf⟩ := hspl.pending.conditional hk hspl.run
    have hmeets := meetsRead_of_block hins (List.mem_cons_of_mem _ hbl) hrun
      ((haf f fun _ => False).refers.onward (hspl.visitsRest.refers.onward hf)) (ih (hstr.block hk hbl))
    exact (hmeets.extend (.refl w) (haf f _) (fun _ hid => has_node.mpr (.inr hid)) fun _ => Iff.rfl).of_first hspl hrdy hf
      fun x => by rw [avoidsUpto_block hstr hk hbl hrdy.distinct hre.hasAny]
  | @later first rest r hre ih =>
    obtain ⟨_, w₁, hspl⟩ := hrdy.splits h
    have hassigns := statementsAssigned rules hstr.head hspl.pending hspl.run
    have hmeets := ih hstr.tail hspl.pendingRest hspl.runRest hf
    refine hmeets.extend (hspl.visits.aside (hspl.visitsRest.refers.onward hf) fun id hid =>
      hrdy.disjoint (hasAny_singleton.mp hid))
      (.refl w') (fun _ hid => hasAny_cons.mpr (.inr hid)) fun x => ?_
    have hwrs : ∀ target, Target rest target → (w₁.Writes x target ↔ w.Writes x target) := fun target ht =>
      hspl.visits.refers.writes_iff (fun hfst => hrdy.disjoint (hasAny_singleton.mp hfst) ht.hasAny)
        (hrdy.there (hasAny_cons.mpr (.inr ht.hasAny)))
    have hnot : ¬ AvoidsUpto (w.Writes x) [first] r := fun h => hrdy.disjoint (hasAny_singleton.mp h.hasAny) hre.hasAny
    rw [hassigns.full, avoidsUpto_congr hwrs, avoidsUpto_cons, or_iff_right hnot, not_and_or, or_assoc]

/-! ## Reports -/

/-- Between two states it is reported that a variable which is read at some place is not initialised. -/
def Raises (w w' : Workspace) (position : Position) : Prop :=
  ∃ added, w'.issues.issues = w.issues.issues ++ added ∧
    ∃ issue ∈ added, issue.kind.isInitialisation = true ∧ issue.position = position

theorem raises_iff_drop : Raises w w' position ↔ w.issues.issues <+: w'.issues.issues ∧
    ∃ issue ∈ w'.issues.issues.drop w.issues.issues.length, issue.kind.isInitialisation = true ∧ issue.position = position := by
  constructor
  · rintro ⟨added, hadded, his⟩
    rw [hadded, List.drop_left]
    exact ⟨List.prefix_append _ _, his⟩
  · rintro ⟨⟨added, hadded⟩, his⟩
    rw [← hadded, List.drop_left] at his
    exact ⟨added, hadded.symm, his⟩

instance : Decidable (Raises w w' position) := decidable_of_iff _ raises_iff_drop.symm

theorem Raises.extend {reads : Position → Prop} {owns : ScopeId → Prop} (h : Raises v v' position)
    (hbef : Checks reads owns w v) (haf : Checks reads owns v' w') : Raises w w' position := by
  obtain ⟨added, hadded, issue, his, hk⟩ := h
  obtain ⟨before, hbefore, _⟩ := hbef.issues
  obtain ⟨after, hafter, _⟩ := haf.issues
  refine ⟨before ++ added ++ after, ?_, issue, List.mem_append_left _ (List.mem_append_right _ his), hk⟩
  rw [hafter, hadded, hbefore, List.append_assoc, List.append_assoc, List.append_assoc]

/-- At most one node reads a variable at some place. -/
def ReadsOnce (w : Workspace) (r : NodeId) (position : Position) : Prop :=
  ∀ id node, w.tree.get? id = some node → node.kind = .variableRef → node.position = position → id = r

theorem readsOnce_iff : w.ReadsOnce r position ↔ ∀ index < w.tree.size,
    ∀ node ∈ w.tree.get? ⟨index⟩, node.kind = .variableRef → node.position = position → ⟨index⟩ = r :=
  ⟨fun h index _ => h ⟨index⟩, fun h id node hnd => h id.index (Tree.lt_size_of_get? hnd) node hnd⟩

instance : Decidable (w.ReadsOnce r position) := decidable_of_iff _ readsOnce_iff.symm

theorem Checks.not_raises {owns : ScopeId → Prop} (h : Checks (f.ReadsBeside (· = r)) owns w w')
    (honce : f.ReadsOnce r position) : ¬ Raises w w' position := by
  rintro ⟨added, hadded, issue, his, hk, rfl⟩
  obtain ⟨same, hsm, hreads⟩ := h.issues
  rw [List.append_cancel_left (hadded.symm.trans hsm)] at his
  obtain ⟨id, node, hid, hnd⟩ := hreads issue his hk
  exact hid (honce id node hnd.1 hnd.2.1 hnd.2.2)

/-- A read of a local variable is reported if the variable is not initialised when it is visited, and only then if no other
read is at its place. -/
theorem Comes.raises_iff (h : Comes rules w' outer .expression scope lo hi [.node r .variableRef children] w v v' w')
    (hnd : w'.tree.get? r = some node) (hsym : node.symbol = some x) (hvb : w'.table.IsVariableOf scope x)
    (hsup : ∀ symbol data, w'.table.symbol? x = some symbol → symbol.var? = some data → data.isSuperGlobal = false) :
    (v.table.fullyInitialised scope x ≠ true → Raises w w' node.position) ∧
      (w'.ReadsOnce r node.position → Raises w w' node.position → v.table.fullyInitialised scope x ≠ true) := by
  have hrun := h.run
  simp only [referIn, referExpressions, referExpression, referName, bind_eq_ok, pure_eq_ok] at hrun
  obtain ⟨_, _, ⟨_, v₂, ⟨_, v₁, hbi, hcheck⟩, hch⟩, _, rfl⟩ := hrun
  obtain ⟨old, hold, hk⟩ := (h.pending.follows _ (List.mem_singleton_self _)).exists_node
  obtain ⟨hsc, _⟩ := h.pending.stands.of_within hold rfl
  obtain ⟨_, _, hins⟩ := h.pending.within (show Role.expression.inner? .variableRef = some .expression by rfl)
  have href := refers_bindNode hold (by rw [hk]; rfl) hbi
  have hquiet : Quiet v v₁ := quiet_bindNode rfl hbi
  obtain ⟨bound, hbo, hkt⟩ := href.kept hold
  obtain ⟨same, y, scope', found, hsm, hy, hsc', hf, hresult⟩ := checkWritten_eq_ok hcheck
  cases hbo.symm.trans hsm
  cases hsc'.symm.trans (hkt.scope.trans hsc)
  have hv₂ : v₂.tree = v₁.tree ∧ v₂.table = v₁.table := by
    rcases hresult with ⟨_, rfl⟩ | ⟨_, _, _, hrep⟩
    · exact ⟨rfl, rfl⟩
    · rw [report_eq_ok.mp hrep]
      exact ⟨rfl, rfl⟩
  -- The node is not touched again.
  have hins₂ : Pending .expression scope lo _ children v₂ :=
    hins.keep (href.onward (refers_checkWritten (P := fun _ => False) hcheck))
    fun id _ _ => hv₂.2 ▸ hquiet.marks id not_false
  have hhas : ∀ id, id = r → HasAny [.node r .variableRef children] id := fun id hid => hasAny_singleton.mpr (hid ▸ .here)
  have hbef : Aside w' (· = r) w v := h.before.mono hhas
  have haf : Aside w' (· = r) v₂ w' := by
    refine ((hins₂.visits hch).aside (h.later (.refl (P := fun _ => False) w')) fun id hid heq => ?_).trans (h.after.mono hhas)
    cases h.pending.distinct with
    | cons hno _ _ _ => exact hno (heq ▸ hid)
  cases hnd.symm.trans (haf.refers.frame (not_not_intro rfl) (hv₂.1 ▸ hbo))
  cases hy.symm.trans hsym
  have hrt₁ := href.rooted h.pending.rooted
  have hlater : Refers (fun _ => True) v₁ w' := (refers_checkWritten (P := fun _ => False) hcheck).onward haf.refers
  obtain ⟨hno, hkinds⟩ := SymbolTable.writtenIssue?_local hrt₁ (hlater.rooted hrt₁) hlater.table.scopes
    (SymbolTable.keepsSymbols_of_binds hlater.binds) hvb hsup hf
  rw [h.pending.full_of_marks href fun id _ => hquiet.marks id not_false] at hno
  refine ⟨fun hnot => ?_, fun honce hra hfu => ?_⟩
  · rcases hresult with ⟨hnone, _⟩ | ⟨issueKind, name, hsome, hrep⟩
    · exact absurd (hno.mp hnone) hnot
    · refine Raises.extend ?_ (hbef.checks.trans (hquiet.checks)) haf.checks
      rw [report_eq_ok.mp hrep]
      exact ⟨[_], rfl, _, List.mem_singleton_self _, hkinds issueKind name hsome, rfl⟩
  · rcases hresult with ⟨_, rfl⟩ | ⟨issueKind, name, hsome, _⟩
    · exact (hbef.checks.trans (hquiet.checks.trans haf.checks)).not_raises honce hra
    · rw [hno.mpr hfu] at hsome
      cases hsome

/-- A read of a local variable in a body is reported if some path to it avoids writing the variable, and only then if no
other read is at its place. -/
theorem Enters.raises_iff_avoidsUpto (h : Enters rules w' shapes body opened lo hi w v v' w')
    (hknows : w'.table.KnowsSuperGlobals)
    (hstr : Structured body) (hre : ReadsIn body r) (hnd : w'.tree.get? r = some node)
    (hsym : node.symbol = some x) (hsc : node.scope = some scope) (hvb : w'.table.IsVariableOf scope x) :
    (AvoidsUpto (w'.Writes x) body r → Raises w w' node.position) ∧
      (w'.ReadsOnce r node.position → Raises w w' node.position → AvoidsUpto (w'.Writes x) body r) := by
  obtain ⟨inner, _, _, _, v₁, v₁', hcm, hhm, hsee⟩ :=
    meetsRead_of_readsIn hre hstr h.pending h.run (h.later (.refl (P := fun _ => False) w'))
  have hcm := hcm.extend (h.before.mono hcm.inside) (h.after.mono hcm.inside) fun _ hid => hid
  have hlater := (h.pending.visits h.run).refers.onward h.after.refers
  have hrt := hlater.rooted h.pending.rooted
  obtain rfl : inner = scope := by
    obtain ⟨old, hold, _⟩ := (hcm.pending.follows _ (List.mem_singleton_self _)).exists_node
    obtain ⟨hinn, _⟩ := hcm.pending.stands.of_within hold rfl
    obtain ⟨kept, hkt, hsm⟩ := ((hcm.pending.visits hcm.run).refers.onward hcm.after.refers).kept hold
    cases hnd.symm.trans hkt
    exact Option.some.inj ((hsm.scope.trans hinn).symm.trans hsc)
  obtain ⟨hraised, havoided⟩ := hcm.raises_iff hnd hsym hvb fun symbol data hsym hdt => by
    obtain ⟨entry, he, hcdl, hglobal⟩ := h.home.keeps hlater.table.scopes
    exact hvb.not_superGlobal hrt hknows (hhm _ (hrt.home_self he hcdl)) hglobal hsym hdt
  -- Nothing is initialised at the start of the body.
  have hnotFull : v.table.fullyInitialised opened x ≠ true := by
    obtain ⟨entry, he, hcdl, _⟩ := h.home
    rw [Ne, h.pending.rooted.fullyInitialised_home he hcdl, h.unmarked]
    nofun
  have hwrs : ∀ target, Target body target → (v.Writes x target ↔ w'.Writes x target) := by
    intro target ht
    obtain ⟨old, hold⟩ := h.pending.there ht.hasAny
    have hnew := h.after.refers.frame (not_not_intro ht.hasAny)
      ((statementsAssigned rules hstr h.pending h.run).targets ht hold)
    rw [Writes, Writes, hold, hnew]
  have hiff : v₁.table.fullyInitialised inner x ≠ true ↔ AvoidsUpto (w'.Writes x) body r := by
    beta_reduce at hsee
    rw [Ne, hsee, or_iff_right hnotFull, not_not, avoidsUpto_congr hwrs]
  exact ⟨fun havo => hraised (hiff.mpr havo), fun honce hra => hiff.mp (havoided honce hra)⟩

/-! ## Programs -/

theorem Touches.statements_eq (h : Touches P w w₁) : w₁.statements = w.statements :=
  congrArg children (h.tree.shape_eq Tree.root)

theorem ready_statements (hwf : w.tree.WellFormed) (hrt : w.table.Rooted) (h : declareAll w = .ok u w₁) :
    Ready .statement w.table.defaultNamespace w.table.scopes.size w₁.table.scopes.size w₁.statements w₁ := by
  have hdec := stands_declareAll hwf h
  have hwf₁ := hdec.touches.tree.wellFormed hwf
  have hap := apart_statements hwf₁
  have hrt₁ : w₁.table.Rooted := SymbolTable.keeps_of_changes hdec.touches.declares SymbolTable.Declares.rooted hrt
  refine ⟨fun shape hsh => follows_of_isShape hwf₁ (hap.isShape shape hsh) (hap.isThere shape hsh),
    hap.distinct hwf₁, hdec.touches.statements_eq ▸ hdec.stands, hrt₁, ?_⟩
  obtain ⟨entry, _, he, _⟩ := hrt.special 0 (by omega)
  obtain ⟨entry₁, he₁, _⟩ := hdec.touches.table.scopes.scope he
  exact ⟨entry₁, he₁⟩

/-- A read of a local variable is reported exactly if not every path to it assigns the variable. If nothing is reported,
each path from the start of the body to the read writes the variable before; if something is reported, some path on which
returns are passed does not. -/
theorem definite_assignment {generation : Generation} {libraries : List Library}
    (hlibraries : SymbolTable.withLibraries generation libraries = .ok w.table) (hwf : w.tree.WellFormed)
    (hdeclare : declareAll w = .ok u w₁) (hrefer : referAll rules w₁ = .ok u' w₂)
    (hbody : Shape.Body .statement w.statements body) (hstructured : Shape.Structured body)
    (hread : Shape.ReadsIn body r) (hnode : w₂.tree.get? r = some node) (hsymbol : node.symbol = some x)
    (hscope : node.scope = some scope) (hvariable : w₂.table.IsVariableOf scope x) :
    (¬ Raises w₁ w₂ node.position → ∀ written, Shape.Reaches true body r written → ∃ target ∈ written, w₂.Writes x target) ∧
      (w₂.ReadsOnce r node.position → Raises w₁ w₂ node.position →
        ∃ written, Shape.Reaches false body r written ∧ ∀ target ∈ written, ¬ w₂.Writes x target) := by
  have hrooted := SymbolTable.rooted_withLibraries hlibraries
  have htouches := (stands_declareAll hwf hdeclare).touches
  have hunmarked : w₁.table.Unmarked := SymbolTable.keeps_of_changes htouches.declares SymbolTable.Declares.unmarked
    (SymbolTable.unmarked_withLibraries hlibraries)
  obtain ⟨entry, _, hentry, _⟩ := hrooted.special 0 (by omega)
  have hpending : Pending .statement w.table.defaultNamespace w.table.scopes.size w₁.table.scopes.size w₁.statements w₁ :=
    ⟨ready_statements hwf hrooted hdeclare, SymbolTable.lt_size_of_scope? hentry, fun id _ _ => hunmarked.marks_eq id⟩
  have hrefers := refers_referAll (htouches.tree.wellFormed hwf) hrefer
  have hknows : w₂.table.KnowsSuperGlobals :=
    SymbolTable.keeps_of_changes hrefers.binds SymbolTable.Binds.knowsSuperGlobals
      (SymbolTable.keeps_of_changes htouches.declares SymbolTable.Declares.knowsSuperGlobals
        (SymbolTable.knowsSuperGlobals_withLibraries hlibraries))
  simp only [referAll, Step.bind_eq_ok, Step.get_eq_ok] at hrefer
  obtain ⟨_, w₁, ⟨rfl, rfl⟩, hrun⟩ := hrefer
  rw [← htouches.statements_eq] at hbody
  obtain ⟨opened, lo, hi, v, v', henters⟩ := enters_of_body hbody hpending hrun (.refl (P := fun _ => False) w₂)
  obtain ⟨hraised, havoided⟩ :=
    henters.raises_iff_avoidsUpto hknows hstructured hread hnode hsymbol hscope hvariable
  refine ⟨fun hsilent written hreaches => ?_, havoided⟩
  by_contra hnone
  exact hsilent (hraised ⟨written, hreaches.unstopped, fun target htarget hwrites => hnone ⟨target, htarget, hwrites⟩⟩)

/-- A function that writes `$x` in both branches of a conditional, and `$y` in a loop only. -/
def branchingProgram : List SourceTree :=
  [.node .functionDecl "f" ⟨1, 1⟩ [.node .block "" ⟨1, 2⟩ [
    .node .ifStmt "" ⟨2, 1⟩ [.node (.literal .bool) "true" ⟨2, 2⟩ [],
      .node .block "" ⟨3, 1⟩ [
        .node .assign "" ⟨3, 2⟩ [.node .variableRef "$x" ⟨3, 3⟩ [], .node (.literal .int) "1" ⟨3, 4⟩ []]],
      .node .block "" ⟨4, 1⟩ [
        .node .assign "" ⟨4, 2⟩ [.node .variableRef "$x" ⟨4, 3⟩ [], .node (.literal .int) "2" ⟨4, 4⟩ []]]],
    .node .whileStmt "" ⟨5, 1⟩ [.node (.literal .bool) "true" ⟨5, 2⟩ [],
      .node .block "" ⟨6, 1⟩ [
        .node .assign "" ⟨6, 2⟩ [.node .variableRef "$y" ⟨6, 3⟩ [], .node .variableRef "$x" ⟨6, 4⟩ []]]],
    .node .echoStmt "" ⟨7, 1⟩ [.node .variableRef "$y" ⟨7, 2⟩ []]]]]

/-- The body of the function. -/
def branchingBody : List Shape :=
  [.node ⟨3⟩ .ifStmt [.node ⟨4⟩ (.literal .bool) [],
      .node ⟨5⟩ .block [.node ⟨6⟩ .assign [.node ⟨7⟩ .variableRef [], .node ⟨8⟩ (.literal .int) []]],
      .node ⟨9⟩ .block [.node ⟨10⟩ .assign [.node ⟨11⟩ .variableRef [], .node ⟨12⟩ (.literal .int) []]]],
    .node ⟨13⟩ .whileStmt [.node ⟨14⟩ (.literal .bool) [],
      .node ⟨15⟩ .block [.node ⟨16⟩ .assign [.node ⟨17⟩ .variableRef [], .node ⟨18⟩ .variableRef []]]],
    .node ⟨19⟩ .echoStmt [.node ⟨20⟩ .variableRef []]]

def branchingStart : Workspace := { tree := .ofProgram branchingProgram, table := .new 0, flow := .empty, issues := {} }

/-- The workspace that a step leaves. -/
def left {α : Type} : EStateM.Result Fault Workspace α → Workspace
  | .ok _ w | .error _ w => w

theorem eq_ok_left {result : EStateM.Result Fault Workspace Unit} (h : result matches .ok ..) :
    result = .ok () (left result) := by
  cases result with
  | ok => rfl
  | error => nomatch h

def branchingDeclared : Workspace := left (declareAll branchingStart)

def branchingReferred : Workspace := left (referAll ⟨Resolver.standard, true⟩ branchingDeclared)

/-- Every path to the read of `$x` in the loop writes it; the loop may be left before `$y` is written. -/
theorem definite_assignment_branching :
    (∀ written, Shape.Reaches true branchingBody ⟨18⟩ written → ∃ target ∈ written, branchingReferred.Writes ⟨0, 2⟩ target) ∧
      ∃ written, Shape.Reaches false branchingBody ⟨20⟩ written ∧ ∀ target ∈ written, ¬ branchingReferred.Writes
        ⟨0, 3⟩ target := by
  have hdeclare : declareAll branchingStart = .ok () branchingDeclared := eq_ok_left (by decide +kernel)
  have hrefer : referAll ⟨Resolver.standard, true⟩ branchingDeclared = .ok () branchingReferred :=
    eq_ok_left (by decide +kernel)
  have hbody : Shape.Body .statement branchingStart.statements branchingBody :=
    (.ofFunction .here : Shape.Body .statement [.node ⟨1⟩ .functionDecl [.node ⟨2⟩ .block branchingBody]] branchingBody)
  have hstructured : Shape.Structured branchingBody :=
    .ifElse (by rintro ⟨⟩) (.assign .nil) (.assign .nil) (.loop (by rintro ⟨⟩) (.assign .nil) (.simple rfl .nil))
  have hfirst : Shape.ReadsIn branchingBody ⟨18⟩ :=
    .later (.block (.inr rfl) (List.mem_singleton_self _) (.value .here))
  have hsecond : Shape.ReadsIn branchingBody ⟨20⟩ :=
    .later (.later (.simple rfl ⟨_, List.mem_singleton_self _, .here⟩))
  obtain ⟨read, hread, hsymbol, hscope, hposition⟩ : ∃ node ∈ branchingReferred.tree.get? ⟨18⟩,
    node.symbol = some ⟨0, 2⟩ ∧ node.scope = some ⟨0, 6⟩ ∧ node.position = ⟨6, 4⟩ := by decide +kernel
  obtain ⟨read', hread', hsymbol', hscope', hposition'⟩ : ∃ node ∈ branchingReferred.tree.get? ⟨20⟩,
    node.symbol = some ⟨0, 3⟩ ∧ node.scope = some ⟨0, 3⟩ ∧ node.position = ⟨7, 2⟩ := by decide +kernel
  have hlibraries : SymbolTable.withLibraries 0 [] = .ok branchingStart.table := rfl
  have hwf : branchingStart.tree.WellFormed := Tree.wellFormed_ofProgram branchingProgram
  refine ⟨(definite_assignment hlibraries hwf hdeclare hrefer hbody hstructured hfirst hread hsymbol hscope
      (by decide +kernel)).1 ?_,
    (definite_assignment hlibraries hwf hdeclare hrefer hbody hstructured hsecond hread' hsymbol' hscope'
      (by decide +kernel)).2 ?_ ?_⟩
  · rw [hposition]
    decide +kernel
  · rw [hposition']
    decide +kernel
  · rw [hposition']
    decide +kernel

end SoftTyping.Workspace
