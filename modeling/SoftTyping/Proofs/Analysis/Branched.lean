import Mathlib.Data.List.Forall2
import SoftTyping.Proofs.Analysis.Assigned

/-!
# What conditionals and loops assign

A run over some nodes comes to every one of them, and does not touch it before and after (`Comes`, `comes_of_mem`). So a branch
starts with what is seen around it, and what it has seen is there when all branches of a conditional have been visited
(`sees_branch`). What all of them see is carried over to the scope around them (`full_iff_branches`). With this, what structured
statements initialise is what their paths say (`statementsAssigned`), by induction over the statements.
-/

namespace SoftTyping.Workspace

open Step SymbolTable Shape Refusal

variable {w w' w₁ v v' f : Workspace} {P part outer : NodeId → Prop} {id blockId : NodeId} {scope scope' : ScopeId}
  {x : SymbolId} {u : Unit} {rules : NameRules} {kind : NodeKind} {shape : Shape} {shapes children rest body : List Shape}
  {role : Role} {lo hi : Nat} {condition : Shape} {blocks : List Shape} {opened : List ScopeId}

/-! ## Parts of a run -/

/-- A variable is read at some place by a node that is none of some. -/
def ReadsBeside (w : Workspace) (part : NodeId → Prop) (position : Position) : Prop :=
  ∃ id node, ¬ part id ∧ w.tree.get? id = some node ∧ node.kind = .variableRef ∧ node.position = position

/-- A part of a run that leaves some nodes alone. What it reads are other nodes of `f`, which is a later workspace. -/
structure Aside (f : Workspace) (part : NodeId → Prop) (w w' : Workspace) : Prop where
  refers : Refers (fun id => ¬ part id) w w'
  checks : Checks (f.ReadsBeside part) (fun _ => True) w w'

theorem Aside.refl (w : Workspace) : Aside f part w w := ⟨.refl w, .refl w⟩

theorem Aside.trans (h : Aside f part w w₁) (h' : Aside f part w₁ w') : Aside f part w w' :=
  ⟨h.refers.trans h'.refers, h.checks.trans h'.checks⟩

theorem Aside.mono (h : Aside f part w w') (hpt : ∀ id, outer id → part id) : Aside f outer w w' := by
  refine ⟨h.refers.mono fun id hid hou => hid (hpt id hou), h.checks.mono ?_ fun _ hown => hown⟩
  rintro position ⟨id, node, hid, hnd⟩
  exact ⟨id, node, fun hou => hid (hpt id hou), hnd⟩

theorem Visits.aside (h : Visits role scope lo hi shapes w w') (hf : Refers P w' f)
    (hpt : ∀ id, HasAny shapes id → ¬ part id) : Aside f part w w' := by
  refine ⟨h.refers.mono hpt, h.checks.mono ?_ fun _ _ => trivial⟩
  rintro position ⟨id, node, hid, hnd, hk, hpsn⟩
  obtain ⟨node₁, hnd₁, hkt₁⟩ := h.refers.kept hnd
  obtain ⟨node', hnd', hkt'⟩ := hf.kept hnd₁
  have hkt := hkt₁.trans hkt'
  exact ⟨id, node', hpt id hid, hnd', hkt.kind.trans hk, hkt.position.trans hpsn⟩

/-- A run from `w` to `w'` over some nodes comes to others that are among them, at `v`, and leaves them at `v'`. -/
structure Comes (rules : NameRules) (f : Workspace) (outer : NodeId → Prop) (role : Role) (scope : ScopeId) (lo hi : Nat)
    (shapes : List Shape) (w v v' w' : Workspace) : Prop where
  pending : Pending role scope lo hi shapes v
  run : referIn rules role shapes v = .ok () v'
  inside : ∀ id, Shape.HasAny shapes id → outer id
  before : Aside f (Shape.HasAny shapes) w v
  after : Aside f (Shape.HasAny shapes) v' w'

theorem Comes.later (h : Comes rules f outer role scope lo hi shapes w v v' w') (hf : Refers P w' f) :
    Refers (fun _ => True) v' f :=
  h.after.refers.onward hf

/-- The run is part of a longer one. -/
theorem Comes.extend {outer' : NodeId → Prop} {w₀ w₂ : Workspace} (h : Comes rules f outer role scope lo hi shapes w v v' w')
    (hbef : Aside f (HasAny shapes) w₀ w) (haf : Aside f (HasAny shapes) w' w₂) (hou : ∀ id, outer id → outer' id) :
    Comes rules f outer' role scope lo hi shapes w₀ v v' w₂ where
  pending := h.pending
  run := h.run
  inside := fun id hid => hou id (h.inside id hid)
  before := hbef.trans h.before
  after := h.after.trans haf

/-- A run over expressions or branches comes to each of them, and marks nothing around them. -/
theorem comes_of_mem (hrdy : Pending role scope lo hi shapes w) (hno : ∀ kind, ¬ role.Marks kind) (hsh : shape ∈ shapes)
    (h : referIn rules role shapes w = .ok u w') (hf : Refers P w' f) : ∃ lo' hi' v v', lo ≤ lo' ∧
      Comes rules f (HasAny shapes) role scope lo' hi' [shape] w v v' w' ∧
      (∀ id : ScopeId, id.index < lo → v.table.marks id = w.table.marks id) ∧
      ∀ id : ScopeId, id.index < hi' → w'.table.marks id = v'.table.marks id := by
  have hmarks : ∀ {shapes lo hi w w'} {id : ScopeId}, Visits role scope lo hi shapes w w' → ¬ (lo ≤ id.index ∧ id.index < hi) →
      w'.table.marks id = w.table.marks id := by
    intro shapes lo hi w w' id hvis hid
    refine hvis.checks.marks id ?_
    rintro (⟨⟨_, _, hmarks⟩, _⟩ | hbetween)
    · exact hno _ hmarks
    · exact hid hbetween
  induction shapes generalizing w lo with
  | nil => nomatch hsh
  | cons first rest ih =>
    obtain ⟨mid, w₁, hspl⟩ := hrdy.splits h
    have hlo := hspl.pending.stands.le
    rcases List.mem_cons.mp hsh with rfl | hsh
    · refine ⟨lo, mid, w, w₁, Nat.le_refl lo, ⟨hspl.pending, hspl.run, fun id hid => ?_, .refl w,
        hspl.visitsRest.aside hf fun id hid hfst => ?_⟩, fun _ _ => rfl, fun id hid => hmarks hspl.visitsRest (by omega)⟩
      · exact hasAny_cons.mpr (.inl (hasAny_singleton.mp hid))
      · exact hrdy.disjoint (hasAny_singleton.mp hfst) hid
    · obtain ⟨lo', hi', v, v', hle, hcm, hbef, haf⟩ := ih hspl.pendingRest hsh hspl.runRest
      refine ⟨lo', hi', v, v', by omega, hcm.extend ?_ (.refl w') fun id hid => hasAny_cons.mpr (.inr hid),
        fun id hid => ?_, haf⟩
      · exact hspl.visits.aside (hspl.visitsRest.refers.onward hf) fun id hid hin =>
          hrdy.disjoint (hasAny_singleton.mp hid) (hcm.inside id hin)
      · rw [hbef id (by omega), hmarks hspl.visits (by omega)]

/-! ## Branches -/

/-- The statements of a branch: their scope sees what is seen around it. -/
theorem Pending.branch (h : Pending .branch scope lo hi [.node blockId .block body] w) :
    ∃ inner entry node mid, lo ≤ inner.index ∧ mid ≤ hi ∧ Pending .statement inner (inner.index + 1) mid body w ∧
      w.tree.get? blockId = some node ∧ node.scope = some inner ∧ w.table.scope? inner = some entry ∧
      entry.isConditional = true ∧ entry.enclosing = some scope ∧
      ∀ x, w.table.fullyInitialised inner x = true ↔ w.table.fullyInitialised scope x = true := by
  obtain ⟨node, inner, mid, hnd, hops, hlo, hmid, hins⟩ := h.opens rfl
  cases hops with
  | @branch _ _ entry _ hsc he hcdl henc =>
    have hk : entry.isConditional = true := by simp [Scope.isConditional, hcdl]
    have hle := hins.stands.le
    refine ⟨inner, entry, node, mid, hlo, hmid, hins, hnd, hsc, he, hk, henc, fun x => ?_⟩
    rw [h.rooted.fullyInitialised_branch he hk henc, h.fresh inner hlo (by omega)]
    simp

/-- What a branch has seen when all branches have been visited, and what is written in it. -/
theorem sees_branch (hrdy : Pending .branch scope lo hi shapes w) (hassigned : StatementsAssigned rules body)
    (hbl : .node blockId .block body ∈ shapes) (h : referIn rules .branch shapes w = .ok u w') :
    (∃ inner, w'.tree.scopeOf blockId = .ok inner ∧
      (∀ x, w'.table.fullyInitialised inner x = true ↔
        w.table.fullyInitialised scope x = true ∨ ¬ Avoids (w.Writes x) body) ∧
      ∀ x, w'.table.fullyInitialised inner x = true →
        (w'.table.marks inner).get? x = some .fully ∨ w.table.fullyInitialised scope x = true) ∧
    ∀ {target node}, Target body target → w.tree.get? target = some node → w'.tree.get? target = some node := by
  obtain ⟨lo', hi', v, v', hlo', hcm, hbef, haf⟩ := comes_of_mem hrdy (fun _ => not_false) hbl h (.refl (P := fun _ => True) w')
  obtain ⟨inner, entry, node, mid, hlo, hmid, hins, hnd, hsc, he, hk, hou, hst⟩ := hcm.pending.branch
  have hrun : referStatements rules body v = .ok () v' := by
    rcases referIn_branch hcm.run with ⟨_, hrun⟩ | ⟨hno, _⟩
    · exact hrun
    · exact absurd rfl hno
  have hassigns := hassigned hins hrun
  have hhas : ∀ {target}, HasAny body target → HasAny [.node blockId .block body] target :=
    fun ht => hasAny_singleton.mpr (has_node.mpr (.inr ht))
  have hvis := hins.visits hrun
  have hall := hvis.refers.onward hcm.after.refers
  have hle := hins.stands.le
  obtain ⟨innerEntry, hinnEntry⟩ := hins.scope
  -- What is seen around the branch stays until it is entered, and what the branch has seen after it has been left.
  have har : ∀ x, v.table.fullyInitialised scope x = true ↔ w.table.fullyInitialised scope x = true :=
    fun x => hrdy.full_of_marks hcm.before.refers hbef
  have hls : ∀ x, w'.table.fullyInitialised inner x = true ↔ v'.table.fullyInitialised inner x = true := by
    intro x
    obtain ⟨entry', he', _⟩ := hvis.refers.table.scopes.scope he
    exact (hvis.refers.rooted hins.rooted).fullyInitialised_congr (hall.rooted hins.rooted) hcm.after.refers.table.scopes he'
      fun id hid => haf id (by omega)
  refine ⟨⟨inner, ?_, fun x => ?_, fun x hfu => ?_⟩, fun {target node} ht hthr => ?_⟩
  · obtain ⟨kept, hkt, hsm⟩ := hall.kept hnd
    exact Tree.scopeOf_eq_ok.mpr ⟨kept, hkt, hsm.scope.trans hsc⟩
  · have hwrs : ∀ target, Target body target → (v.Writes x target ↔ w.Writes x target) := fun target ht =>
      hcm.before.refers.writes_iff (not_not_intro (hhas ht.hasAny)) (hrdy.there ⟨_, hbl, has_node.mpr (.inr ht.hasAny)⟩)
    rw [hls, hassigns.full, hst, har, avoids_congr hwrs]
  · obtain ⟨entry', he', henc, hout⟩ := hall.table.scopes.scope he
    rw [(hall.rooted hins.rooted).fullyInitialised_branch he' ((isConditional_of_outline hout).trans hk)
      (henc.trans hou)] at hfu
    refine hfu.imp_right ((hrdy.full_of_marks (hrdy.visits h).refers fun id hid => (hrdy.visits h).checks.marks id ?_).mp)
    rintro (⟨⟨_, _, hno⟩, _⟩ | ⟨hle, _⟩)
    · exact hno
    · omega
  · refine hcm.after.refers.frame (not_not_intro (hhas ht.hasAny)) (hassigns.targets ht ?_)
    exact hcm.before.refers.frame (not_not_intro (hhas ht.hasAny)) hthr

theorem referBranches_cons (h : referBranches rules (shape :: rest) w = .ok opened w') :
    ∃ w₁ others, referIn rules .branch [shape] w = .ok () w₁ ∧ referBranches rules rest w₁ = .ok others w' ∧
      (shape.kind ≠ .block ∧ opened = others ∨
        shape.kind = .block ∧ ∃ inner, w₁.tree.scopeOf shape.id = .ok inner ∧ opened = inner :: others) := by
  obtain ⟨id, kind, children⟩ := shape
  cases kind <;> simp only [referIn, referBranches, Step.bind_eq_ok, askTree_eq_ok, Step.pure_eq_ok] at h ⊢
  case block =>
    obtain ⟨_, _, hrun, inner, _, ⟨hinn, rfl⟩, _, w₁, ⟨rfl, rfl⟩, others, _, hrs, rfl, rfl⟩ := h
    exact ⟨w₁, others, ⟨_, w₁, ⟨_, w₁, hrun, inner, w₁, ⟨hinn, rfl⟩, _, w₁, ⟨rfl, rfl⟩, _, w₁, ⟨rfl, rfl⟩, rfl, rfl⟩,
      trivial, rfl⟩, hrs, .inr ⟨rfl, inner, hinn, rfl⟩⟩
  all_goals
    obtain ⟨_, _, hrun, _, _, ⟨rfl, rfl⟩, _, _, hrs, rfl, rfl⟩ := h
    exact ⟨_, _, ⟨_, _, ⟨_, _, hrun, _, _, ⟨rfl, rfl⟩, _, _, ⟨rfl, rfl⟩, rfl, rfl⟩, trivial, rfl⟩, hrs,
      .inl ⟨by simp [Shape.kind], rfl⟩⟩

/-- The scopes of the branches are given in their order. -/
theorem scopes_of_referBranches (hrdy : Pending .branch scope lo hi shapes w)
    (h : referBranches rules shapes w = .ok opened w') :
    List.Forall₂ (fun block inner => w'.tree.scopeOf block.id = .ok inner) (shapes.filter (·.kind = .block)) opened := by
  induction shapes generalizing w lo opened with
  | nil =>
    obtain ⟨rfl, rfl⟩ := Step.pure_eq_ok.mp h
    exact .nil
  | cons shape rest ih =>
    obtain ⟨_, w₁, hspl⟩ := hrdy.splits (Step.bind_eq_ok.mpr ⟨_, _, h, rfl⟩)
    obtain ⟨w₁, others, hfst, hrs, hcas⟩ := referBranches_cons h
    cases hfst.symm.trans hspl.run
    rcases hcas with ⟨hk, rfl⟩ | ⟨hk, inner, hinn, rfl⟩
    · rw [List.filter_cons_of_neg (by simpa using hk)]
      exact ih hspl.pendingRest hrs
    · rw [List.filter_cons_of_pos (by simpa using hk)]
      obtain ⟨node, hnd, hsc⟩ := Tree.scopeOf_eq_ok.mp hinn
      obtain ⟨kept, hkt, hsm⟩ := hspl.visitsRest.refers.kept hnd
      exact .cons (Tree.scopeOf_eq_ok.mpr ⟨kept, hkt, hsm.scope.trans hsc⟩) (ih hspl.pendingRest hrs)

/-- Branches initialise together what no path through them avoids writing. -/
theorem full_iff_branches (hscs : List.Forall₂ (fun block inner => w'.tree.scopeOf block.id = .ok inner) blocks opened)
    (hsees : ∀ block ∈ blocks, ∃ inner, w'.tree.scopeOf block.id = .ok inner ∧
      (∀ x, w'.table.fullyInitialised inner x = true ↔
        w.table.fullyInitialised scope x = true ∨ ¬ Avoids (w.Writes x) block.children) ∧
      ∀ x, w'.table.fullyInitialised inner x = true →
        (w'.table.marks inner).get? x = some .fully ∨ w.table.fullyInitialised scope x = true)
    (hnot : w.table.fullyInitialised scope x ≠ true) :
    ((∃ inner ∈ opened, x ∈ (w'.table.marks inner).keys) ∧ ∀ inner ∈ opened, w'.table.fullyInitialised inner x = true) ↔
      blocks ≠ [] ∧ ∀ block ∈ blocks, ¬ Avoids (w.Writes x) block.children := by
  have hone : ∀ {block inner}, block ∈ blocks → w'.tree.scopeOf block.id = .ok inner →
      (w'.table.fullyInitialised inner x = true ↔ ¬ Avoids (w.Writes x) block.children) ∧
        (w'.table.fullyInitialised inner x = true → x ∈ (w'.table.marks inner).keys) := by
    intro block inner hbl hsc
    obtain ⟨same, hsm, hfu, hmarked⟩ := hsees block hbl
    cases hsc.symm.trans hsm
    refine ⟨(hfu x).trans (or_iff_right hnot), fun hfu => ?_⟩
    exact List.mem_map_of_mem (OrderedMap.get?_eq_some_iff.mp ((hmarked x hfu).resolve_right hnot))
  constructor
  · rintro ⟨⟨inner, hinn, _⟩, hall⟩
    obtain ⟨block, hbl, _⟩ := exists_left_of_forall₂ hscs hinn
    refine ⟨List.ne_nil_of_mem hbl, fun other hoth => ?_⟩
    obtain ⟨found, hf, hsc⟩ := exists_right_of_forall₂ hscs hoth
    exact (hone hoth hsc).1.mp (hall found hf)
  · rintro ⟨hso, hall⟩
    obtain ⟨block, hbl⟩ := List.exists_mem_of_ne_nil _ hso
    obtain ⟨inner, hinn, hsc⟩ := exists_right_of_forall₂ hscs hbl
    refine ⟨⟨inner, hinn, (hone hbl hsc).2 ((hone hbl hsc).1.mpr (hall block hbl))⟩, fun other hoth => ?_⟩
    obtain ⟨found, hf, hsc⟩ := exists_left_of_forall₂ hscs hoth
    exact (hone hf hsc).1.mpr (hall found hf)

/-! ## Conditionals and loops -/

theorem Pending.conditional (h : Pending .statement scope lo hi [.node id kind children] w)
    (hk : kind = .ifStmt ∨ kind = .whileStmt) (hrun : referIn rules .statement [.node id kind children] w = .ok u w') :
    ∃ mid w₁, Pending .branch scope lo mid children w ∧ referIn rules .branch children w = .ok () w₁ ∧
      ∀ f part, Aside f part w₁ w' := by
  obtain ⟨mid, _, hins⟩ := h.within (show Role.statement.inner? kind = some .branch by rcases hk with rfl | rfl <;> rfl)
  obtain ⟨_, _, hstm, hnil⟩ := Step.bind_eq_ok.mp hrun
  cases (Step.pure_eq_ok.mp hnil).2
  rcases hk with rfl | rfl <;> simp only [referStatement, Step.bind_eq_ok, askTree_eq_ok] at hstm
  all_goals
    obtain ⟨_, _, hbrs, _, w₁, ⟨_, rfl⟩, hmg⟩ := hstm
    exact ⟨mid, w₁, hins, Step.bind_eq_ok.mpr ⟨_, _, hbrs, rfl⟩, fun f part =>
      ⟨refers_mergeBranches hmg, (checks_mergeBranches hmg).widen fun _ _ => trivial⟩⟩

theorem assigns_conditional {exhaustive : Bool} (hk : kind = .ifStmt ∨ kind = .whileStmt) (hcnd : condition.kind ≠ .block)
    (hbls : ∀ block ∈ blocks, block.kind = .block ∧ StatementsAssigned rules block.children)
    (havo : opened.length = blocks.length → ∀ targets, Avoids targets [.node id kind (condition :: blocks)] ↔
      ¬ (exhaustive = true ∧ blocks ≠ [] ∧ ∀ block ∈ blocks, ¬ Avoids targets block.children))
    (hrdy : Pending .statement scope lo hi [.node id kind (condition :: blocks)] w)
    (hbrs : referBranches rules (condition :: blocks) w = .ok opened w₁)
    (hsc : w₁.tree.scopeOf id = .ok scope') (hmg : mergeBranches scope' opened exhaustive w₁ = .ok u w') :
    Assigns scope [.node id kind (condition :: blocks)] w w' := by
  have hinn : Role.statement.inner? kind = some .branch := by
    rcases hk with rfl | rfl <;> rfl
  obtain ⟨mid, _, hins⟩ := hrdy.within hinn
  have hrun : referIn rules .branch (condition :: blocks) w = .ok () w₁ := Step.bind_eq_ok.mpr ⟨_, _, hbrs, rfl⟩
  have hvis := hins.visits hrun
  have hmem : ∀ block ∈ blocks, .node block.id .block block.children ∈ condition :: blocks := by
    intro block hbl
    rw [← (hbls block hbl).1]
    cases block
    exact List.mem_cons_of_mem _ hbl
  have hsees := fun block hbl => sees_branch hins (hbls block hbl).2 (hmem block hbl) hrun
  have hscs : List.Forall₂ (fun block inner => w₁.tree.scopeOf block.id = .ok inner) blocks opened := by
    have hall := scopes_of_referBranches hins hbrs
    rwa [List.filter_cons_of_neg (by simpa using hcnd), List.filter_eq_self.mpr fun block hbl => by
      simpa using (hbls block hbl).1] at hall
  obtain ⟨table, htb, rfl⟩ := onTable_eq_ok.mp hmg
  have hbis : w₁.table.Binds table := .mergeBranches htb
  obtain ⟨node, hnd, hndKind⟩ := (hrdy.follows _ (List.mem_singleton_self _)).exists_node
  obtain rfl : scope = scope' := by
    obtain ⟨hndScope, _⟩ := hrdy.stands.of_within hnd (hndKind ▸ hinn)
    obtain ⟨kept, hkt, hsm⟩ := hvis.refers.kept hnd
    obtain ⟨node', hnd', hsc'⟩ := Tree.scopeOf_eq_ok.mp hsc
    cases hnd'.symm.trans hkt
    exact Option.some.inj ((hsm.scope.trans hndScope).symm.trans hsc')
  obtain ⟨entry, he⟩ := hrdy.scope
  obtain ⟨entry₁, he₁, _⟩ := hvis.refers.table.scopes.scope he
  have hrt₁ := hvis.refers.rooted hrdy.rooted
  refine ⟨fun x => ?_, fun {target node} ht hnd => ?_⟩
  · rw [hrt₁.fullyInitialised_own (hbis.rooted hrt₁) hbis.grows.scopes he₁
      (fun other hoth => marks_mergeBranches htb (by rintro rfl; omega))
      (fully_mergeBranches htb), hins.full_of_visits hvis fun _ _ => not_false, havo hscs.length_eq.symm, not_not]
    by_cases hfu : w.table.fullyInitialised scope x = true
    · simp [hfu]
    · rw [full_iff_branches hscs (fun block hbl => (hsees block hbl).1) hfu]
  · obtain ⟨_, _, hbl, ht⟩ := ht.of_conditional hk
    exact (hsees _ hbl).2 ht hnd

/-- What structured statements initialise is what their paths say. -/
theorem statementsAssigned (rules : NameRules) (hstr : Shape.Structured shapes) : StatementsAssigned rules shapes := by
  induction hstr with
  | nil => exact statementsAssigned_nil
  | simple hk _ ih => exact StatementsAssigned.cons (assigns_simple hk) ih
  | declaration hk _ ih => exact StatementsAssigned.cons (assigns_declaration hk) ih
  | assign _ ih => exact StatementsAssigned.cons assigns_assign ih
  | ifThen hcnd _ _ ihThen ih =>
    refine StatementsAssigned.cons (fun hrdy h => ?_) ih
    simp only [referStatement, Step.bind_eq_ok, askTree_eq_ok] at h
    obtain ⟨opened, w₁, hbrs, _, _, ⟨hsc, rfl⟩, hmg⟩ := h
    refine assigns_conditional (.inl rfl) hcnd (fun block hbl => ?_) (fun hlen targets => ?_) hrdy hbrs hsc hmg
    · rw [List.mem_singleton.mp hbl]
      exact ⟨rfl, ihThen⟩
    · simp only [hlen, List.length_singleton]
      exact iff_of_true Shape.avoids_ifThen (by simp)
  | ifElse hcnd _ _ _ ihThen ihElse ih =>
    refine StatementsAssigned.cons (fun hrdy h => ?_) ih
    simp only [referStatement, Step.bind_eq_ok, askTree_eq_ok] at h
    obtain ⟨opened, w₁, hbrs, _, _, ⟨hsc, rfl⟩, hmg⟩ := h
    refine assigns_conditional (.inl rfl) hcnd (fun block hbl => ?_) (fun hlen targets => ?_) hrdy hbrs hsc hmg
    · rcases List.mem_cons.mp hbl with rfl | hbl
      · exact ⟨rfl, ihThen⟩
      · rw [List.mem_singleton.mp hbl]
        exact ⟨rfl, ihElse⟩
    · simp only [hlen, Shape.avoids_ifElse, List.forall_mem_cons]
      simp [imp_iff_not_or, Shape.children]
  | loop hcnd _ _ ihBody ih =>
    refine StatementsAssigned.cons (fun hrdy h => ?_) ih
    simp only [referStatement, Step.bind_eq_ok, askTree_eq_ok] at h
    obtain ⟨opened, w₁, hbrs, _, _, ⟨hsc, rfl⟩, hmg⟩ := h
    refine assigns_conditional (.inr rfl) hcnd (fun block hbl => ?_) (fun _ targets => ?_) hrdy hbrs hsc hmg
    · rw [List.mem_singleton.mp hbl]
      exact ⟨rfl, ihBody⟩
    · exact iff_of_true Shape.avoids_loop (by simp)

end SoftTyping.Workspace
