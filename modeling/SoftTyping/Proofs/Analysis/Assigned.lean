import SoftTyping.Proofs.Analysis.Checked

/-!
# What statements assign

Behind some statements a scope sees a variable as initialised if it did so before them, or if every path through the
statements writes it (`Assigns.full`). Here this is shown for the statements without branches, and for one statement after
another; nodes that mark nothing in their scope, such as expressions and branches, leave what it sees
(`Pending.full_of_visits`).
-/

namespace SoftTyping.Workspace

open Step SymbolTable Shape

variable {w w' w₁ : Workspace} {P : NodeId → Prop} {id : NodeId} {scope opened : ScopeId} {x : SymbolId} {u : Unit}
  {rules : NameRules} {kind : NodeKind} {shape first : Shape} {shapes children rest : List Shape} {role : Role}
  {lo mid hi : Nat} {node : Node}

theorem Refers.rooted (h : Refers P w w') (hrt : w.table.Rooted) : w'.table.Rooted :=
  keeps_of_changes h.binds Binds.rooted hrt

theorem Refers.onward {Q : NodeId → Prop} {w'' : Workspace} (h : Refers P w w') (h' : Refers Q w' w'') :
    Refers (fun _ => True) w w'' :=
  (h.mono fun _ _ => trivial).trans (h'.mono fun _ _ => trivial)

/-! ## Nodes that are about to be visited -/

/-- Nodes are about to be visited that stand in a scope. -/
structure Ready (role : Role) (scope : ScopeId) (lo hi : Nat) (shapes : List Shape) (w : Workspace) : Prop where
  follows : ∀ shape ∈ shapes, Follows w.tree shape
  distinct : Shape.Distinct shapes
  stands : Stands w.tree w.table role scope lo hi (shapes.map Shape.id)
  rooted : w.table.Rooted
  scope : ∃ entry, w.table.scope? scope = some entry

theorem Ready.refers (h : Ready role scope lo hi shapes w) (href : Refers P w w') : Ready role scope lo hi shapes w' where
  follows := fun shape hsh => href.follows (h.follows shape hsh)
  distinct := h.distinct
  stands := href.stands h.stands
  rooted := href.rooted h.rooted
  scope := by
    obtain ⟨entry, he⟩ := h.scope
    obtain ⟨entry', he', _⟩ := href.table.scopes.scope he
    exact ⟨entry', he'⟩

theorem Ready.there (h : Ready role scope lo hi shapes w) (hid : HasAny shapes id) : ∃ node, w.tree.get? id = some node := by
  obtain ⟨shape, hsh, hid⟩ := hid
  exact (h.follows shape hsh).exists_of_has hid

theorem Ready.split (h : Ready role scope lo hi (shape :: rest) w) :
    ∃ mid, lo ≤ mid ∧ mid ≤ hi ∧ Ready role scope lo mid [shape] w ∧ Ready role scope mid hi rest w := by
  obtain ⟨mid, hone, hoths⟩ := h.stands.cons_split
  obtain ⟨hfol, hrs⟩ := List.forall_mem_cons.mp h.follows
  cases h.distinct with
  | cons hid hch _ hdis =>
    refine ⟨mid, hone.le, hoths.le, ⟨fun other hoth => ?_, ?_, hone, h.rooted, h.scope⟩,
      ⟨hrs, hdis, hoths, h.rooted, h.scope⟩⟩
    · rw [List.mem_singleton.mp hoth]
      exact hfol
    · exact .cons hid hch (fun _ _ hnil => nomatch hnil) .nil

theorem Ready.disjoint (h : Ready role scope lo hi (shape :: rest) w) {other : NodeId} (hoth : shape.Has other) :
    ¬ HasAny rest other := by
  cases h.distinct with
  | cons _ _ hdj _ => exact hdj other hoth

theorem Ready.within {inner : Role} (h : Ready role scope lo hi [.node id kind children] w)
    (hinn : role.inner? kind = some inner) : ∃ mid ≤ hi, Ready inner scope lo mid children w := by
  have hfol := h.follows _ (List.mem_singleton_self _)
  obtain ⟨_, _, _, mid, hmid, hshown⟩ := hfol.within hinn h.stands
  cases h.distinct with
  | cons _ hch _ _ => exact ⟨mid, hmid, hfol.child, hch, hshown, h.rooted, h.scope⟩

/-- The children of a node that opens a scope for them. -/
theorem Ready.opens {inner : Role} (h : Ready role scope lo hi [.node id kind children] w)
    (hinn : role.opens? kind = some inner) :
    ∃ node opened mid, w.tree.get? id = some node ∧ Opens w.table scope role node opened inner ∧ lo ≤ opened.index ∧ mid ≤ hi ∧
      Ready inner opened (opened.index + 1) mid children w := by
  have hfol := h.follows _ (List.mem_singleton_self _)
  obtain ⟨node, opened, hnd, hops, hlo, mid, hmid, hshown⟩ := hfol.opens hinn h.stands
  cases h.distinct with
  | cons _ hdis _ _ =>
    exact ⟨node, opened, mid, hnd, hops, hlo, hmid, hfol.child, hdis, hshown, h.rooted, hops.exists_scope⟩

/-- The target and the value of an assignment. -/
theorem Ready.assignment {target value : Shape} (h : Ready .statement scope lo hi [.node id .assign [target, value]] w) :
    ∃ written, ∃ mid ≤ hi, w.tree.get? target.id = some written ∧ written.scope = some scope ∧
      Ready .expression scope lo mid [value] w ∧ ∀ x, target.Has x → ¬ HasAny [value] x := by
  have hfol := h.follows _ (List.mem_singleton_self _)
  obtain ⟨node, hnd, hk⟩ := hfol.exists_node
  obtain ⟨_, ⟨written, hwr, hsc⟩, mid, hmid, hstn⟩ :=
    h.stands.of_assignment hnd hk (hfol.children_eq hnd nofun)
  cases h.distinct with
  | cons _ hch _ _ => cases hch with
    | cons _ _ hdj hdis =>
      refine ⟨written, mid, hmid, hwr, hsc, ⟨fun other hoth => ?_, hdis, hstn, h.rooted, h.scope⟩, hdj⟩
      exact hfol.child other (List.mem_cons_of_mem _ hoth)

theorem Ready.condition (h : Ready .branch scope lo hi [shape] w) (hk : shape.kind ≠ .block) :
    Ready .expression scope lo hi [shape] w := by
  obtain ⟨id, kind, children⟩ := shape
  have hinn : Role.branch.inner? kind = some .expression := by
    cases kind <;> first | rfl | exact absurd rfl hk
  obtain ⟨node, hnd, hndKind⟩ := (h.follows _ (List.mem_singleton_self _)).exists_node
  obtain ⟨hsc, mid, hmid, hch⟩ := h.stands.of_within hnd (hndKind ▸ hinn)
  exact ⟨h.follows, h.distinct, .within hnd rfl hsc hch (.nil hmid), h.rooted, h.scope⟩

/-! ## The pass that binds names -/

/-- The scopes in a range of numbers mark nothing yet. -/
def Fresh (w : Workspace) (lo hi : Nat) : Prop := ∀ id : ScopeId, lo ≤ id.index → id.index < hi → w.table.marks id = ∅

/-- Nodes whose names are about to be bound: the scopes below them have later numbers, and mark nothing yet. -/
structure Pending (role : Role) (home : ScopeId) (lo hi : Nat) (shapes : List Shape) (w : Workspace) : Prop
    extends Ready role home lo hi shapes w where
  below : home.index < lo
  fresh : w.Fresh lo hi

/-- What a visit of nodes touches, marks and reports. -/
structure Visits (role : Role) (scope : ScopeId) (lo hi : Nat) (shapes : List Shape) (w w' : Workspace) : Prop where
  refers : Refers (Shape.HasAny shapes) w w'
  checks : Checks (w.ReadsAt shapes) (MayMark role shapes scope lo hi) w w'

namespace Pending

variable (h : Pending role scope lo hi shapes w)

include h

theorem visits (hrun : referIn rules role shapes w = .ok u w') : Visits role scope lo hi shapes w w' := by
  obtain ⟨hprcs, href⟩ := proceeds_referIn role h.follows hrun
  exact ⟨href, hprcs.checks h.stands⟩

/-- A step that marks nothing below the nodes leaves them pending. -/
theorem keep (href : Refers P w w')
    (hmarks : ∀ id : ScopeId, lo ≤ id.index → id.index < hi → w'.table.marks id = w.table.marks id) :
    Pending role scope lo hi shapes w' :=
  ⟨h.refers href, h.below, fun id hle hlt => (hmarks id hle hlt).trans (h.fresh id hle hlt)⟩

theorem narrow {role' : Role} {scope' : ScopeId} {lo' hi' : Nat} {shapes' : List Shape}
    (hrdy : Ready role' scope' lo' hi' shapes' w) (hlo : lo ≤ lo') (hhi : hi' ≤ hi) (hbel : scope'.index < lo') :
    Pending role' scope' lo' hi' shapes' w :=
  ⟨hrdy, hbel, fun id hle hlt => h.fresh id (by omega) (by omega)⟩

/-- What a scope sees stays as long as no scope is marked that was made before those below the nodes. -/
theorem full_of_marks (href : Refers P w w') (hmarks : ∀ id : ScopeId, id.index < lo → w'.table.marks id = w.table.marks id) :
    w'.table.fullyInitialised scope x = true ↔ w.table.fullyInitialised scope x = true := by
  obtain ⟨entry, he⟩ := h.scope
  have hbel := h.below
  exact h.rooted.fullyInitialised_congr (href.rooted h.rooted) href.table.scopes he fun id hid => hmarks id (by omega)

theorem full_of_visits (hvis : Visits role scope lo hi shapes w w') (hno : ∀ shape ∈ shapes, ¬ role.Marks shape.kind) :
    w'.table.fullyInitialised scope x = true ↔ w.table.fullyInitialised scope x = true := by
  refine h.full_of_marks hvis.refers fun id hid => hvis.checks.marks id ?_
  rintro (⟨⟨shape, hsh, hmarks⟩, _⟩ | ⟨hle, _⟩)
  · exact hno shape hsh hmarks
  · omega

end Pending

theorem Pending.within {inner : Role} (h : Pending role scope lo hi [.node id kind children] w)
    (hinn : role.inner? kind = some inner) : ∃ mid ≤ hi, Pending inner scope lo mid children w := by
  obtain ⟨mid, hmid, hins⟩ := h.toReady.within hinn
  exact ⟨mid, hmid, h.narrow hins (Nat.le_refl lo) hmid h.below⟩

theorem Pending.opens {inner : Role} (h : Pending role scope lo hi [.node id kind children] w)
    (hinn : role.opens? kind = some inner) :
    ∃ node opened mid, w.tree.get? id = some node ∧ Opens w.table scope role node opened inner ∧ lo ≤ opened.index ∧ mid ≤ hi ∧
      Pending inner opened (opened.index + 1) mid children w := by
  obtain ⟨node, opened, mid, hnd, hops, hlo, hmid, hins⟩ := h.toReady.opens hinn
  exact ⟨node, opened, mid, hnd, hops, hlo, hmid, h.narrow hins (by omega) hmid (Nat.lt_succ_self _)⟩

/-- A run over some nodes, split behind the first. -/
structure Splits (rules : NameRules) (role : Role) (scope : ScopeId) (lo mid hi : Nat) (first : Shape) (rest : List Shape)
    (w w₁ w' : Workspace) : Prop where
  pending : Pending role scope lo mid [first] w
  run : referIn rules role [first] w = .ok () w₁
  visits : Visits role scope lo mid [first] w w₁
  pendingRest : Pending role scope mid hi rest w₁
  runRest : referIn rules role rest w₁ = .ok () w'
  visitsRest : Visits role scope mid hi rest w₁ w'

theorem Pending.splits (h : Pending role scope lo hi (first :: rest) w)
    (hrun : referIn rules role (first :: rest) w = .ok u w') :
    ∃ mid w₁, Splits rules role scope lo mid hi first rest w w₁ w' := by
  obtain ⟨w₁, hfst, hrs⟩ := referIn_cons hrun
  obtain ⟨mid, hlo, hhi, hone, hoths⟩ := h.split
  have hbel := h.below
  have hone := h.narrow hone (Nat.le_refl lo) hhi hbel
  have hvis := hone.visits hfst
  have hoths : Pending role scope mid hi rest w₁ := by
    refine (h.narrow hoths hlo (Nat.le_refl hi) (by omega)).keep hvis.refers fun id hle _ => hvis.checks.marks id ?_
    rintro (⟨_, rfl⟩ | ⟨_, hlt⟩) <;> omega
  exact ⟨mid, w₁, hone, hfst, hvis, hoths, hrs, hoths.visits hrs⟩

/-! ## Statements -/

/-- A variable is written at a node. -/
def Writes (w : Workspace) (x : SymbolId) (target : NodeId) : Prop :=
  ∃ node, w.tree.get? target = some node ∧ node.symbol = some x

/-- What statements initialise is what their paths say. -/
structure Assigns (scope : ScopeId) (shapes : List Shape) (w w' : Workspace) : Prop where
  full : ∀ x, w'.table.fullyInitialised scope x = true ↔
    w.table.fullyInitialised scope x = true ∨ ¬ Shape.Avoids (w.Writes x) shapes
  targets : ∀ {target node}, Shape.Target shapes target → w.tree.get? target = some node →
    w'.tree.get? target = some node

/-- What some statements initialise is what their paths say, wherever they stand. -/
def StatementsAssigned (rules : NameRules) (shapes : List Shape) : Prop :=
  ∀ {scope : ScopeId} {lo hi : Nat} {w w' : Workspace} {u : Unit}, Pending .statement scope lo hi shapes w →
    referStatements rules shapes w = .ok u w' → Assigns scope shapes w w'

theorem Refers.writes_iff (h : Refers P w w') {target : NodeId} (ht : ¬ P target)
    (hthr : ∃ node, w.tree.get? target = some node) : w'.Writes x target ↔ w.Writes x target := by
  obtain ⟨node, hnd⟩ := hthr
  rw [Writes, Writes, hnd, h.frame ht hnd]

theorem statementsAssigned_nil : StatementsAssigned rules [] := by
  intro scope lo hi w w' u _ h
  rw [(pure_eq_ok.mp h).2]
  exact ⟨fun x => by simp [avoids_nil], fun ht => nomatch ht⟩

/-- One statement after another. -/
theorem StatementsAssigned.cons (hfst : ∀ {scope : ScopeId} {lo hi : Nat} {w w' : Workspace} {u : Unit},
      Pending .statement scope lo hi [first] w → referStatement rules first w = .ok u w' → Assigns scope [first] w w')
    (hrs : StatementsAssigned rules rest) : StatementsAssigned rules (first :: rest) := by
  intro scope lo hi w w' u hrdy h
  obtain ⟨mid, w₁, hspl⟩ := hrdy.splits h
  obtain ⟨_, _, hone, hnil⟩ := bind_eq_ok.mp hspl.run
  cases (pure_eq_ok.mp hnil).2
  have hfst := hfst hspl.pending hone
  have hrs := hrs hspl.pendingRest hspl.runRest
  have hdj : ∀ target, HasAny rest target → ¬ HasAny [first] target :=
    fun target ht hfst => hrdy.disjoint (hasAny_singleton.mp hfst) ht
  refine ⟨fun x => ?_, fun {target node} ht hnd => ?_⟩
  · have hwrs : ∀ target, Target rest target → (w₁.Writes x target ↔ w.Writes x target) := fun target ht =>
      hspl.visits.refers.writes_iff (hdj target ht.hasAny) (hrdy.there (hasAny_cons.mpr (.inr ht.hasAny)))
    rw [hrs.full, hfst.full, avoids_congr hwrs, or_assoc, ← not_and_or, ← avoids_cons]
  · have hcas : Target [first] target ∨ Target rest target := by
      cases ht with
      | assign => exact .inl .assign
      | block hk hbl ht => exact .inl (.block hk hbl ht)
      | later ht => exact .inr ht
    rcases hcas with ht | ht
    · exact hspl.visitsRest.refers.frame (hrdy.disjoint (hasAny_singleton.mp ht.hasAny)) (hfst.targets ht hnd)
    · exact hrs.targets ht (hspl.visits.refers.frame (hdj target ht.hasAny) hnd)

theorem assigns_simple (hk : kind.isSimple = true) (hrdy : Pending .statement scope lo hi [.node id kind children] w)
    (h : referStatement rules (.node id kind children) w = .ok u w') : Assigns scope [.node id kind children] w w' := by
  have hrun : referIn rules .expression children w = .ok u w' := by
    cases kind <;> first | exact h | nomatch hk
  obtain ⟨mid, _, hins⟩ := hrdy.within (show Role.statement.inner? kind = some .expression by
    cases kind <;> first | rfl | nomatch hk)
  refine ⟨fun x => ?_, fun {target node} ht _ => ?_⟩
  · rw [hins.full_of_visits (hins.visits hrun) fun _ _ => not_false]
    simp [avoids_simple hk]
  · cases ht with
    | assign => nomatch hk
    | block hoth => rcases hoth with rfl | rfl <;> nomatch hk
    | later hno => nomatch hno

theorem assigns_declaration (hk : kind.isDeclaration = true) (hrdy : Pending .statement scope lo hi [.node id kind children] w)
    (h : referStatement rules (.node id kind children) w = .ok u w') : Assigns scope [.node id kind children] w w' := by
  have hrun : referIn rules .statement [.node id kind children] w = .ok () w' := bind_eq_ok.mpr ⟨u, w', h, rfl⟩
  refine ⟨fun x => ?_, fun {target node} ht _ => ?_⟩
  · rw [hrdy.full_of_visits (hrdy.visits hrun)]
    · simp [avoids_declaration hk]
    · intro shape hsh hmarks
      rw [List.mem_singleton.mp hsh] at hmarks
      nomatch hk.symm.trans hmarks
  · cases ht with
    | assign => nomatch hk
    | block hoth => rcases hoth with rfl | rfl <;> nomatch hk
    | later hno => nomatch hno

theorem assigns_assign {target value : Shape} (hrdy : Pending .statement scope lo hi [.node id .assign [target, value]] w)
    (h : referStatement rules (.node id .assign [target, value]) w = .ok u w') :
    Assigns scope [.node id .assign [target, value]] w w' := by
  simp only [referStatement, bind_eq_ok] at h
  obtain ⟨_, w₁, hvl, hmark⟩ := h
  obtain ⟨written, mid, hmid, hwr, hwrScope, hins, hdj⟩ := hrdy.assignment
  have hins := hrdy.narrow hins (Nat.le_refl lo) hmid hrdy.below
  have hrun : referIn rules .expression [value] w = .ok () w₁ := bind_eq_ok.mpr ⟨(), w₁, hvl, rfl⟩
  have hvis := hins.visits hrun
  have hwr₁ := hvis.refers.frame (hdj target.id target.has_id) hwr
  obtain ⟨same, y, scope', table, hsm, hy, hsc', htb, rfl⟩ := markWritten_eq_ok hmark
  cases hwr₁.symm.trans hsm
  cases hwrScope.symm.trans hsc'
  have hbis : w₁.table.Binds table := .markInitialised htb
  have hrt₁ := hvis.refers.rooted hrdy.rooted
  obtain ⟨entry, he⟩ := hrdy.scope
  obtain ⟨entry₁, he₁, _⟩ := hvis.refers.table.scopes.scope he
  refine ⟨fun x => ?_, fun {other node} ht hoth => ?_⟩
  · have hwrs : w.Writes x target.id ↔ y = x := by
      constructor
      · rintro ⟨other, hoth, hsym⟩
        cases hwr.symm.trans hoth
        exact Option.some.inj (hy.symm.trans hsym)
      · rintro rfl
        exact ⟨written, hwr, hy⟩
    rw [avoids_assign, not_not, hwrs,
      hrt₁.fullyInitialised_own (hbis.rooted hrt₁) hbis.grows.scopes he₁
        (fun other hoth => marks_markInitialised htb (by rintro rfl; omega))
        (fully_markInitialised htb),
      hins.full_of_visits hvis fun _ _ => not_false]
  · cases ht with
    | assign => exact hvis.refers.frame (hdj target.id target.has_id) hoth
    | block hoth => rcases hoth with h | h <;> cases h
    | later hno => cases hno

end SoftTyping.Workspace
