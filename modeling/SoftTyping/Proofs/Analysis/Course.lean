import SoftTyping.Proofs.Analysis.Bodies
import SoftTyping.Proofs.Analysis.Constrained

/-!
# The course of the pass that makes the constraints

The pass comes to one statement after another (`ComesTo`) and makes moves only (`advances_typeAll`). Each function is opened
once, before anything in its body is typed, and the versions that take a source later are those at the head of a loop to
which the pass comes (`AtLoop`).
-/

namespace SoftTyping.Workspace

open Step Shape

variable {w w' w₁ : Workspace} {id : NodeId} {scope : ScopeId} {symbol function : SymbolId} {body : BodyId}
  {typeVar : TypeVarId} {name : String} {position : Position} {u : Unit} {role : Role} {lo mid hi : Nat} {kind : NodeKind}
  {shape : Shape} {shapes children rest parts : List Shape} {loops : TypeVarId → Prop} {opens : SymbolId → Prop}
  {saved : Option (BodyId × Versions)} {branches : List Versions} {before : Versions}

/-! ## Nodes one after another -/

/-- What is done at one node that stands in some way. -/
def typeAs : Role → Shape → Step Workspace Unit
  | .statement, shape => typeStatement shape
  | .expression, shape => typeExpression shape
  | .part, .node _ kind children => if kind = .block then typeStatements children else pure ()
  | .branch, .node id kind children =>
    if kind = .block then typeStatements children else typeExpression (.node id kind children)

/-- What is done at nodes that stand in some way, one after another. -/
def typeEach (role : Role) : List Shape → Step Workspace Unit
  | [] => pure ()
  | shape :: rest => do
    typeAs role shape
    typeEach role rest

theorem typeExpressions_eq (shapes : List Shape) : typeExpressions shapes = typeEach .expression shapes := by
  induction shapes with
  | nil => rfl
  | cons shape rest ih => rw [typeExpressions, typeEach, ih, typeAs]

theorem typeStatements_eq (shapes : List Shape) : typeStatements shapes = typeEach .statement shapes := by
  induction shapes with
  | nil => rfl
  | cons shape rest ih => rw [typeStatements, typeEach, ih, typeAs]

theorem typeLoop_eq (shapes : List Shape) : typeLoop shapes = typeEach .branch shapes := by
  induction shapes with
  | nil => rfl
  | cons shape rest ih =>
    obtain ⟨id, kind, children⟩ := shape
    rw [typeLoop.eq_def, typeEach, ← ih, typeAs]
    cases kind <;> rfl

/-- One branch: a block starts from the versions before all branches, which are current again behind it. -/
theorem typeBranches_cons (h : typeBranches body before (shape :: rest) w = .ok branches w') :
    ∃ w₁ others, typeAs .branch shape w = .ok () w₁ ∧
      ((shape.kind = .block ∧ branches = w₁.flow.headsIn body :: others ∧
          typeBranches body before rest { w₁ with flow := w₁.flow.restoreHeads body before } = .ok others w') ∨
        (shape.kind ≠ .block ∧ branches = others ∧ typeBranches body before rest w₁ = .ok others w')) := by
  obtain ⟨id, kind, children⟩ := shape
  by_cases hk : kind = .block
  · subst hk
    simp only [typeBranches, bind_eq_ok, get_eq_ok, modifyFlow_eq_ok, pure_eq_ok] at h
    obtain ⟨_, w₁, hch, _, _, ⟨rfl, rfl⟩, _, _, rfl, _, _, ⟨rfl, rfl⟩, others, _, hrs, rfl, rfl⟩ := h
    exact ⟨_, others, hch, .inl ⟨rfl, rfl, hrs⟩⟩
  · have hexp : typeAs .branch (.node id kind children) = typeExpression (.node id kind children) := if_neg hk
    rw [hexp]
    rw [typeBranches.eq_def] at h
    cases kind <;> try exact absurd rfl hk
    all_goals
      simp only [bind_eq_ok, pure_eq_ok] at h
      obtain ⟨_, w₁, hnd, _, _, ⟨rfl, rfl⟩, others, _, hrs, hbrs, rfl⟩ := h
      exact ⟨_, others, hnd, .inr ⟨nofun, hbrs, hrs⟩⟩

theorem typeFirstBlock_eq_ok (h : typeFirstBlock parts w = .ok u w') :
    w' = w ∨ ∃ block, FirstBlock parts block ∧ typeEach .statement block w = .ok u w' := by
  induction parts with
  | nil => exact .inl (pure_eq_ok.mp h).2
  | cons part rest ih =>
    obtain ⟨id, kind, children⟩ := part
    by_cases hk : kind = .block
    · subst hk
      rw [typeFirstBlock, typeStatements_eq] at h
      exact .inr ⟨children, .here, h⟩
    · have hlater : typeFirstBlock (.node id kind children :: rest) = typeFirstBlock rest := by
        cases kind <;> first | rfl | contradiction
      rcases ih (hlater ▸ h) with rfl | ⟨block, hbl, hrun⟩
      · exact .inl rfl
      · exact .inr ⟨block, .later hk hbl, hrun⟩

/-! ## Parts of assignments -/

section Annotates

/-- Two workspaces have the same tree but for what its nodes are annotated with. -/
abbrev Annotated (w w' : Workspace) : Prop := w.tree.Annotates w'.tree

theorem isOrder_annotated : IsOrder Annotated := ⟨fun w => .refl w.tree, fun h h' => h.trans h'⟩

theorem annotates_typeNode (id : NodeId) (typeVar : TypeVarId) : Respects Annotated (typeNode id typeVar) := by
  intro w u w' h
  obtain ⟨_, rfl⟩ := updateNode_eq_ok.mp h
  exact Tree.annotates_update _ _ fun _ => rfl

theorem annotates_bodyOfNode (id : NodeId) : Respects Annotated (bodyOfNode id) := by
  intro w body w' h
  rw [(bodyOfNode_eq_ok.mp h).2]
  exact isOrder_annotated.refl w

theorem annotates_typed {step : BodyId → Step Workspace TypeVarId} (hstp : ∀ body, Respects Annotated (step body))
    (id : NodeId) : Respects Annotated (do
      let body ← bodyOfNode id
      let typeVar ← step body
      typeNode id typeVar
      pure typeVar) :=
  have h := isOrder_annotated
  .bind h (annotates_bodyOfNode id) fun body => .bind h (hstp body) fun _ => .bind h (annotates_typeNode id _)
    fun _ => .pure h _

theorem annotates_addVariable {constraint : Constraint} {change : TypeVar → TypeVar} :
    Respects Annotated (addVariable name position body constraint change) := .modifyGet fun w => .refl w.tree

theorem annotates_newVersion : Respects Annotated (newVersion symbol position body) := by
  intro w typeVar w' h
  obtain ⟨_, _, _, _, rfl, _⟩ := newVersion_eq_ok h
  exact .refl _

theorem annotates_typeApplication {callee : SymbolId} : Respects Annotated (typeApplication id name position callee) :=
  have h := isOrder_annotated
  .ask h fun _ => annotates_typed (fun _ => .bind h (.get h) fun _ => annotates_addVariable) id

theorem annotates_typeExpression (shape : Shape) : Respects Annotated (typeExpression shape) := by
  have h := isOrder_annotated
  induction shape using induction with
  | node id kind children ih =>
    have hch : Respects Annotated (typeExpressions children) := by
      clear id kind
      induction children with
      | nil => exact .pure h _
      | cons child rest ih' =>
        exact .bind h (ih child List.mem_cons_self) fun _ => ih' fun other hoth => ih other (List.mem_cons_of_mem _ hoth)
    refine .bind h hch fun _ => ?_
    split
    · refine .bind h (.ask h fun node => ?_) fun _ => .pure h _
      split
      · exact .bind h (.get h) fun _ => annotates_typed (fun _ => annotates_addVariable) id
      · exact .throw _
    · exact .bind h (.ask h fun _ => .ask h fun _ => annotates_typed (fun _ => annotates_newVersion) id) fun _ => .pure h _
    · exact .bind h (.ask h fun _ => .ask h fun _ => .ask h fun _ =>
        .bind h (.get h) fun _ => annotates_typed (fun _ => annotates_addVariable) id) fun _ => .pure h _
    · refine .bind h (.ask h fun _ => .ask h fun _ => .ask h fun entry => ?_) fun _ => .pure h _
      split
      · exact annotates_typeApplication
      · exact .bind h (.get h) fun _ => annotates_typed (fun _ => annotates_addVariable) id
    · exact .bind h (.ask h fun _ => .ask h fun _ => annotates_typeApplication) fun _ => .pure h _
    · exact .pure h _

end Annotates

theorem exists_children_of_typeAssignment (h : typeAssignment id w = .ok typeVar w') :
    ∃ target value, w.tree.children id = [target, value] := by
  simp only [typeAssignment, bind_eq_ok, get_eq_ok] at h
  obtain ⟨_, w, ⟨rfl, rfl⟩, h⟩ := h
  rcases hch : w.tree.children id with _ | ⟨target, _ | ⟨value, _ | ⟨_, _⟩⟩⟩
  case cons.cons.nil => exact ⟨target, value, rfl⟩
  all_goals
    rw [hch] at h
    exact absurd h throw_ne_ok

theorem exists_parts_of_typeAssign (hfol : Follows w.tree (.node id .assign children))
    (h : typeStatement (.node id .assign children) w = .ok u w') : ∃ target value, children = [target, value] := by
  have hrun : ∃ w₁ typeVar, w.tree.Annotates w₁.tree ∧ typeAssignment id w₁ = .ok typeVar w' := by
    rcases children with _ | ⟨target, _ | ⟨value, rest⟩⟩ <;>
      simp only [typeStatement, Step.bind_eq_ok, Step.pure_eq_ok] at h
    case cons.cons =>
      obtain ⟨_, w₁, hvl, typeVar, _, hassign, _, rfl⟩ := h
      exact ⟨w₁, typeVar, annotates_typeExpression value hvl, hassign⟩
    all_goals
      obtain ⟨typeVar, _, hassign, _, rfl⟩ := h
      exact ⟨_, typeVar, .refl _, hassign⟩
  obtain ⟨w₁, typeVar, hannotates, hassign⟩ := hrun
  obtain ⟨target, value, hch⟩ := exists_children_of_typeAssignment hassign
  obtain ⟨hnd, _, hlsd, _, _⟩ := hfol
  rw [hannotates.children_eq, Tree.children_of_get? hnd, hlsd nofun] at hch
  match children, hch with
  | [target, value], _ => exact ⟨target, value, rfl⟩

/-! ## The course -/

/-- The workspace behind a branch: behind a block the versions from before all branches are current again. -/
def resume (w : Workspace) (saved : Option (BodyId × Versions)) (kind : NodeKind) : Workspace :=
  match saved with
  | some (body, before) => if kind = .block then { w with flow := w.flow.restoreHeads body before } else w
  | none => w

/-- Typing some nodes one after another from `w` on, the pass comes to a statement at `v`. The versions that are saved are
those before the branches of a conditional. -/
inductive ComesTo (statement : Shape) (v : Workspace) : Role → Option (BodyId × Versions) → List Shape → Workspace → Prop where
  | here {rest : List Shape} : ComesTo statement v .statement none (statement :: rest) v
  | later {role : Role} {saved : Option (BodyId × Versions)} {first : Shape} {rest : List Shape} {w w₁ : Workspace} :
    typeAs role first w = .ok () w₁ → ComesTo statement v role saved rest (w₁.resume saved first.kind) →
      ComesTo statement v role saved (first :: rest) w
  | inNamespace {id : NodeId} {children rest : List Shape} {w : Workspace} : ComesTo statement v .statement none children w →
      ComesTo statement v .statement none (.node id .namespaceDecl children :: rest) w
  | inFunction {id : NodeId} {parts block rest : List Shape} {body : BodyId} {w w₁ : Workspace} :
    openFunction id w = .ok body w₁ → Shape.FirstBlock parts block → ComesTo statement v .statement none block w₁ →
      ComesTo statement v .statement none (.node id .functionDecl parts :: rest) w
  | inLoop {id : NodeId} {children rest : List Shape} {body : BodyId} {node : Node} {heads : Versions} {w w₁ : Workspace} :
    bodyOfNode id w = .ok body w → w.tree.get? id = some node → openLoop body node.position w = .ok heads w₁ →
      ComesTo statement v .branch none children w₁ →
      ComesTo statement v .statement none (.node id .whileStmt children :: rest) w
  | inConditional {id : NodeId} {children rest : List Shape} {body : BodyId} {w : Workspace} :
    bodyOfNode id w = .ok body w → ComesTo statement v .branch (some (body, w.flow.headsIn body)) children w →
      ComesTo statement v .statement none (.node id .ifStmt children :: rest) w
  | inBlock {id : NodeId} {saved : Option (BodyId × Versions)} {children rest : List Shape} {w : Workspace} :
    ComesTo statement v .statement none children w → ComesTo statement v .branch saved (.node id .block children :: rest) w

/-- A type variable stands at the head of a loop to which the pass comes. -/
def AtLoop (role : Role) (saved : Option (BodyId × Versions)) (shapes : List Shape) (w : Workspace) (head : TypeVarId) : Prop :=
  ∃ id children node body heads symbol v v', ComesTo (.node id .whileStmt children) v role saved shapes w ∧
    v.tree.get? id = some node ∧ bodyOfNode id v = .ok body v ∧ openLoop body node.position v = .ok heads v' ∧
    heads.get? symbol = some head

theorem AtLoop.mono {role' : Role} {saved' : Option (BodyId × Versions)} {shapes' : List Shape} {head : TypeVarId}
    (h : AtLoop role saved shapes w head) (hcomes : ∀ {statement v}, ComesTo statement v role saved shapes w →
      ComesTo statement v role' saved' shapes' w') : AtLoop role' saved' shapes' w' head := by
  obtain ⟨id, children, node, body, heads, symbol, v, v', hto, hloop⟩ := h
  exact ⟨id, children, node, body, heads, symbol, v, v', hcomes hto, hloop⟩

/-! ## What is ahead -/

/-- The nodes that are about to be typed stand in a body that has been met, and none of their functions has been opened. -/
structure Ahead (role : Role) (scope : ScopeId) (lo hi : Nat) (shapes : List Shape) (w : Workspace) : Prop where
  typed : w.Typed
  ready : Ready role scope lo hi shapes w
  named : w.flow.NamesHeads
  unique : w.table.OneScopeEach
  met : w.flow.HasBody .global
  entered : w.Entered scope
  unopened : ∀ ⦃function⦄, w.table.OpensWithin lo hi function → ¬ w.flow.HasBody (.function function)

section Ahead

variable (h : Ahead role scope lo hi shapes w)

include h

theorem Ahead.after (hadv : Advances loops opens w w')
    (hap : ∀ ⦃function⦄, opens function → ¬ w.table.OpensWithin lo hi function) : Ahead role scope lo hi shapes w' where
  typed := hadv.types.typed
  ready := hadv.types.ready h.ready
  named := hadv.runs.namesHeads h.named
  unique := hadv.types.table.oneScopeEach h.unique
  met := hadv.runs.hasBody h.met
  entered := fun _ hbdy => hadv.runs.hasBody (h.entered (hadv.types.table.symm.isBodyOf hbdy))
  unopened := fun function hfn => by
    have hwi := hadv.types.table.opensWithin.mp hfn
    exact hadv.runs.not_hasBody (fun hops => hap hops hwi) (h.unopened hwi)

theorem Ahead.inside {inner : Role} {inside : ScopeId} {lo' hi' : Nat} (hrdy : Ready inner inside lo' hi' children w)
    (hlo : lo ≤ lo') (hhi : hi' ≤ hi) (hentered : w.Entered inside) : Ahead inner inside lo' hi' children w :=
  { h with
    ready := hrdy
    entered := hentered
    unopened := fun _ hfn => h.unopened (hfn.mono hlo hhi) }

end Ahead

theorem Ahead.split (h : Ahead role scope lo hi (shape :: rest) w) :
    ∃ mid, lo ≤ mid ∧ mid ≤ hi ∧ Ahead role scope lo mid [shape] w ∧ Ahead role scope mid hi rest w := by
  obtain ⟨mid, hlo, hhi, hone, hoths⟩ := h.ready.split
  exact ⟨mid, hlo, hhi, h.inside hone (Nat.le_refl _) hhi h.entered, h.inside hoths hlo (Nat.le_refl _) h.entered⟩

theorem Ahead.within {inner : Role} (h : Ahead role scope lo hi [.node id kind children] w)
    (hinn : role.inner? kind = some inner) : ∃ mid ≤ hi, Ahead inner scope lo mid children w := by
  obtain ⟨mid, hmid, hrdy⟩ := h.ready.within hinn
  exact ⟨mid, hmid, h.inside hrdy (Nat.le_refl _) hmid h.entered⟩

/-! ## Expressions -/

/-- No loop is met and no function is opened. -/
abbrev Quietly : Workspace → Workspace → Prop := Advances (fun _ => False) fun _ => False

theorem Advances.of_quietly (h : Quietly w w') : Advances loops opens w w' := h.mono nofun nofun

theorem Ahead.quietly (h : Ahead role scope lo hi shapes w) (hadv : Quietly w w') :
    Ahead role scope lo hi shapes w' := h.after hadv nofun

theorem quietly_expressions (hvd : ∀ shape ∈ shapes, ∀ {scope lo hi w w' u}, Ahead .expression scope lo hi [shape] w →
      typeExpression shape w = .ok u w' → Quietly w w')
    (h : Ahead .expression scope lo hi shapes w) (hrun : typeEach .expression shapes w = .ok u w') :
    Quietly w w' := by
  induction shapes generalizing w lo with
  | nil =>
    rw [(pure_eq_ok.mp hrun).2]
    exact .refl h.typed
  | cons shape rest ih =>
    obtain ⟨_, w₁, hfst, hrs⟩ := bind_eq_ok.mp hrun
    obtain ⟨mid, _, _, hone, hoths⟩ := h.split
    have hadv := hvd shape List.mem_cons_self hone hfst
    exact hadv.trans (ih (fun other hoth => hvd other (List.mem_cons_of_mem _ hoth))
      (hoths.quietly hadv) hrs)

theorem quietly_expression (shape : Shape) {scope : ScopeId} {lo hi : Nat} {w w' : Workspace} {u : Unit}
    (h : Ahead .expression scope lo hi [shape] w) (hrun : typeExpression shape w = .ok u w') : Quietly w w' := by
  induction shape using induction generalizing scope lo hi w w' u with
  | node id kind children ih =>
    obtain ⟨mid, _, hch⟩ := h.within rfl
    obtain ⟨_, w₁, hfst, hnd⟩ := bind_eq_ok.mp hrun
    rw [typeExpressions_eq] at hfst
    have hadv := quietly_expressions ih hch hfst
    have h₁ := h.quietly hadv
    have hsc : w₁.tree.scopeOf id = .ok scope := h₁.ready.scopeOf_within (rfl : Role.expression.inner? kind = some .expression)
    have hpts : kind ≠ .block → ∀ child ∈ w₁.tree.children id, w₁.tree.scopeOf child = .ok scope :=
      fun hbl _ => h₁.ready.scopeOf_child rfl hbl
    have hown : Quietly w₁ w' := by
      cases kind <;> simp only [bind_eq_ok, pure_eq_ok] at hnd
      case literal =>
        obtain ⟨_, _, hliteral, _, rfl⟩ := hnd
        exact h₁.entered.advances_typeLiteral hsc h₁.typed hliteral
      case variableRef =>
        obtain ⟨_, _, hre, _, rfl⟩ := hnd
        exact h₁.entered.advances_typeRead hsc h₁.typed h₁.named hre
      case identifier =>
        obtain ⟨_, _, hconstant, _, rfl⟩ := hnd
        exact h₁.entered.advances_typeConstant hsc h₁.typed hconstant
      case call =>
        obtain ⟨_, _, hcl, _, rfl⟩ := hnd
        exact h₁.entered.advances_typeCall hsc h₁.typed (hpts nofun) hcl
      case operator =>
        obtain ⟨_, _, hoperator, _, rfl⟩ := hnd
        exact h₁.entered.advances_typeOperator hsc h₁.typed (hpts nofun) hoperator
      all_goals
        rw [hnd.2]
        exact .refl h₁.typed
    exact hadv.trans hown

/-! ## Statements -/

/-- Wherever a node is typed, the pass makes moves only, with the loops and the functions to which it comes there. -/
def AdvanceVisited (shape : Shape) : Prop :=
  ∀ {role : Role} {scope : ScopeId} {lo hi : Nat} {w w' : Workspace} {u : Unit}, role ≠ .part →
    Ahead role scope lo hi [shape] w → typeAs role shape w = .ok u w' →
    Advances (AtLoop role none [shape] w) (w.table.OpensWithin lo hi) w w'

theorem ComesTo.first {statement : Shape} {v : Workspace}
    (h : ComesTo statement v role none [shape] w) (hsaved : saved = none ∨ role = .branch) :
    ComesTo statement v role saved (shape :: rest) w := by
  cases h with
  | here =>
    obtain rfl : saved = none := hsaved.resolve_right nofun
    exact .here
  | later _ h => nomatch h
  | inNamespace h =>
    obtain rfl : saved = none := hsaved.resolve_right nofun
    exact .inNamespace h
  | inFunction hop hbl h =>
    obtain rfl : saved = none := hsaved.resolve_right nofun
    exact .inFunction hop hbl h
  | inLoop hbdy hnd hop h =>
    obtain rfl : saved = none := hsaved.resolve_right nofun
    exact .inLoop hbdy hnd hop h
  | inConditional hbdy h =>
    obtain rfl : saved = none := hsaved.resolve_right nofun
    exact .inConditional hbdy h
  | inBlock h => exact .inBlock h

section Each

variable (hvd : ∀ shape ∈ shapes, AdvanceVisited shape)

include hvd

theorem advances_each (hro : role ≠ .part) (h : Ahead role scope lo hi shapes w) (hrun : typeEach role shapes w = .ok u w') :
    Advances (AtLoop role none shapes w) (w.table.OpensWithin lo hi) w w' := by
  induction shapes generalizing w lo with
  | nil =>
    rw [(pure_eq_ok.mp hrun).2]
    exact .refl h.typed
  | cons shape rest ih =>
    obtain ⟨_, w₁, hfst, hrs⟩ := bind_eq_ok.mp hrun
    obtain ⟨mid, hlo, hhi, hone, hoths⟩ := h.split
    have hadv := hvd shape List.mem_cons_self hro hone hfst
    have hoths₁ := hoths.after hadv fun function hfn =>
      h.unique.not_opensWithin hfn (.inl (Nat.le_refl _))
    have hrests := ih (fun other hoth => hvd other (List.mem_cons_of_mem _ hoth)) hoths₁ hrs
    refine (hadv.mono (fun head hhd => ?_) fun _ hfn => ?_).trans
      (hrests.mono (fun head hhd => ?_) fun _ hfn => ?_)
    · exact hhd.mono fun hcomes => hcomes.first (.inl rfl)
    · exact hfn.mono (Nat.le_refl _) hhi
    · exact hhd.mono fun hcomes => .later hfst hcomes
    · exact (hadv.types.table.opensWithin.mp hfn).mono hlo (Nat.le_refl _)

theorem advances_branches (h : Ahead .branch scope lo hi shapes w)
    (hbef : w.HoldsVersions body before ∧ w.flow.NamesVersions body before)
    (hrun : typeBranches body before shapes w = .ok branches w') :
    Advances (AtLoop .branch (some (body, before)) shapes w) (w.table.OpensWithin lo hi) w w' ∧
      ∀ branch ∈ branches, w'.HoldsVersions body branch ∧ w'.flow.NamesVersions body branch := by
  induction shapes generalizing w lo branches with
  | nil =>
    obtain ⟨rfl, rfl⟩ := pure_eq_ok.mp hrun
    exact ⟨.refl h.typed, nofun⟩
  | cons shape rest ih =>
    obtain ⟨w₁, others, hfst, hrs⟩ := typeBranches_cons hrun
    obtain ⟨mid, hlo, hhi, hone, hoths⟩ := h.split
    have hadv := hvd shape List.mem_cons_self (by decide) hone hfst
    -- Behind a block the versions from before are restored; either way the rest starts from `resume`.
    obtain ⟨hresumes, hrs, hown⟩ :
        Advances (AtLoop .branch none [shape] w) (w.table.OpensWithin lo mid) w
          (w₁.resume (some (body, before)) shape.kind) ∧
        typeBranches body before rest (w₁.resume (some (body, before)) shape.kind) = .ok others w' ∧
        ∀ branch ∈ branches, branch ∈ others ∨
          (w₁.resume (some (body, before)) shape.kind).HoldsVersions body branch ∧
            (w₁.resume (some (body, before)) shape.kind).flow.NamesVersions body branch := by
      rcases hrs with ⟨hk, rfl, hrs⟩ | ⟨hk, rfl, hrs⟩
      · rw [resume, if_pos hk]
        have hrestores : Types w₁ _ :=
          hadv.types.typed.types_restoreHeads (hbef.1.mono hadv.types)
        refine ⟨⟨hadv.types.trans hrestores, hadv.runs.tail (.heads (hbef.2.mono hadv.types.flow))⟩, hrs,
          fun branch hbr => ?_⟩
        rcases List.mem_cons.mp hbr with rfl | hbr
        · exact .inr ⟨(hadv.types.typed.holdsVersions_headsIn body).mono hrestores,
            (hadv.runs.namesHeads h.named body).mono hrestores.flow⟩
        · exact .inl hbr
      · rw [resume, if_neg hk]
        exact ⟨hadv, hrs, fun _ => .inl⟩
    have hoths₁ := hoths.after hresumes fun function hfn =>
      h.unique.not_opensWithin hfn (.inl (Nat.le_refl _))
    obtain ⟨hrests, hbrs⟩ := ih (fun other hoth => hvd other (List.mem_cons_of_mem _ hoth)) hoths₁
      ⟨hbef.1.mono hresumes.types, hbef.2.mono hresumes.types.flow⟩ hrs
    refine ⟨(hresumes.mono (fun head hhd => ?_) fun _ hfn => ?_).trans
      (hrests.mono (fun head hhd => ?_) fun _ hfn => ?_), fun branch hbr => ?_⟩
    · exact hhd.mono fun hcomes => hcomes.first (.inr rfl)
    · exact hfn.mono (Nat.le_refl _) hhi
    · exact hhd.mono fun hcomes => .later hfst hcomes
    · exact (hresumes.types.table.opensWithin.mp hfn).mono hlo (Nat.le_refl _)
    · rcases hown branch hbr with hmem | ⟨hholds, hnmd⟩
      · exact hbrs branch hmem
      · exact ⟨hholds.mono hrests.types, hnmd.mono hrests.types.flow⟩

end Each

theorem Ahead.firstBlock {block : List Shape} (hbl : FirstBlock parts block) (h : Ahead .part scope lo hi parts w) :
    ∃ lo' hi', lo ≤ lo' ∧ hi' ≤ hi ∧ Ahead .statement scope lo' hi' block w := by
  induction hbl generalizing lo with
  | here =>
    obtain ⟨mid, _, hmid, hone, _⟩ := h.split
    obtain ⟨hi', hle, hins⟩ := hone.within (rfl : Role.part.inner? .block = some .statement)
    exact ⟨lo, hi', Nat.le_refl _, Nat.le_trans hle hmid, hins⟩
  | later _ _ ih =>
    obtain ⟨mid, hle, _, _, hoths⟩ := h.split
    obtain ⟨lo', hi', hlo, hhi, hins⟩ := ih hoths
    exact ⟨lo', hi', Nat.le_trans hle hlo, hhi, hins⟩

section Node

variable (hvd : ∀ child ∈ children, AdvanceVisited child)

include hvd

theorem advances_namespace (h : Ahead .statement scope lo hi [.node id .namespaceDecl children] w)
    (hrun : typeStatement (.node id .namespaceDecl children) w = .ok u w') :
    Advances (AtLoop .statement none [.node id .namespaceDecl children] w)
      (w.table.OpensWithin lo hi) w w' := by
  obtain ⟨_, opened, mid, _, hops, hlo, hhi, hins⟩ := h.ready.opens rfl
  rw [typeStatement, typeStatements_eq] at hrun
  cases hops with
  | namespaceBlock _ _ hsc hbl =>
    have hentered : w.Entered opened := by
      intro body hbdy
      rw [hbdy.unique (h.ready.rooted.isBodyOf_namespace hsc (by rw [Scope.isNamespace, hbl]))]
      exact h.met
    have hadv := advances_each hvd (by decide) (h.inside hins (Nat.le_succ_of_le hlo) hhi hentered) hrun
    refine hadv.mono (fun head hhd => ?_) fun _ hfn => ?_
    · exact hhd.mono .inNamespace
    · exact hfn.mono (Nat.le_succ_of_le hlo) hhi

theorem advances_conditional (h : Ahead .statement scope lo hi [.node id .ifStmt children] w)
    (hrun : typeStatement (.node id .ifStmt children) w = .ok u w') :
    Advances (AtLoop .statement none [.node id .ifStmt children] w)
      (w.table.OpensWithin lo hi) w w' := by
  obtain ⟨mid, hmid, hbrs⟩ := h.within (rfl : Role.statement.inner? .ifStmt = some .branch)
  have hsc := h.ready.scopeOf_within (rfl : Role.statement.inner? .ifStmt = some .branch)
  simp only [typeStatement, bind_eq_ok, askTree_eq_ok, get_eq_ok, pure_eq_ok] at hrun
  obtain ⟨body, _, hbdy, node, _, ⟨_, rfl⟩, _, w₀, ⟨rfl, rfl⟩, branches, w₁, htpBranches, merged, _, hmg, _, rfl⟩ := hrun
  obtain ⟨hof, rfl⟩ := bodyOfNode_eq_ok.mp hbdy
  have hmet := h.entered (BelongsTo.isBodyOf hof hsc)
  have hbef := And.intro (h.typed.holdsVersions_headsIn body) (h.named body)
  obtain ⟨hadv, hheld⟩ := advances_branches hvd hbrs hbef htpBranches
  have hmerges : Quietly w₁ w' := by
    refine hadv.types.typed.advances_mergeVersionsOf (hadv.runs.namesHeads h.named) (hadv.runs.hasBody hmet)
      (fun versions hmem => ?_) hmg
    rcases List.mem_cons.mp hmem with rfl | hmem
    · exact ⟨hbef.1.mono hadv.types, hbef.2.mono hadv.types.flow⟩
    · exact hheld versions hmem
  refine (hadv.trans (.of_quietly hmerges)).mono (fun head hhd => ?_) fun _ hfn => ?_
  · exact hhd.mono (.inConditional hbdy)
  · exact hfn.mono (Nat.le_refl _) hmid

theorem advances_whileLoop (h : Ahead .statement scope lo hi [.node id .whileStmt children] w)
    (hrun : typeStatement (.node id .whileStmt children) w = .ok u w') :
    Advances (AtLoop .statement none [.node id .whileStmt children] w)
      (w.table.OpensWithin lo hi) w w' := by
  obtain ⟨mid, hmid, hbrs⟩ := h.within (rfl : Role.statement.inner? .whileStmt = some .branch)
  have hsc := h.ready.scopeOf_within (rfl : Role.statement.inner? .whileStmt = some .branch)
  simp only [typeStatement, bind_eq_ok, askTree_eq_ok] at hrun
  obtain ⟨body, _, hbdy, node, w, ⟨hnd, rfl⟩, heads, w₁, hop, _, w₂, hloop, hclose⟩ := hrun
  obtain ⟨hof, rfl⟩ := bodyOfNode_eq_ok.mp hbdy
  rw [typeLoop_eq] at hloop
  have hmet := h.entered (BelongsTo.isBodyOf hof hsc)
  obtain ⟨hops, hjoins, hnmd⟩ : Quietly w w₁ ∧ _ :=
    h.typed.advances_openLoop h.named hmet hop
  have hbrs₁ := hbrs.quietly hops
  have hadv := advances_each hvd (by decide) hbrs₁ hloop
  have hloops : ∀ symbol head, heads.get? symbol = some head →
      AtLoop .statement none [.node id .whileStmt children] w head := fun symbol head hhd =>
    ⟨id, children, node, body, heads, symbol, w, w₁, .here, Tree.node_eq_ok.mp hnd, hbdy, hop, hhd⟩
  have hcloses : Advances _ (w.table.OpensWithin lo hi) w₂ w' :=
    hadv.types.typed.advances_closeLoop (hadv.runs.namesHeads hbrs₁.named) (hjoins.mono hadv.types)
      (hnmd.mono hadv.types.flow) hloops hclose
  refine Advances.trans (.of_quietly hops)
    ((hadv.mono (fun head hhd => ?_) fun _ hfn => ?_).trans hcloses)
  · exact hhd.mono (.inLoop hbdy (Tree.node_eq_ok.mp hnd) hop)
  · exact (hops.types.table.opensWithin.mp hfn).mono (Nat.le_refl _) hmid

end Node

/-- The function that a node declares is opened within the numbers of the node, and its body stands inside. -/
theorem advances_function (hvd : ∀ {block : List Shape}, FirstBlock parts block →
      ∀ statement ∈ block, AdvanceVisited statement)
    (h : Ahead .statement scope lo hi [.node id .functionDecl parts] w)
    (hrun : typeStatement (.node id .functionDecl parts) w = .ok u w') :
    Advances (AtLoop .statement none [.node id .functionDecl parts] w)
      (w.table.OpensWithin lo hi) w w' := by
  obtain ⟨node, opened, mid, hnd, hops, hlo, hhi, hins⟩ := h.ready.opens rfl
  simp only [typeStatement, bind_eq_ok] at hrun
  obtain ⟨body, w₁, hop, hbl⟩ := hrun
  cases hops with
  | @function _ function _ entry _ _ hsym he hmth =>
    have hlt : opened.index < hi := Nat.lt_of_lt_of_le (Nat.lt_of_succ_le hins.stands.le) hhi
    have hwi : w.table.OpensWithin lo hi function := ⟨opened, entry, he, hmth, hlo, hlt⟩
    have hsymOf : w.tree.symbolOf id = .ok function := Tree.symbolOf_eq_ok.mpr ⟨node, hnd, hsym⟩
    have hmove : Moves (fun _ => False) (· = function) w w₁ := .function rfl (h.unopened hwi) hsymOf hop
    have hruns : Runs (fun _ => False) (· = function) w w₁ := .single hmove
    have htps : Types w w₁ := h.typed.types_openFunction hop
    obtain ⟨other, _, _, _, _, hoth, _, _, rfl, _, _, _, hopn⟩ := openFunction_eq_ok hop
    obtain rfl : other = function := Except.ok.inj (hoth.symm.trans hsymOf)
    have hmet : w₁.flow.HasBody (.function other) := by
      rw [hopn]
      exact (Flow.hasBody_updateBody ..).mpr (.inl rfl)
    have hself : w.table.OpensWithin opened.index (opened.index + 1) other :=
      ⟨opened, entry, he, hmth, Nat.le_refl _, Nat.lt_succ_self _⟩
    have hpt : Ahead .part opened (opened.index + 1) mid parts w₁ := {
      typed := htps.typed
      ready := htps.ready hins
      named := hruns.namesHeads h.named
      unique := htps.table.oneScopeEach h.unique
      met := hruns.hasBody h.met
      entered := by
        intro body hbdy
        rw [(htps.table.symm.isBodyOf hbdy).unique (h.ready.rooted.isBodyOf_method he hmth)]
        exact hmet
      unopened := by
        intro function' hfn'
        have hwi' := htps.table.opensWithin.mp hfn'
        refine hruns.not_hasBody ?_ (h.unopened (hwi'.mono (Nat.le_succ_of_le hlo) hhi))
        rintro rfl
        exact h.unique.not_opensWithin hself (.inl (Nat.le_refl _)) hwi' }
    refine Advances.trans ⟨htps, hruns.mono (by simp) fun _ hfn => hfn ▸ hwi⟩ ?_
    rcases typeFirstBlock_eq_ok hbl with rfl | ⟨block, hfst, hstatements⟩
    · exact .refl htps.typed
    · obtain ⟨lo', hi', hlo', hhi', hahead⟩ := hpt.firstBlock hfst
      refine (advances_each (hvd hfst) (by decide) hahead hstatements).mono (fun head hhd => ?_)
        fun _ hfn => ?_
      · exact hhd.mono (.inFunction hop hfst)
      · exact (htps.table.opensWithin.mp hfn).mono (by omega) (Nat.le_trans hhi' hhi)

theorem quietly_assign (h : Ahead .statement scope lo hi [.node id .assign children] w)
    (hrun : typeStatement (.node id .assign children) w = .ok u w') : Quietly w w' := by
  obtain ⟨target, value, rfl⟩ := exists_parts_of_typeAssign (h.ready.follows _ List.mem_cons_self) hrun
  obtain ⟨written, mid, hmid, hwr, hsc, hvl, _⟩ := h.ready.assignment
  simp only [typeStatement, Step.bind_eq_ok, Step.pure_eq_ok] at hrun
  obtain ⟨_, w₁, hexp, _, _, hassign, _, rfl⟩ := hrun
  have hadv := quietly_expression value (h.inside hvl (Nat.le_refl _) hmid h.entered) hexp
  have h₁ := h.quietly hadv
  obtain ⟨node, hnd, _⟩ := (h₁.ready.follows _ (List.mem_singleton_self _)).exists_node
  have hch : w₁.tree.children id = [target.id, value.id] :=
    (Tree.children_of_get? hnd).trans ((h₁.ready.follows _ (List.mem_singleton_self _)).children_eq hnd nofun)
  have ht := hadv.types.scopeOf (Tree.scopeOf_eq_ok.mpr ⟨written, hwr, hsc⟩)
  exact hadv.trans (h₁.entered.advances_typeAssignment h₁.ready.scopeOf_assignment h₁.typed h₁.named hch ht
    (hadv.types.scopeOf (hvl.scopeOf List.mem_cons_self)) hassign)

/-- The expressions of a statement, and what is done with the statement then. -/
theorem quietly_children {last : Step Workspace Unit} (h : Ahead .statement scope lo hi [.node id kind children] w)
    (hinn : Role.statement.inner? kind = some .expression)
    (hls : ∀ {v : Workspace}, Ahead .statement scope lo hi [.node id kind children] v → last v = .ok u w' →
      Quietly v w')
    (hrun : (do typeExpressions children; last) w = .ok u w') : Quietly w w' := by
  obtain ⟨_, w₁, hch, hrun⟩ := bind_eq_ok.mp hrun
  obtain ⟨mid, hmid, hins⟩ := h.within hinn
  rw [typeExpressions_eq] at hch
  have hadv := quietly_expressions (fun shape _ => quietly_expression shape) hins hch
  exact hadv.trans (hls (h.quietly hadv) hrun)

theorem advances_statement (hvd : ∀ child ∈ children, AdvanceVisited child)
    (hbel : ∀ {block : List Shape}, FirstBlock children block → ∀ statement ∈ block, AdvanceVisited statement)
    (h : Ahead .statement scope lo hi [.node id kind children] w)
    (hrun : typeStatement (.node id kind children) w = .ok u w') :
    Advances (AtLoop .statement none [.node id kind children] w)
      (w.table.OpensWithin lo hi) w w' := by
  cases kind
  case namespaceDecl => exact advances_namespace hvd h hrun
  case functionDecl => exact advances_function hbel h hrun
  case ifStmt => exact advances_conditional hvd h hrun
  case whileStmt => exact advances_whileLoop hvd h hrun
  case assign => exact .of_quietly (quietly_assign h hrun)
  case returnStmt =>
    refine .of_quietly (quietly_children h rfl (fun {v} h₁ hls => ?_) hrun)
    obtain ⟨_, _, hret, hpure⟩ := bind_eq_ok.mp hls
    obtain ⟨_, rfl⟩ := pure_eq_ok.mp hpure
    exact h₁.typed.advances_typeReturn (h₁.ready.scopeOf_within rfl) (fun _ => h₁.ready.scopeOf_child rfl nofun) hret
  case echoStmt =>
    refine .of_quietly (quietly_children h rfl (fun {v} h₁ hls => ?_) hrun)
    obtain ⟨_, _, hecho, hpure⟩ := bind_eq_ok.mp hls
    obtain ⟨_, rfl⟩ := pure_eq_ok.mp hpure
    exact h₁.entered.advances_typeEcho (h₁.ready.scopeOf_within rfl) h₁.typed (fun _ => h₁.ready.scopeOf_child rfl nofun) hecho
  case exprStmt =>
    obtain ⟨mid, hmid, hins⟩ := h.within (rfl : Role.statement.inner? .exprStmt = some .expression)
    rw [typeStatement, typeExpressions_eq] at hrun
    exact .of_quietly (quietly_expressions (fun shape _ => quietly_expression shape) hins hrun)
  all_goals
    rw [(pure_eq_ok.mp hrun).2]
    exact .refl h.typed

theorem advanceVisited_below (shape : Shape) : AdvanceVisited shape ∧ ∀ child ∈ shape.children, AdvanceVisited child := by
  induction shape using induction with
  | node id kind children ih =>
    refine ⟨fun {role scope lo hi w w' u} hro h hrun => ?_, fun child hcd => (ih child hcd).1⟩
    have hvd : ∀ child ∈ children, AdvanceVisited child := fun child hcd => (ih child hcd).1
    cases role with
    | part => exact absurd rfl hro
    | expression => exact .of_quietly (quietly_expression _ h hrun)
    | statement =>
      refine advances_statement hvd (fun hbl statement hstm => ?_) h hrun
      obtain ⟨block, hmem⟩ := hbl.exists_mem
      exact (ih _ hmem).2 statement hstm
    | branch =>
      by_cases hk : kind = .block
      · subst hk
        obtain ⟨_, opened, mid, _, hops, hlo, hhi, hins⟩ := h.ready.opens rfl
        rw [typeAs, if_pos rfl, typeStatements_eq] at hrun
        cases hops with
        | branch _ _ he hcdl henc =>
          have hentered : w.Entered opened := fun body hbdy =>
            h.entered ((h.ready.rooted.isBodyOf_branch he hcdl henc).mp hbdy)
          refine (advances_each hvd (by decide) (h.inside hins (Nat.le_succ_of_le hlo) hhi hentered) hrun).mono
            (fun head hhd => ?_) fun _ hfn => ?_
          · exact hhd.mono .inBlock
          · exact hfn.mono (Nat.le_succ_of_le hlo) hhi
      · rw [typeAs, if_neg hk] at hrun
        exact .of_quietly (quietly_expression _ { h with ready := h.ready.condition hk } hrun)

/-- The whole pass types the nodes of the program and makes moves only. -/
theorem advances_typeAll (h : Ahead .statement scope lo hi w.statements w) (hrun : typeAll w = .ok u w') :
    Advances (AtLoop .statement none w.statements w) (w.table.OpensWithin lo hi) w w' := by
  simp only [typeAll, bind_eq_ok, get_eq_ok] at hrun
  obtain ⟨_, w, ⟨rfl, rfl⟩, hrun⟩ := hrun
  rw [typeStatements_eq] at hrun
  exact advances_each (fun shape _ => (advanceVisited_below shape).1) (by decide) h hrun

end SoftTyping.Workspace
