import SoftTyping.Proofs.Analysis.Referred

/-!
# Returns at the end of functions

A path through some statements runs one after the other: of a conditional it runs one of the blocks, of a loop one of the
blocks at a time and as often as it likes, and a return ends it (`Shape.Path`). A block that always returns is one that no
path leaves at its end, and `closeBody` makes every body such a block by one statement at its end.
-/

namespace SoftTyping

namespace Shape

/-! ## Paths -/

/-- A path that comes to a statement can run a block of it. -/
inductive Runs : Shape → List Shape → Prop where
  | block {id : NodeId} {body : List Shape} : Runs (.node id .block body) body
  | branch {id inner : NodeId} {parts body : List Shape} :
    .node inner .block body ∈ parts → Runs (.node id .ifStmt parts) body
  | loop {id inner : NodeId} {parts body : List Shape} :
    .node inner .block body ∈ parts → Runs (.node id .whileStmt parts) body

/-- Whether a path can go on behind a statement and run no block of it: a conditional with two blocks runs one of them. -/
def isPassable : Shape → Bool
  | .node _ .block _ | .node _ .returnStmt _ => false
  | .node _ .ifStmt parts => parts.countP (·.kind = .block) ≠ 2
  | _ => true

/-- The paths through some statements, which a return ends or which come to the end of the last statement. -/
inductive Path : List Shape → (returned : Bool) → Prop where
  | done : Path [] false
  | return {id : NodeId} {parts rest : List Shape} : Path (.node id .returnStmt parts :: rest) true
  | pass {first : Shape} {rest : List Shape} {returned : Bool} :
    first.isPassable = true → Path rest returned → Path (first :: rest) returned
  | inside {first : Shape} {body rest : List Shape} : first.Runs body → Path body true → Path (first :: rest) true
  | through {first : Shape} {body rest : List Shape} {returned : Bool} :
    first.Runs body → first.kind ≠ .whileStmt → Path body false → Path rest returned → Path (first :: rest) returned
  | again {first : Shape} {body rest : List Shape} {returned : Bool} :
    first.Runs body → first.kind = .whileStmt → Path body false → Path (first :: rest) returned →
      Path (first :: rest) returned

theorem Runs.sizeOf_lt {first : Shape} {body : List Shape} (h : first.Runs body) : sizeOf body < sizeOf first := by
  cases h with
  | block => simp
  | branch hm | loop hm =>
    have := List.sizeOf_lt_of_mem hm
    simp only [node.sizeOf_spec] at this ⊢
    omega

theorem runs_of_isPassable_eq_false {id : NodeId} {kind : NodeKind} {parts : List Shape}
    (h : (Shape.node id kind parts).isPassable = false) :
    kind = .returnStmt ∨ kind ≠ .whileStmt ∧ ∃ body, (Shape.node id kind parts).Runs body := by
  unfold isPassable at h
  split at h
  next heq =>
    cases heq
    exact .inr ⟨nofun, _, .block⟩
  next heq =>
    cases heq
    exact .inl rfl
  next heq =>
    cases heq
    have hpos : 0 < parts.countP (·.kind = .block) := by
      simp only [ne_eq, decide_not, Bool.not_eq_false', decide_eq_true_eq] at h
      omega
    obtain ⟨⟨inner, kind, body⟩, hm, hk⟩ := List.countP_pos_iff.mp hpos
    obtain rfl : kind = .block := of_decide_eq_true hk
    exact .inr ⟨nofun, body, .branch hm⟩
  next => cases h

theorem exists_path (statements : List Shape) : ∃ returned, Path statements returned := by
  match statements with
  | [] => exact ⟨false, .done⟩
  | .node id kind parts :: rest =>
    obtain ⟨returned, hrs⟩ := exists_path rest
    cases hp : (Shape.node id kind parts).isPassable with
    | true => exact ⟨returned, .pass hp hrs⟩
    | false =>
      rcases runs_of_isPassable_eq_false hp with rfl | ⟨hk, body, hb⟩
      · exact ⟨true, .return⟩
      · have := hb.sizeOf_lt
        obtain ⟨inner, hin⟩ := exists_path body
        cases inner with
        | true => exact ⟨true, .inside hb hin⟩
        | false => exact ⟨returned, .through hb hk hin hrs⟩
termination_by sizeOf statements
decreasing_by all_goals rw [List.cons.sizeOf_spec]; omega

/-! ## Statements that always return -/

theorem blocksReturn_snd (parts : List Shape) : (blocksReturn parts).2 = parts.countP (·.kind = .block) := by
  induction parts with
  | nil => rw [blocksReturn, List.countP_nil]
  | cons first rest ih =>
    obtain ⟨id, kind, body⟩ := first
    rw [blocksReturn, List.countP_cons, ← ih]
    by_cases hk : kind = .block <;> simp [hk, Shape.kind]

theorem lastReturns_of_blocksReturn {parts body : List Shape} {inner : NodeId} (h : (blocksReturn parts).1 = true)
    (hm : .node inner .block body ∈ parts) : lastReturns body = true := by
  induction parts with
  | nil => cases hm
  | cons first rest ih =>
    obtain ⟨id, kind, statements⟩ := first
    rw [blocksReturn] at h
    rcases List.mem_cons.mp hm with heq | hm
    · cases heq
      simp only [if_true, Bool.and_eq_true] at h
      exact h.1
    · refine ih ?_ hm
      by_cases hk : kind = .block <;> simp_all

theorem lastReturns_cons {first : Shape} {rest : List Shape} (h : lastReturns (first :: rest) = true) :
    first.isPassable = false ∧ (∀ body, first.Runs body → lastReturns body = true) ∨ lastReturns rest = true := by
  cases rest with
  | cons => exact .inr (by rwa [lastReturns] at h)
  | nil =>
    obtain ⟨id, kind, parts⟩ := first
    refine .inl ?_
    rw [lastReturns.eq_def] at h
    dsimp only at h
    split at h
    next => exact ⟨rfl, fun _ hruns => by cases hruns⟩
    next =>
      have hret : blocksReturn parts = (true, 2) := by simpa using h
      refine ⟨by simp [isPassable, ← blocksReturn_snd, hret], ?_⟩
      intro body hb
      cases hb with
      | branch hm => exact lastReturns_of_blocksReturn (by rw [hret]) hm
    next => cases h

theorem Path.returned_of_lastReturns {statements : List Shape} {returned : Bool} (hp : Path statements returned)
    (h : lastReturns statements = true) : returned = true := by
  induction hp with
  | done => simp [lastReturns] at h
  | «return» => rfl
  | inside => rfl
  | pass hpass _ ih =>
    rcases lastReturns_cons h with ⟨hno, _⟩ | h
    · rw [hpass] at hno
      cases hno
    · exact ih h
  | through hb _ _ _ ihb ih =>
    rcases lastReturns_cons h with ⟨_, hbody⟩ | h
    · exact absurd (ihb (hbody _ hb)) (by decide)
    · exact ih h
  | again _ _ _ _ _ ih => exact ih h

theorem lastReturns_append_singleton (statements : List Shape) (last : Shape) :
    lastReturns (statements ++ [last]) = lastReturns [last] := by
  induction statements with
  | nil => rfl
  | cons first rest ih => cases rest <;> simp_all [lastReturns]

end Shape

namespace Workspace

/-! ## Closing a body -/

variable {w w' : Workspace} {function block : NodeId} {node : Node} {scope : ScopeId} {added : Option NodeId}

/-- A tree comes from another by a return of `null` at the end of a block: the statement and its value are new, the block
has one more child, and all other nodes are as they were. -/
structure ReturnsNull (tree tree' : Tree) (block : NodeId) (node : Node) (scope : ScopeId) : Prop where
  size : tree'.size = tree.size + 2
  statement : tree'.get? ⟨tree.size⟩ = some
    { kind := .returnStmt, text := "return", position := node.position, parent := some block,
      children := [⟨tree.size + 1⟩], scope := some scope }
  value : tree'.get? ⟨tree.size + 1⟩ = some
    { kind := .literal .null, text := "null", position := node.position, parent := some ⟨tree.size⟩, scope := some scope }
  body : tree'.get? block = some { node with children := node.children ++ [⟨tree.size⟩] }
  frame : ∀ id : NodeId, id.index < tree.size → id ≠ block → tree'.get? id = tree.get? id

theorem returnsNull_addReturn {tree : Tree} (hnd : tree.get? block = some node) (scope : ScopeId) :
    ReturnsNull tree (addReturn tree block "return" "null" node.position scope) block node scope := by
  have hbl := Tree.lt_size_of_get? hnd
  refine ⟨by simp only [addReturn, Tree.size_addPlaced], ?_, ?_, ?_, fun id hid hne => ?_⟩
  · rw [get?_addReturn hbl, if_neg (Nat.ne_of_lt (Nat.lt_succ_self _)), if_pos rfl]
  · rw [get?_addReturn hbl, if_pos rfl]
  · rw [get?_addReturn hbl, if_neg (by omega), if_neg (by omega), if_pos rfl, hnd, Option.map_some]
  · rw [get?_addReturn hbl, if_neg (by omega), if_neg (by omega),
      if_neg fun hix => hne (NodeId.ext hix)]

theorem isBlock_addReturn {tree : Tree} (hnd : tree.get? block = some node) (id : NodeId) :
    (((addReturn tree block "return" "null" node.position scope).get? id).any fun node => node.kind = .block) =
      (tree.get? id).any fun node => node.kind = .block := by
  have hnew : tree.size ≤ id.index → tree.get? id = none := fun h => by simpa [Tree.get?, Tree.size] using h
  rw [get?_addReturn (Tree.lt_size_of_get? hnd)]
  split
  next hix =>
    rw [hnew (by omega)]
    rfl
  next =>
    split
    next hix =>
      rw [hnew (by omega)]
      rfl
    next => split <;> simp [Option.any_map]

theorem functionBody_addReturn {tree : Tree} (hbl : functionBody tree function = .ok block)
    (hnd : tree.get? block = some node) (scope : ScopeId) :
    functionBody (addReturn tree block "return" "null" node.position scope) function = .ok block := by
  obtain ⟨⟨fn, hfn, hfk⟩, hch⟩ := functionBody_eq_ok.mp hbl
  have hne : function ≠ block := by
    rintro rfl
    obtain ⟨_, _, hnd', hk⟩ := Tree.childOfKind?_eq_some hch
    cases hfn.symm.trans hnd'
    cases hfk.symm.trans hk
  have hfn' := ((returnsNull_addReturn hnd scope).frame function (Tree.lt_size_of_get? hfn) hne).trans hfn
  refine functionBody_eq_ok.mpr ⟨⟨fn, hfn', hfk⟩, ?_⟩
  rw [Tree.childOfKind?, Tree.children, hfn] at hch
  rw [Tree.childOfKind?, Tree.children, hfn', ← hch]
  exact congrArg (fn.children.find? ·) (funext fun id => isBlock_addReturn hnd id)

theorem alwaysReturns_addReturn {tree : Tree} (hnd : tree.get? block = some node) (scope : ScopeId) :
    ((addReturn tree block "return" "null" node.position scope).shape block).alwaysReturns = true := by
  have h := returnsNull_addReturn hnd scope
  rw [Tree.shape, h.size, Tree.shapeWithin, Shape.alwaysReturns, Tree.children, h.body, List.map_append,
    List.map_singleton, Shape.lastReturns_append_singleton, Tree.shapeWithin, h.statement]
  exact Shape.lastReturns.eq_2 _ _

theorem closeBody_of_functionBody (hbl : functionBody w.tree function = .ok block) (hnd : w.tree.get? block = some node) :
    closeBody function w = .ok added w' ↔
      (w.tree.shape block).alwaysReturns = true ∧ added = none ∧ w' = w ∨
        (w.tree.shape block).alwaysReturns = false ∧ ∃ scope, node.scope = some scope ∧ added = some ⟨w.tree.size⟩ ∧
          w' = { w with tree := addReturn w.tree block "return" "null" node.position scope } := by
  rw [closeBody_eq_ok]
  constructor
  · rintro ⟨_, _, hbl', hnd', _, h⟩
    cases hbl.symm.trans hbl'
    cases hnd.symm.trans hnd'
    exact h
  · intro h
    obtain ⟨_, _, hnd', hk⟩ := Tree.childOfKind?_eq_some (functionBody_eq_ok.mp hbl).2
    cases hnd.symm.trans hnd'
    exact ⟨block, node, hbl, hnd, hk, h⟩

/-- A path through a block that always returns comes to a return. Closing a function's body, which is done unless the body
can be left at its end and stands in no scope, makes it such a block: it adds nothing, or a return of `null` in the body's
scope at its end. Closing it once more adds nothing. -/
theorem closeBody_closes :
    (∀ body : Shape, (∃ returned, Shape.Path body.children returned) ∧
      (body.alwaysReturns = true → ∀ returned, Shape.Path body.children returned → returned = true)) ∧
    ∀ (w : Workspace) (function body : NodeId) (node : Node), functionBody w.tree function = .ok body →
      w.tree.get? body = some node →
      ((∃ added w', closeBody function w = .ok added w') ↔ (w.tree.shape body).alwaysReturns = true ∨ node.scope ≠ none) ∧
      ∀ added w', closeBody function w = .ok added w' →
        (w'.tree.shape body).alwaysReturns = true ∧ closeBody function w' = .ok none w' ∧
        (added = none ∧ w' = w ∨
          ∃ scope, node.scope = some scope ∧ added = some ⟨w.tree.size⟩ ∧ w' = { w with tree := w'.tree } ∧
            ReturnsNull w.tree w'.tree body node scope) := by
  refine ⟨fun ⟨_, _, statements⟩ => ⟨Shape.exists_path statements, fun h _ hp => ?_⟩,
    fun w function body node hbl hnd => ⟨?_, fun added w' h => ?_⟩⟩
  · rw [Shape.alwaysReturns] at h
    exact hp.returned_of_lastReturns h
  · simp only [closeBody_of_functionBody hbl hnd]
    cases hrets : (w.tree.shape body).alwaysReturns <;> simp [Option.ne_none_iff_exists']
  · obtain ⟨hrets, rfl, rfl⟩ | ⟨_, scope, hsc, rfl, hw'⟩ := (closeBody_of_functionBody hbl hnd).mp h
    · exact ⟨hrets, h, .inl ⟨rfl, rfl⟩⟩
    · have htree : w'.tree = addReturn w.tree body "return" "null" node.position scope := by rw [hw']
      have hret : ReturnsNull w.tree w'.tree body node scope := htree ▸ returnsNull_addReturn hnd scope
      have hrets : (w'.tree.shape body).alwaysReturns = true := htree ▸ alwaysReturns_addReturn hnd scope
      have hbl' : functionBody w'.tree function = .ok body := htree ▸ functionBody_addReturn hbl hnd scope
      have hagain := (closeBody_of_functionBody hbl' hret.body).mpr (.inl ⟨hrets, rfl, rfl⟩)
      exact ⟨hrets, hagain, .inr ⟨scope, hsc, rfl, by rw [htree, hw'], hret⟩⟩

/-- A body of which the last statement is a conditional without alternative. -/
theorem closeBody_closes_branch :
    let body : Node := { kind := .block, text := "", position := .origin, children := [⟨3⟩], scope := some ⟨0, 1⟩ }
    let w : Workspace := { (default : Workspace) with
      tree := ⟨#[{ kind := .root, text := "", position := .origin, children := [⟨1⟩] },
        { kind := .functionDecl, text := "f", position := .origin, children := [⟨2⟩] }, body,
        { kind := .ifStmt, text := "", position := .origin, children := [⟨4⟩] },
        { kind := .block, text := "", position := .origin, children := [⟨5⟩] },
        { kind := .returnStmt, text := "", position := .origin }]⟩ }
    functionBody w.tree ⟨1⟩ = .ok ⟨2⟩ ∧ w.tree.get? ⟨2⟩ = some body ∧
      ∃ added w', closeBody ⟨1⟩ w = .ok added w' ∧ (w'.tree.shape ⟨2⟩).alwaysReturns = true ∧
        ∀ returned, Shape.Path (w'.tree.shape ⟨2⟩).children returned → returned = true := by
  intro body w
  have h := closeBody_closes.2 w ⟨1⟩ ⟨2⟩ body rfl rfl
  obtain ⟨added, w', hcl⟩ := h.1.mpr (.inr nofun)
  have hrets := (h.2 added w' hcl).1
  exact ⟨rfl, rfl, added, w', hcl, hrets, (closeBody_closes.1 _).2 hrets⟩

end Workspace

end SoftTyping
