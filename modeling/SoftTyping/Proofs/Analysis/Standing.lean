import SoftTyping.Proofs.Analysis.Workspace

/-!
# Where the nodes of a program stand

Once names have been declared, every node stands in the scope of the node around it, except below a node that opens a
scope of its own: a function, a namespace or a branch (`Stands`). The scopes that are opened below a node have numbers
between those of its neighbours, so that no two nodes have one in common. What is said of the nodes below some node
does not depend on other nodes (`Stands.mono`), and a node may be added that stands as its parent does
(`Stands.addPlaced`).
-/

namespace SoftTyping

/-- The ways in which a node stands in a program. -/
inductive Role where
  | statement
  /-- A child of a function. -/
  | part
  /-- A child of a conditional or a loop. -/
  | branch
  | expression
deriving DecidableEq

namespace Role

/-- How the children of a node stand that shares its scope with them. -/
def inner? : Role → NodeKind → Option Role
  | .expression, _ => some .expression
  | .statement, .ifStmt | .statement, .whileStmt => some .branch
  | .statement, .namespaceDecl | .statement, .functionDecl | .statement, .useDecl | .statement, .constantDecl
  | .statement, .classDecl | .statement, .assign => none
  | .statement, _ => some .expression
  | .part, .block => some .statement
  | .part, _ => none
  | .branch, .block => none
  | .branch, _ => some .expression

/-- How the children of a node stand that opens a scope for them. -/
def opens? : Role → NodeKind → Option Role
  | .statement, .functionDecl => some .part
  | .statement, .namespaceDecl | .branch, .block => some .statement
  | _, _ => none

/-- Whether nothing is said of a node and of what is below it. -/
def Skips : Role → Node → Prop
  | .statement, node => node.kind = .useDecl ∨ node.kind = .constantDecl ∨ node.kind = .classDecl ∨
      (node.kind = .assign ∧ node.children.length ≠ 2)
  | .part, node => node.kind ≠ .block
  | _, _ => False

theorem opens?_of_inner? {role inner : Role} {kind : NodeKind} (h : role.inner? kind = some inner) :
    role.opens? kind = none := by
  cases role <;> cases kind <;> first | rfl | nomatch h

theorem inner?_ne_part {role inner : Role} {kind : NodeKind} (h : role.inner? kind = some inner) : inner ≠ .part := by
  rintro rfl
  unfold inner? at h
  split at h <;> nomatch h

end Role

/-- A node that stands in a scope opens another one for its children. -/
inductive Opens (table : SymbolTable) (scope : ScopeId) : Role → Node → ScopeId → Role → Prop where
  | function {node : Node} {function : SymbolId} {inner : ScopeId} {entry : Scope} :
    node.kind = .functionDecl → node.scope = some scope → node.symbol = some function →
      table.scope? inner = some entry → entry.kind = .method function → Opens table scope .statement node inner .part
  | namespaceBlock {node : Node} {block storage : ScopeId} {entry : Scope} {uses : OrderedMap String (List SymbolId)} :
    node.kind = .namespaceDecl → node.scope = some block → table.scope? block = some entry →
      entry.kind = .namespaceBlock storage uses → Opens table scope .statement node block .statement
  | branch {node : Node} {block : ScopeId} {entry : Scope} :
    node.kind = .block → node.scope = some block → table.scope? block = some entry → entry.kind = .conditional →
      entry.enclosing = some scope → Opens table scope .branch node block .statement

/-- Nodes stand one after another in a scope, and the scopes that are opened below them are numbered from `lo` up to
`hi`, perhaps with gaps. -/
inductive Stands (tree : Tree) (table : SymbolTable) : Role → ScopeId → (lo hi : Nat) → List NodeId → Prop where
  | nil {role : Role} {scope : ScopeId} {lo hi : Nat} : lo ≤ hi → Stands tree table role scope lo hi []
  | within {role inner : Role} {scope : ScopeId} {lo mid hi : Nat} {id : NodeId} {node : Node} {rest : List NodeId} :
    tree.get? id = some node → role.inner? node.kind = some inner → node.scope = some scope →
      Stands tree table inner scope lo mid node.children → Stands tree table role scope mid hi rest →
      Stands tree table role scope lo hi (id :: rest)
  | opens {role inner : Role} {scope opened : ScopeId} {lo mid hi : Nat} {id : NodeId} {node : Node}
      {rest : List NodeId} :
    tree.get? id = some node → Opens table scope role node opened inner → lo ≤ opened.index →
      Stands tree table inner opened (opened.index + 1) mid node.children → Stands tree table role scope mid hi rest →
      Stands tree table role scope lo hi (id :: rest)
  | assignment {scope : ScopeId} {lo mid hi : Nat} {id target value : NodeId} {node written : Node} {rest : List NodeId} :
    tree.get? id = some node → node.kind = .assign → node.scope = some scope → node.children = [target, value] →
      tree.get? target = some written → written.scope = some scope →
      Stands tree table .expression scope lo mid [value] → Stands tree table .statement scope mid hi rest →
      Stands tree table .statement scope lo hi (id :: rest)
  | skipped {role : Role} {scope : ScopeId} {lo hi : Nat} {id : NodeId} {node : Node} {rest : List NodeId} :
    tree.get? id = some node → role.Skips node → Stands tree table role scope lo hi rest →
      Stands tree table role scope lo hi (id :: rest)

variable {tree tree' : Tree} {table table' : SymbolTable} {role inner : Role} {scope opened : ScopeId} {node node' : Node}
  {lo mid hi : Nat} {id parent : NodeId} {ids ids' : List NodeId}

/-! ## Numbers -/

theorem Stands.le (h : Stands tree table role scope lo hi ids) : lo ≤ hi := by
  induction h with
  | nil hle => exact hle
  | within _ _ _ _ _ ih ih' => exact Nat.le_trans ih ih'
  | opens _ _ hlo _ _ ih ih' => omega
  | assignment _ _ _ _ _ _ _ _ ih ih' => exact Nat.le_trans ih ih'
  | skipped _ _ _ ih => exact ih

theorem Stands.widen {lo' : Nat} (h : Stands tree table role scope lo hi ids) (hlo : lo' ≤ lo) :
    Stands tree table role scope lo' hi ids := by
  induction h generalizing lo' with
  | nil hle => exact .nil (Nat.le_trans hlo hle)
  | within hnd hinn hsc _ hrs ih _ => exact .within hnd hinn hsc (ih hlo) hrs
  | opens hnd hops hle hch hrs _ _ => exact .opens hnd hops (Nat.le_trans hlo hle) hch hrs
  | assignment hnd hk hsc hch ht hwr _ hrs ih _ =>
    exact .assignment hnd hk hsc hch ht hwr (ih hlo) hrs
  | skipped hnd hsk _ ih => exact .skipped hnd hsk (ih hlo)

theorem Stands.append (h : Stands tree table role scope lo mid ids) (h' : Stands tree table role scope mid hi ids') :
    Stands tree table role scope lo hi (ids ++ ids') := by
  induction h with
  | nil hle => exact h'.widen hle
  | within hnd hinn hsc hch _ _ ih => exact .within hnd hinn hsc hch (ih h')
  | opens hnd hops hlo hch _ _ ih => exact .opens hnd hops hlo hch (ih h')
  | assignment hnd hk hsc hch ht hwr hvl _ _ ih =>
    exact .assignment hnd hk hsc hch ht hwr hvl (ih h')
  | skipped hnd hsk _ ih => exact .skipped hnd hsk (ih h')

/-! ## Single nodes -/

theorem Stands.split (h : Stands tree table role scope lo hi (ids ++ ids')) :
    ∃ mid, Stands tree table role scope lo mid ids ∧ Stands tree table role scope mid hi ids' := by
  induction ids generalizing lo with
  | nil => exact ⟨lo, .nil (Nat.le_refl lo), h⟩
  | cons id rest ih =>
    cases h with
    | within hnd hinn hsc hch hrs =>
      obtain ⟨mid, hfst, hsnd⟩ := ih hrs
      exact ⟨mid, .within hnd hinn hsc hch hfst, hsnd⟩
    | opens hnd hops hlo hch hrs =>
      obtain ⟨mid, hfst, hsnd⟩ := ih hrs
      exact ⟨mid, .opens hnd hops hlo hch hfst, hsnd⟩
    | assignment hnd hk hsc hch ht hwr hvl hrs =>
      obtain ⟨mid, hfst, hsnd⟩ := ih hrs
      exact ⟨mid, .assignment hnd hk hsc hch ht hwr hvl hfst, hsnd⟩
    | skipped hnd hsk hrs =>
      obtain ⟨mid, hfst, hsnd⟩ := ih hrs
      exact ⟨mid, .skipped hnd hsk hfst, hsnd⟩

theorem Stands.cons_split (h : Stands tree table role scope lo hi (id :: ids)) :
    ∃ mid, Stands tree table role scope lo mid [id] ∧ Stands tree table role scope mid hi ids :=
  Stands.split (h : Stands tree table role scope lo hi ([id] ++ ids))

theorem Opens.opens?_eq (h : Opens table scope role node opened inner) : role.opens? node.kind = some inner := by
  cases h with
  | function hk | namespaceBlock hk | branch hk => rw [hk]; rfl

theorem Opens.exists_scope (h : Opens table scope role node opened inner) : ∃ entry, table.scope? opened = some entry := by
  cases h with
  | function _ _ _ he _ | namespaceBlock _ _ he _ | branch _ _ he _ _ => exact ⟨_, he⟩

theorem Role.Skips.eq_none (h : role.Skips node) : role.inner? node.kind = none ∧ role.opens? node.kind = none := by
  cases role with
  | statement => rcases h with h | h | h | ⟨h, _⟩ <;> rw [h] <;> exact ⟨rfl, rfl⟩
  | part =>
    generalize hk : node.kind = kind at h
    cases kind <;> first | exact ⟨rfl, rfl⟩ | exact absurd hk h
  | branch => exact absurd h not_false
  | expression => exact absurd h not_false

theorem Stands.of_within (h : Stands tree table role scope lo hi [id]) (hnd : tree.get? id = some node)
    (hinn : role.inner? node.kind = some inner) :
    node.scope = some scope ∧ ∃ mid ≤ hi, Stands tree table inner scope lo mid node.children := by
  cases h with
  | within hsm hinn' hsc hch hrs =>
    cases hnd.symm.trans hsm
    cases hinn.symm.trans hinn'
    exact ⟨hsc, _, hrs.le, hch⟩
  | opens hsm hops =>
    cases hnd.symm.trans hsm
    nomatch hops.opens?_eq.symm.trans (Role.opens?_of_inner? hinn)
  | assignment hsm hk =>
    cases hnd.symm.trans hsm
    rw [hk] at hinn
    nomatch hinn
  | skipped hsm hsk =>
    cases hnd.symm.trans hsm
    nomatch hinn.symm.trans hsk.eq_none.1

/-- The children of a node that opens a scope for them. -/
theorem Stands.of_opens (h : Stands tree table role scope lo hi [id]) (hnd : tree.get? id = some node)
    (hinn : role.opens? node.kind = some inner) :
    ∃ opened, Opens table scope role node opened inner ∧ lo ≤ opened.index ∧
      ∃ mid ≤ hi, Stands tree table inner opened (opened.index + 1) mid node.children := by
  cases h with
  | within hsm hinn' =>
    cases hnd.symm.trans hsm
    nomatch hinn.symm.trans (Role.opens?_of_inner? hinn')
  | opens hsm hops hlo hch hrs =>
    cases hnd.symm.trans hsm
    cases hinn.symm.trans hops.opens?_eq
    exact ⟨_, hops, hlo, _, hrs.le, hch⟩
  | assignment hsm hk =>
    cases hnd.symm.trans hsm
    rw [hk] at hinn
    nomatch hinn
  | skipped hsm hsk =>
    cases hnd.symm.trans hsm
    nomatch hinn.symm.trans hsk.eq_none.2

/-- The target and the value of an assignment. -/
theorem Stands.of_assignment {target value : NodeId} (h : Stands tree table .statement scope lo hi [id])
    (hnd : tree.get? id = some node) (hk : node.kind = .assign) (hch : node.children = [target, value]) :
    node.scope = some scope ∧ (∃ written, tree.get? target = some written ∧ written.scope = some scope) ∧
      ∃ mid ≤ hi, Stands tree table .expression scope lo mid [value] := by
  cases h with
  | within hsm hinn =>
    cases hnd.symm.trans hsm
    rw [hk] at hinn
    nomatch hinn
  | opens hsm hops =>
    cases hnd.symm.trans hsm
    cases hops with
    | function hoth => nomatch hk.symm.trans hoth
    | namespaceBlock hoth => nomatch hk.symm.trans hoth
  | assignment hsm _ hsc hch' ht hwr hvl hrs =>
    cases hnd.symm.trans hsm
    cases hch.symm.trans hch'
    exact ⟨hsc, ⟨_, ht, hwr⟩, _, hrs.le, hvl⟩
  | skipped hsm hsk =>
    cases hnd.symm.trans hsm
    rcases hsk with hoth | hoth | hoth | ⟨_, hlen⟩
    · nomatch hk.symm.trans hoth
    · nomatch hk.symm.trans hoth
    · nomatch hk.symm.trans hoth
    · exact absurd (by rw [hch]; rfl) hlen

/-! ## Other trees and tables -/

/-- Two nodes stand alike. -/
structure Node.StandsAs (node node' : Node) : Prop where
  kind : node'.kind = node.kind
  children : node'.children = node.children
  scope : node'.scope = node.scope
  symbol : node.kind = .functionDecl → node'.symbol = node.symbol

theorem Node.StandsAs.refl (node : Node) : node.StandsAs node := ⟨rfl, rfl, rfl, fun _ => rfl⟩

theorem Opens.mono (h : Opens table scope role node opened inner) (htb : table.KeepsScopes table')
    (hnd : node.StandsAs node') : Opens table' scope role node' opened inner := by
  cases h with
  | function hk hsc hsym he heKind =>
    obtain ⟨entry', he', _, hk'⟩ := htb.scope he
    refine .function (hnd.kind.trans hk) (hnd.scope.trans hsc) ((hnd.symbol hk).trans hsym) he' ?_
    exact (ScopeKind.eq_of_outline hk' (by rw [heKind]; nofun)).trans heKind
  | namespaceBlock hk hsc he heKind =>
    obtain ⟨entry', he', _, hk'⟩ := htb.scope he
    rw [heKind] at hk'
    obtain ⟨uses', huses'⟩ := ScopeKind.exists_of_outline hk'
    exact .namespaceBlock (hnd.kind.trans hk) (hnd.scope.trans hsc) he' huses'
  | branch hk hsc he heKind henc =>
    obtain ⟨entry', he', henc', hk'⟩ := htb.scope he
    refine .branch (hnd.kind.trans hk) (hnd.scope.trans hsc) he' ?_ (henc'.trans henc)
    exact (ScopeKind.eq_of_outline hk' (by rw [heKind]; nofun)).trans heKind

theorem Role.Skips.mono (h : role.Skips node) (hnd : node.StandsAs node') : role.Skips node' := by
  cases role with
  | statement =>
    simp only [Role.Skips, hnd.kind, hnd.children] at h ⊢
    exact h
  | part => exact fun hk => h (hnd.kind.symm.trans hk)
  | branch => exact h
  | expression => exact h

/-- Where nodes stand depends on what is below them, and on the scopes that are there. -/
theorem Stands.mono (h : Stands tree table role scope lo hi ids) (htb : table.KeepsScopes table')
    (htree : ∀ {id below node}, id ∈ ids → tree.Below id below → tree.get? below = some node →
      ∃ node', tree'.get? below = some node' ∧ node.StandsAs node') :
    Stands tree' table' role scope lo hi ids := by
  induction h with
  | nil hle => exact .nil hle
  | @within role inner scope lo mid hi id node rest hnd hinn hsc _ _ ih ih' =>
    obtain ⟨node', hnd', hstn⟩ := htree List.mem_cons_self (.refl id) hnd
    refine .within hnd' (hstn.kind ▸ hinn) (hstn.scope.trans hsc) ?_
      (ih' fun hid => htree (List.mem_cons_of_mem _ hid))
    rw [hstn.children]
    refine ih fun {child below _} hcd hbel => htree List.mem_cons_self (.step ?_ hbel)
    rwa [Tree.children_of_get? hnd]
  | @opens role inner scope opened lo mid hi id node rest hnd hops hlo _ _ ih ih' =>
    obtain ⟨node', hnd', hstn⟩ := htree List.mem_cons_self (.refl id) hnd
    refine .opens hnd' (hops.mono htb hstn) hlo ?_ (ih' fun hid => htree (List.mem_cons_of_mem _ hid))
    rw [hstn.children]
    refine ih fun {child below _} hcd hbel => htree List.mem_cons_self (.step ?_ hbel)
    rwa [Tree.children_of_get? hnd]
  | @assignment scope lo mid hi id target value node written rest hnd hk hsc hch ht hwr _ _ ih ih' =>
    obtain ⟨node', hnd', hstn⟩ := htree List.mem_cons_self (.refl id) hnd
    have hmem : ∀ {child}, child ∈ [target, value] → child ∈ tree.children id := by
      intro child hcd
      rwa [Tree.children_of_get? hnd, hch]
    obtain ⟨written', hwr', hsm⟩ :=
      htree List.mem_cons_self (.step (hmem List.mem_cons_self) (.refl target)) ht
    refine .assignment hnd' (hstn.kind.trans hk) (hstn.scope.trans hsc)
      (hstn.children.trans hch) hwr' (hsm.scope.trans hwr) ?_
      (ih' fun hid => htree (List.mem_cons_of_mem _ hid))
    exact ih fun {child below _} hcd hbel =>
      htree List.mem_cons_self (.step (hmem (List.mem_cons_of_mem _ hcd)) hbel)
  | skipped hnd hsk _ ih =>
    obtain ⟨node', hnd', hstn⟩ := htree List.mem_cons_self (.refl _) hnd
    exact .skipped hnd' (hsk.mono hstn) (ih fun hid => htree (List.mem_cons_of_mem _ hid))

/-! ## Adding a node -/

theorem Stands.single (hnd : tree.get? id = some node) (hinn : role.inner? node.kind = some inner)
    (hsc : node.scope = some scope) (hch : node.children = []) (lo : Nat) :
    Stands tree table role scope lo lo [id] := by
  refine .within hnd hinn hsc ?_ (.nil (Nat.le_refl lo))
  rw [hch]
  exact .nil (Nat.le_refl lo)

/-- The tree with one more node, which stands in a scope. -/
def Tree.addPlaced (tree : Tree) (parent : NodeId) (kind : NodeKind) (text : String) (position : Position)
    (scope : ScopeId) : Tree :=
  (tree.add parent kind text position).2.update (tree.add parent kind text position).1
    fun node => { node with scope := some scope }

theorem Tree.get?_addPlaced {kind : NodeKind} {text : String} {position : Position} (hprt : parent.index < tree.size)
    (other : NodeId) :
    (tree.addPlaced parent kind text position scope).get? other =
      if other.index = tree.size then some { kind, text, position, parent := some parent, scope := some scope }
      else if other.index = parent.index then
        (tree.get? other).map fun node => { node with children := node.children ++ [⟨tree.size⟩] }
      else tree.get? other := by
  rw [addPlaced, get?_update, get?_add kind text position hprt]
  show (if tree.size = other.index then _ else _) = _
  by_cases hnew : other.index = tree.size
  · rw [if_pos hnew.symm, if_pos hnew, if_pos hnew]
    rfl
  · rw [if_neg (Ne.symm hnew), if_neg hnew, if_neg hnew]

theorem Tree.size_addPlaced (tree : Tree) (parent : NodeId) (kind : NodeKind) (text : String) (position : Position)
    (scope : ScopeId) : (tree.addPlaced parent kind text position scope).size = tree.size + 1 := by
  rw [addPlaced, size_update, size_add]

theorem Tree.WellFormed.addPlaced (hwf : tree.WellFormed) (kind : NodeKind) (text : String) (position : Position)
    (scope : ScopeId) (hprt : parent.index < tree.size) :
    (tree.addPlaced parent kind text position scope).WellFormed :=
  Annotates.wellFormed (annotates_update _ _ fun _ => rfl) (hwf.add kind text position hprt)

/-- A node that is added below one that shares its scope with its children stands as those do. -/
theorem Stands.addPlaced {kind : NodeKind} {text : String} {position : Position} {above : ScopeId}
    (habove : tree.get? parent = some node) (hsc : node.scope = some above)
    (hfn : node.kind ≠ .functionDecl) (hassign : node.kind ≠ .assign)
    (hk : ∀ role : Role, role ≠ .part → ∃ inner, role.inner? kind = some inner)
    (h : Stands tree table role scope lo hi ids) :
    Stands (tree.addPlaced parent kind text position above) table role scope lo hi ids := by
  have hprt := Tree.lt_size_of_get? habove
  -- The nodes of the old tree are those of the new one, but for the children of the parent.
  have hold : ∀ {id : NodeId} {old : Node}, tree.get? id = some old →
      (id ≠ parent ∧ (tree.addPlaced parent kind text position above).get? id = some old) ∨
      (id = parent ∧ old = node ∧ (tree.addPlaced parent kind text position above).get? id =
        some { node with children := node.children ++ [⟨tree.size⟩] }) := by
    intro id old hid
    have hlt := Tree.lt_size_of_get? hid
    rw [Tree.get?_addPlaced hprt, if_neg (by omega)]
    by_cases heq : id = parent
    · subst heq
      rw [habove] at hid
      cases hid
      exact .inr ⟨rfl, rfl, by rw [if_pos rfl, habove, Option.map_some]⟩
    · refine .inl ⟨heq, ?_⟩
      rw [if_neg fun hix => heq (NodeId.ext hix), hid]
  have hnew : ∀ {inner : Role} {mid : Nat}, inner ≠ .part →
      Stands (tree.addPlaced parent kind text position above) table inner above mid mid [⟨tree.size⟩] := by
    intro inner mid hpt
    obtain ⟨deeper, hdeeper⟩ := hk inner hpt
    exact .single (by rw [Tree.get?_addPlaced hprt, if_pos rfl]) hdeeper rfl rfl mid
  induction h with
  | nil hle => exact .nil hle
  | within hnd hinn hndScope _ _ ih ih' =>
    rcases hold hnd with ⟨_, hid⟩ | ⟨_, rfl, hid⟩
    · exact .within hid hinn hndScope ih ih'
    · cases hsc.symm.trans hndScope
      exact .within hid hinn hndScope (ih.append (hnew (Role.inner?_ne_part hinn))) ih'
  | opens hnd hops hlo _ _ ih ih' =>
    rcases hold hnd with ⟨_, hid⟩ | ⟨_, rfl, hid⟩
    · exact .opens hid hops hlo ih ih'
    · cases hops with
      | function hndKind => exact absurd hndKind hfn
      | namespaceBlock hndKind hndScope he heKind =>
        cases hsc.symm.trans hndScope
        exact .opens hid (.namespaceBlock hndKind hndScope he heKind) hlo (ih.append (hnew nofun)) ih'
      | branch hndKind hndScope he heKind henc =>
        cases hsc.symm.trans hndScope
        exact .opens hid (.branch hndKind hndScope he heKind henc) hlo (ih.append (hnew nofun)) ih'
  | assignment hnd hndKind hndScope hch ht hwr _ _ ih ih' =>
    rcases hold hnd with ⟨_, hid⟩ | ⟨_, rfl, _⟩
    · rcases hold ht with ⟨_, hid'⟩ | ⟨_, rfl, hid'⟩
      · exact .assignment hid hndKind hndScope hch hid' hwr ih ih'
      · exact .assignment hid hndKind hndScope hch hid' hwr ih ih'
    · exact absurd hndKind hassign
  | @skipped role _ _ _ _ _ _ hnd hsk _ ih =>
    rcases hold hnd with ⟨_, hid⟩ | ⟨_, rfl, hid⟩
    · exact .skipped hid hsk ih
    · refine .skipped hid ?_ ih
      cases role with
      | statement =>
        simp only [Role.Skips] at hsk ⊢
        rcases hsk with hsk | hsk | hsk | ⟨hsk, _⟩
        · exact .inl hsk
        · exact .inr (.inl hsk)
        · exact .inr (.inr (.inl hsk))
        · exact absurd hsk hassign
      | part => exact hsk
      | branch => exact hsk
      | expression => exact hsk

end SoftTyping
