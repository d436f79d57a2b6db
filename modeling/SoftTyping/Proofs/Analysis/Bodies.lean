import SoftTyping.Proofs.Analysis.Branched

/-!
# Bodies of functions and namespaces

A body is run from its first statement on whenever the function or namespace around it is visited. The pass that binds names
comes to each body, and finds nothing marked there (`Enters`, `enters_of_body`).
-/

namespace SoftTyping

open Shape

/-- How the children of a node are visited among which statements may be. -/
def Role.descend? : Role → NodeKind → Option Role
  | .statement, .namespaceDecl => some .statement
  | .statement, .functionDecl => some .part
  | .statement, .ifStmt | .statement, .whileStmt => some .branch
  | .part, .block | .branch, .block => some .statement
  | _, _ => none

namespace Shape

/-- The first block among the parts of a function. -/
inductive FirstBlock : List Shape → List Shape → Prop where
  | here {id : NodeId} {body rest : List Shape} : FirstBlock (.node id .block body :: rest) body
  | later {part : Shape} {rest body : List Shape} : part.kind ≠ .block → FirstBlock rest body → FirstBlock (part :: rest) body

/-- Some statements are the body of a function or a namespace that is declared somewhere in others. -/
inductive Body : Role → List Shape → List Shape → Prop where
  | ofNamespace {id : NodeId} {rest body : List Shape} : Body .statement (.node id .namespaceDecl body :: rest) body
  | ofFunction {id : NodeId} {parts rest body : List Shape} :
    FirstBlock parts body → Body .statement (.node id .functionDecl parts :: rest) body
  | inside {role inner : Role} {id : NodeId} {kind : NodeKind} {children rest body : List Shape} :
    role.descend? kind = some inner → Body inner children body → Body role (.node id kind children :: rest) body
  | later {role : Role} {first : Shape} {rest body : List Shape} : Body role rest body → Body role (first :: rest) body

variable {role : Role} {shapes body parts children rest : List Shape} {x : NodeId} {part : Shape}

theorem FirstBlock.exists_mem (h : FirstBlock parts body) : ∃ id, .node id .block body ∈ parts := by
  induction h with
  | here => exact ⟨_, List.mem_cons_self⟩
  | later _ _ ih =>
    obtain ⟨id, hmem⟩ := ih
    exact ⟨id, List.mem_cons_of_mem _ hmem⟩

theorem FirstBlock.exists_part (h : FirstBlock parts body) :
    ∃ part ∈ parts, ∀ x, HasAny body x → HasAny part.children x := by
  induction h with
  | here => exact ⟨_, List.mem_cons_self, fun _ hx => hx⟩
  | later _ _ ih =>
    obtain ⟨part, hpt, hbel⟩ := ih
    exact ⟨part, List.mem_cons_of_mem _ hpt, hbel⟩

theorem hasAny_of_children (hpt : part ∈ shapes) (hx : HasAny part.children x) : HasAny shapes x := by
  obtain ⟨id, kind, children⟩ := part
  exact ⟨_, hpt, has_node.mpr (.inr hx)⟩

theorem Body.exists_part (h : Body role shapes body) : ∃ part ∈ shapes, ∀ x, HasAny body x → HasAny part.children x := by
  induction h with
  | ofNamespace => exact ⟨_, List.mem_cons_self, fun _ hx => hx⟩
  | ofFunction hfst =>
    obtain ⟨part, hpt, hbel⟩ := hfst.exists_part
    exact ⟨_, List.mem_cons_self, fun x hx => hasAny_of_children hpt (hbel x hx)⟩
  | inside _ _ ih =>
    obtain ⟨part, hpt, hbel⟩ := ih
    exact ⟨_, List.mem_cons_self, fun x hx => hasAny_of_children hpt (hbel x hx)⟩
  | later _ ih =>
    obtain ⟨part, hpt, hbel⟩ := ih
    exact ⟨part, List.mem_cons_of_mem _ hpt, hbel⟩

theorem Distinct.not_mem_of_children (h : Distinct shapes) (hpt : part ∈ shapes) (hx : HasAny part.children x) :
    ∀ other ∈ shapes, other.id ≠ x := by
  induction h with
  | nil => exact nofun
  | @cons id kind children rest hid _ hdj _ _ ih =>
    rintro other hoth rfl
    rcases List.mem_cons.mp hpt with rfl | hpt <;> rcases List.mem_cons.mp hoth with rfl | hoth
    · exact hid hx
    · exact hdj _ (has_node.mpr (.inr hx)) ⟨other, hoth, other.has_id⟩
    · exact hdj _ (has_id _) (hasAny_of_children hpt hx)
    · exact ih hpt other hoth rfl

end Shape

/-- A scope is that of a body: a function's or a namespace block's. -/
def SymbolTable.IsBodyScope (table : SymbolTable) (scope : ScopeId) : Prop :=
  ∃ entry, table.scope? scope = some entry ∧ entry.isConditional = false ∧ ∀ path, entry.kind ≠ .globalNamespace path

theorem SymbolTable.IsBodyScope.keeps {table table' : SymbolTable} {scope : ScopeId} (h : table.IsBodyScope scope)
    (hkp : table.KeepsScopes table') : table'.IsBodyScope scope := by
  obtain ⟨entry, he, hcdl, hglobal⟩ := h
  obtain ⟨entry', he', _, hout⟩ := hkp.scope he
  refine ⟨entry', he', (isConditional_of_outline hout).trans hcdl, fun path hpth => ?_⟩
  rw [hpth] at hout
  exact hglobal path (ScopeKind.eq_of_outline hout.symm nofun)

namespace Workspace

variable {w w' f : Workspace} {P part : NodeId → Prop} {id : NodeId} {scope opened : ScopeId} {kind : NodeKind}
  {rules : NameRules} {u : Unit} {role inner : Role} {lo hi : Nat} {shapes body parts children rest : List Shape}

/-- A run over some nodes comes to a body. Nothing is marked in its scope. -/
structure Enters (rules : NameRules) (f : Workspace) (shapes body : List Shape) (opened : ScopeId) (lo hi : Nat)
    (w v v' w' : Workspace) : Prop
    extends Comes rules f (Shape.HasAny shapes) .statement opened lo hi body w v v' w' where
  unmarked : v.table.marks opened = ∅
  home : v.table.IsBodyScope opened

/-- A node with the nodes below it among which a body may be. Behind a function, a return may be added to a part. -/
structure Descends (rules : NameRules) (role inner : Role) (kind : NodeKind) (children : List Shape) (opened : ScopeId)
    (lo hi : Nat) (w v v' w' : Workspace) : Prop where
  pending : Pending inner opened lo hi children v
  run : referIn rules inner children v = .ok () v'
  home : role = .statement → kind.isDeclaration = true → v.table.marks opened = ∅ ∧ v.table.IsBodyScope opened
  before : ∀ f part, Aside f part w v
  after : ∀ f part, (inner = .part → ∀ child ∈ children, ¬ part child.id) → Aside f part v' w'

theorem Quiet.aside (h : Quiet w w') (href : Refers (fun _ => False) w w') : Aside f part w w' :=
  ⟨href.mono nofun, h.checks⟩

theorem descends_of_ready (hdsc : role.descend? kind = some inner) (hrdy : Pending role scope lo hi [.node id kind children] w)
    (h : referIn rules role [.node id kind children] w = .ok u w') :
    ∃ opened lo' hi' v v', Descends rules role inner kind children opened lo' hi' w v v' w' := by
  have hfol := hrdy.follows _ (List.mem_singleton_self _)
  have hrefl : ∀ {w} f part, Aside f part w w := fun _ _ => .refl _
  cases role with
  | expression => cases hdsc
  | part =>
    rcases referIn_part h with ⟨rfl, _⟩ | ⟨rfl, hrun⟩ | ⟨_, hoth, _⟩
    · cases hdsc
    · cases hdsc
      obtain ⟨mid, _, hins⟩ := hrdy.within (show Role.part.inner? .block = some .statement by rfl)
      exact ⟨scope, lo, mid, w, w', hins, hrun, by simp, hrefl, fun f part _ => .refl w'⟩
    · cases kind <;> first | exact absurd rfl hoth | cases hdsc
  | branch =>
    rcases referIn_branch h with ⟨rfl, hrun⟩ | ⟨hoth, _⟩
    · cases hdsc
      obtain ⟨opened, _, _, mid, _, _, hins, _⟩ := hrdy.branch
      exact ⟨opened, _, mid, w, w', hins, hrun, by simp, hrefl, fun f part _ => .refl w'⟩
    · cases kind <;> first | exact absurd rfl hoth | cases hdsc
  | statement =>
    obtain ⟨_, _, hstm, hnil⟩ := Step.bind_eq_ok.mp h
    obtain rfl := (Step.pure_eq_ok.mp hnil).2
    cases kind <;> simp only [Role.descend?, reduceCtorEq, Option.some.injEq] at hdsc
    all_goals subst hdsc
    all_goals simp only [referStatement, Step.bind_eq_ok, askTree_eq_ok] at hstm
    case namespaceDecl =>
      obtain ⟨_, opened, mid, _, hops, hlo, hmid, hins⟩ := hrdy.opens rfl
      have hle := hins.stands.le
      cases hops with
      | namespaceBlock _ _ he heKind =>
        refine ⟨opened, _, mid, w, w', hins, hstm, fun _ _ => ⟨hrdy.fresh opened hlo (by omega), ?_⟩, hrefl,
          fun f part _ => .refl w'⟩
        exact ⟨_, he, by simp [Scope.isConditional, heKind], by simp [heKind]⟩
    case functionDecl =>
      obtain ⟨_, w₁, huq, _, w₂, hpts, _, _, hclose, _, rfl⟩ := hstm
      have href : Refers (fun _ => False) w w₁ := refers_checkUnique huq
      have hsm := quiet_checkUnique huq
      obtain ⟨_, opened, mid, _, hops, hlo, hmid, hins⟩ := hrdy.opens rfl
      have hle := hins.stands.le
      have hins₁ := hins.keep href fun id _ _ => hsm.marks id not_false
      cases hops with
      | function _ _ _ he heKind =>
        have hhm : w.table.IsBodyScope opened :=
          ⟨_, he, by simp [Scope.isConditional, heKind], by simp [heKind]⟩
        refine ⟨opened, _, mid, w₁, w₂, hins₁, hpts,
          fun _ _ => ⟨(hsm.marks opened not_false).trans (hrdy.fresh opened hlo (by omega)), hhm.keeps href.table.scopes⟩,
          fun f part => hsm.aside href, fun f part hpt => ⟨(refers_closeBody hclose).mono fun other hoth => ?_,
            (admits_quiet.closeBody hclose).checks⟩⟩
        -- A return is added to one of the parts.
        obtain ⟨_, hthr, hcd⟩ := Tree.get?_of_mem_children hoth.1
        rw [((hins₁.visits hpts).refers.follows (href.follows hfol)).children_eq hthr (by simp)] at hcd
        obtain ⟨child, hmem, rfl⟩ := List.mem_map.mp hcd
        exact hpt rfl child hmem
    case ifStmt | whileStmt =>
      obtain ⟨mid, w₁, hins, hrun, haf⟩ := hrdy.conditional (by simp) h
      exact ⟨scope, lo, mid, w, w₁, hins, hrun, by rintro _ ⟨⟩, hrefl, fun f part _ => haf f part⟩

theorem enters_firstBlock (hbdy : FirstBlock parts body) (hrdy : Pending .part opened lo hi parts w)
    (hum : w.table.marks opened = ∅) (hhm : w.table.IsBodyScope opened)
    (h : referIn rules .part parts w = .ok u w') (hf : Refers P w' f) :
    ∃ lo' hi' v v', Enters rules f parts body opened lo' hi' w v v' w' := by
  induction hbdy generalizing w lo with
  | here =>
    obtain ⟨mid, w₁, hspl⟩ := hrdy.splits h
    obtain ⟨inner, _, hins⟩ := hspl.pending.within (show Role.part.inner? .block = some .statement by rfl)
    rcases referIn_part hspl.run with ⟨hk, _⟩ | ⟨_, hrun⟩ | ⟨_, hk, _⟩
    · nomatch hk
    · refine ⟨lo, inner, w, w₁, ⟨hins, hrun, fun x hx => hasAny_cons.mpr (.inl (has_node.mpr (.inr hx))), .refl w,
        hspl.visitsRest.aside hf fun x hx hin => hrdy.disjoint (has_node.mpr (.inr hin)) hx⟩, hum, hhm⟩
    · exact absurd rfl hk
  | @later part rest body hk _ ih =>
    obtain ⟨mid, w₁, hspl⟩ := hrdy.splits h
    have hbel := hrdy.below
    obtain ⟨lo', hi', v, v', hnt⟩ := ih hspl.pendingRest (by
      rw [hspl.visits.checks.marks opened, hum]
      rintro (⟨⟨_, hpt, hmarks⟩, _⟩ | ⟨hle, _⟩)
      · exact hk (List.mem_singleton.mp hpt ▸ hmarks)
      · omega) (hhm.keeps hspl.visits.refers.table.scopes) hspl.runRest
    refine ⟨lo', hi', v, v', hnt.extend (hspl.visits.aside (hspl.visitsRest.refers.onward hf) fun x hx hin => ?_) (.refl w')
      fun x hx => hasAny_cons.mpr (.inr hx), hnt.unmarked, hnt.home⟩
    exact hrdy.disjoint (hasAny_singleton.mp hx) (hnt.inside x hin)

/-- A node that is visited before others. -/
theorem enters_cons (hdsc : role.descend? kind = some inner)
    (hbdy : inner = .part → ∃ part ∈ children, ∀ x, HasAny body x → HasAny part.children x)
    (hrdy : Pending role scope lo hi (.node id kind children :: rest) w)
    (h : referIn rules role (.node id kind children :: rest) w = .ok u w') (hf : Refers P w' f)
    (hins : ∀ {opened : ScopeId} {lo hi : Nat} {v v' w₁ : Workspace},
      Descends rules role inner kind children opened lo hi w v v' w₁ → Refers (fun _ => True) v' f →
      ∃ scope lo hi base base', Enters rules f children body scope lo hi v base base' v') :
    ∃ opened lo' hi' v v', Enters rules f (.node id kind children :: rest) body opened lo' hi' w v v' w' := by
  obtain ⟨mid, w₁, hspl⟩ := hrdy.splits h
  obtain ⟨opened', lo', hi', v, v', hds⟩ := descends_of_ready hdsc hspl.pending hspl.run
  have hlater := hspl.visitsRest.refers.onward hf
  obtain ⟨opened, _, _, base, base', hnt⟩ :=
    hins hds ((hds.after f (fun _ => False) fun _ _ _ => not_false).refers.onward hlater)
  refine ⟨opened, _, _, base, base', hnt.extend (hds.before f _) ((hds.after f _ fun hpt child hcd hin => ?_).trans
    (hspl.visitsRest.aside hf fun x hx hin => ?_)) fun x hx => hasAny_cons.mpr (.inl (has_node.mpr (.inr hx))),
    hnt.unmarked, hnt.home⟩
  · obtain ⟨part, hpt, hbel⟩ := hbdy hpt
    exact hds.pending.distinct.not_mem_of_children hpt (hbel _ hin) child hcd rfl
  · exact hrdy.disjoint (has_node.mpr (.inr (hnt.inside x hin))) hx

/-- The pass that binds names comes to every body. -/
theorem enters_of_body (hbdy : Shape.Body role shapes body) (hrdy : Pending role scope lo hi shapes w)
    (h : referIn rules role shapes w = .ok u w') (hf : Refers P w' f) :
    ∃ opened lo' hi' v v', Enters rules f shapes body opened lo' hi' w v v' w' := by
  induction hbdy generalizing scope lo hi w w' u P with
  | ofNamespace =>
    have hdsc : Role.statement.descend? .namespaceDecl = some .statement := rfl
    refine enters_cons hdsc (fun hpt => absurd hpt nofun) hrdy h hf fun hds _ => ?_
    obtain ⟨hum, hhm⟩ := hds.home rfl rfl
    exact ⟨_, _, _, _, _, ⟨hds.pending, hds.run, fun _ hx => hx, .refl _, .refl _⟩, hum, hhm⟩
  | ofFunction hfst =>
    refine enters_cons rfl (fun _ => hfst.exists_part) hrdy h hf fun hds hf => ?_
    obtain ⟨hum, hhm⟩ := hds.home rfl rfl
    exact ⟨_, enters_firstBlock hfst hds.pending hum hhm hds.run hf⟩
  | inside hdsc hbdy ih =>
    exact enters_cons hdsc (fun _ => hbdy.exists_part) hrdy h hf fun hds hf => ih hds.pending hds.run hf
  | later _ ih =>
    obtain ⟨mid, w₁, hspl⟩ := hrdy.splits h
    obtain ⟨opened, lo', hi', v, v', hnt⟩ := ih hspl.pendingRest hspl.runRest hf
    refine ⟨opened, lo', hi', v, v', hnt.extend (hspl.visits.aside (hspl.visitsRest.refers.onward hf) fun x hx hin => ?_)
      (.refl w') fun x hx => hasAny_cons.mpr (.inr hx), hnt.unmarked, hnt.home⟩
    exact hrdy.disjoint (hasAny_singleton.mp hx) (hnt.inside x hin)

end Workspace

end SoftTyping
