import Mathlib.Data.List.Induction
import Mathlib.Data.List.Pairwise
import SoftTyping.Proofs.Analysis.Occurrences
import SoftTyping.Proofs.Analysis.Redefined

/-!
# Binding names in another order

The pass that binds names looks each one up when it comes to it, in a table that it has changed since it began. None of these
changes makes a difference to what is found: every name stands for what it stood for when the program was declared (`Held`). So
names can be bound in any order, with anything between them that binding names does besides, and are bound alike (`Alike`).
-/

namespace SoftTyping.Workspace

open SymbolTable Step Shape Relation

variable {rules : NameRules} {w w' v v' v₁ : Workspace} {id : NodeId} {kind : IdentifierKind} {failure : IssueKind}
  {found : Resolution}
  {issues : List Issue} {o : Occurrence} {symbol : SymbolId} {answer : Option SymbolId}
  {answers : List (Occurrence × Option SymbolId)} {nodeKind : NodeKind} {children shapes : List Shape} {u : Unit}

/-! ## Many names -/

/-- Something else is done while names are bound: nodes keep their symbols, and no issue of a name is reported. -/
structure Incidental (v v' : Workspace) : Prop where
  nodes : ∀ {id node}, v.tree.get? id = some node → node.kind ≠ .block → v'.tree.get? id = some node
  binds : Relation.ReflTransGen Binds v.table v'.table
  issues : v'.issues.issues.filter (·.kind.isResolution) = v.issues.issues.filter (·.kind.isResolution)

/-- Names are bound one after another, with anything else between them. What was bound is listed with the answers. -/
inductive BindsNames (rules : NameRules) (w : Workspace) : List (Occurrence × Option SymbolId) → Workspace → Prop where
  | start : BindsNames rules w [] w
  | bind {answers : List (Occurrence × Option SymbolId)} {v v' : Workspace} {o : Occurrence} {answer : Option SymbolId} :
    BindsNames rules w answers v → bindOccurrence rules o v = .ok answer v' → BindsNames rules w (answers ++ [(o, answer)]) v'
  | aside {answers : List (Occurrence × Option SymbolId)} {v v' : Workspace} :
    BindsNames rules w answers v → Incidental v v' → BindsNames rules w answers v'

/-- The issues of what is looked up at a node. -/
def issuesAt (rules : NameRules) (w : Workspace) (o : Occurrence) : List Issue :=
  match lookUp rules w o with
  | .ok (_, issues) => issues
  | .error _ => []

/-- The answer at a node is what is found in the table of `w`. For a name the node holds it; if nothing is found, it is an
erroneous symbol that `w` did not have. -/
def Answered (rules : NameRules) (w v : Workspace) (o : Occurrence) (answer : Option SymbolId) : Prop :=
  ∃ found issues, lookUp rules w o = .ok (found, issues) ∧
    match o.site with
    | .use => answer = found.symbol
    | .name kind failure => ∃ node symbol, w.tree.get? o.id = some node ∧ answer = some symbol ∧
        v.tree.symbolOf o.id = .ok symbol ∧
        (found.symbol = some symbol ∨ found.symbol = none ∧ w.table.symbol? symbol = none ∧
          v.table.symbol? symbol = some (standIn node kind failure))

/-- What two answers share was there before. -/
def Apart (w : Workspace) (p q : Occurrence × Option SymbolId) : Prop :=
  ∀ symbol, p.2 = some symbol → q.2 = some symbol → ∃ entry, w.table.symbol? symbol = some entry

instance (w : Workspace) : Std.Symm w.Apart := ⟨fun _ _ h symbol hp hq => h symbol hq hp⟩

/-- What holds while names are bound: other nodes keep their symbols, every answer is right, what two of them share was there
before, and the issues are those of what was looked up. -/
structure Held (rules : NameRules) (w : Workspace) (answers : List (Occurrence × Option SymbolId)) (v : Workspace) : Prop where
  preserves : Preserves w v
  frame : ∀ {id node}, w.tree.get? id = some node → node.kind ≠ .block → (∀ p ∈ answers, p.1.id ≠ id) →
    v.tree.get? id = some node
  answered : ∀ p ∈ answers, Answered rules w v p.1 p.2
  apart : answers.Pairwise w.Apart
  issues : v.issues.issues.filter (·.kind.isResolution) =
    w.issues.issues.filter (·.kind.isResolution) ++ answers.flatMap fun p => issuesAt rules w p.1

theorem held_start (rules : NameRules) (w : Workspace) : Held rules w [] w :=
  ⟨.refl w, fun hnd _ _ => hnd, nofun, .nil, (List.append_nil _).symm⟩

theorem filter_issues (h : w.IsAt o) (hf : lookUp rules w o = .ok (found, issues)) :
    issues.filter (·.kind.isResolution) = issues := by
  obtain ⟨id, site⟩ := o
  cases site with
  | use =>
    obtain ⟨_, _, _, _, _, _, _, _, _, _, _, _, rfl⟩ := lookUpUse_eq_ok.mp hf
    split <;> rfl
  | name kind failure =>
    obtain ⟨node, scope, forward, hnd, _, _, hfwd, rfl⟩ := lookUpName_eq_ok.mp hf
    have hmissing : (missingIssue node kind failure).kind.isResolution = true := by
      obtain ⟨_, _, hsi | ⟨hsi, _⟩⟩ := h
      · unfold NodeKind.site? at hsi
        split at hsi <;> cases hsi <;> rfl
      · nomatch hsi
    have hfwd : forward.filter (·.kind.isResolution) = forward := by
      unfold forwardIssues at hfwd
      split at hfwd
      · split at hfwd
        · obtain ⟨_, _, heq⟩ := Refusal.bind_eq_ok.mp hfwd
          cases heq
          rfl
        · cases hfwd
          rfl
      · cases hfwd
        rfl
    rw [List.filter_append, hfwd]
    split
    · rfl
    · rw [List.filter_singleton, hmissing]
      rfl

theorem symbol?_standIn {table table' : SymbolTable} {node : Node} (h : ReflTransGen Binds table table')
    (hsym : table.symbol? symbol = some (standIn node kind failure)) :
    table'.symbol? symbol = some (standIn node kind failure) := by
  obtain ⟨⟨name, position, scope, data⟩, hkt, hout⟩ := keepsSymbols_of_binds h hsym
  rw [hkt]
  unfold Symbol.outline at hout
  cases data <;> simp_all [standIn]

theorem Answered.mono (h : Answered rules w v o answer) (hbis : ReflTransGen Binds v.table v'.table)
    (hnd : ∀ symbol, v.tree.symbolOf o.id = .ok symbol → v'.tree.symbolOf o.id = .ok symbol) :
    Answered rules w v' o answer := by
  obtain ⟨found, issues, hf, hans⟩ := h
  refine ⟨found, issues, hf, ?_⟩
  split at hans
  · exact hans
  · obtain ⟨node, symbol, hget, rfl, hsym, hstn⟩ := hans
    refine ⟨node, symbol, hget, rfl, hnd symbol hsym, hstn.imp_right ?_⟩
    exact fun ⟨hno, hnew, hstandIn⟩ => ⟨hno, hnew, symbol?_standIn hbis hstandIn⟩

theorem Held.incidental (h : Held rules w answers v) (hat : ∀ p ∈ answers, w.IsAt p.1) (hstp : Incidental v v') :
    Held rules w answers v' where
  preserves := {
    nodes := fun hnd hbl => by
      obtain ⟨symbol, hnd', hsm⟩ := h.preserves.nodes hnd hbl
      exact ⟨symbol, hstp.nodes hnd' hbl, hsm⟩
    binds := h.preserves.binds.trans hstp.binds }
  frame := fun hnd hbl hoth => hstp.nodes (h.frame hnd hbl hoth) hbl
  answered := fun p hp => by
    refine (h.answered p hp).mono hstp.binds fun symbol hsym => ?_
    obtain ⟨node, hnd, _⟩ := hat p hp
    have hbl := (hat p hp).ne_block hnd
    obtain ⟨other, hnd', _⟩ := h.preserves.nodes hnd hbl
    obtain ⟨_, hsm, hsym⟩ := Tree.symbolOf_eq_ok.mp hsym
    cases hnd'.symm.trans hsm
    exact Tree.symbolOf_eq_ok.mpr ⟨_, hstp.nodes hnd' hbl, hsym⟩
  apart := h.apart
  issues := hstp.issues.trans h.issues

/-- What binding at an occurrence does to the workspace, whatever is looked up there. -/
theorem bindOccurrence_eq_ok (h : bindOccurrence rules o v = .ok answer v') : ∃ found issues,
    lookUp rules v o = .ok (found, issues) ∧ v'.issues.issues = v.issues.issues ++ issues ∧
      ReflTransGen Binds v.table v'.table ∧
      match o.site with
      | .use => answer = found.symbol ∧ v'.tree = v.tree
      | .name kind failure => ∃ node symbol, v.tree.get? o.id = some node ∧ answer = some symbol ∧
          v'.tree = v.tree.update o.id (fun node => { node with symbol := some symbol }) ∧
          (found.symbol = some symbol ∨ found.symbol = none ∧ v.table.symbol? symbol = none ∧
            v'.table.symbol? symbol = some (standIn node kind failure)) := by
  obtain ⟨id, site⟩ := o
  cases site with
  | use =>
    obtain ⟨found, issues, table, hf, rfl, rfl, hbis⟩ := lookUpUse_of_bindAlias h
    exact ⟨found, issues, hf, IssueLog.issues_reportAll _ _, hbis, rfl, rfl⟩
  | name kind failure =>
    obtain ⟨symbol, hbi, rfl⟩ := map_eq_ok.mp h
    obtain ⟨node, found, issues, hnd, hf, table, hstn, rfl⟩ := bindNode_eq_ok_iff.mp hbi
    refine ⟨found, issues, hf, IssueLog.issues_reportAll _ _, ?_, node, symbol, hnd, rfl, rfl, ?_⟩
    · rcases hstn with ⟨_, rfl⟩ | ⟨_, _, rfl⟩
      · exact .refl
      · exact .single (.addErroneous (show addErroneous node.text node.position _ v.table = .ok _ _ from rfl))
    · rcases hstn with ⟨hsym, _⟩ | ⟨hno, rfl, rfl⟩
      · exact .inl hsym
      · refine .inr ⟨hno, ?_, ?_⟩
        · exact Option.eq_none_iff_forall_not_mem.mpr fun old hold => ne_pushSymbol hold rfl
        · rw [symbol?_pushSymbol, if_pos rfl]

theorem exists_symbol?_of_lookUp (hrel : rules.Reliable w.table) (h : lookUp rules w o = .ok (found, issues))
    (hsym : found.symbol = some symbol) :
    ∃ entry, w.table.symbol? symbol = some entry := by
  obtain ⟨id, site⟩ := o
  cases site with
  | use =>
    obtain ⟨_, _, _, _, _, _, _, _, _, _, _, hf, _⟩ := lookUpUse_eq_ok.mp h
    exact (Resolver.within_resolveAll hrel.declared hrel.resolvers hf).symbol hsym
  | name kind failure =>
    obtain ⟨_, _, _, _, _, hf, _⟩ := lookUpName_eq_ok.mp h
    exact (Resolver.within_resolveAll hrel.declared hrel.resolvers hf).symbol hsym

theorem Answered.exists_symbol? (h : Answered rules w v o (some symbol)) (hrel : rules.Reliable w.table)
    (hbis : ReflTransGen Binds w.table v.table) :
    ∃ entry, v.table.symbol? symbol = some entry := by
  obtain ⟨found, issues, hf, hans⟩ := h
  have hold : found.symbol = some symbol → ∃ entry, v.table.symbol? symbol = some entry := by
    intro hsym
    obtain ⟨entry, he⟩ := exists_symbol?_of_lookUp hrel hf hsym
    obtain ⟨entry', he', _⟩ := keepsSymbols_of_binds hbis he
    exact ⟨entry', he'⟩
  split at hans
  · exact hold hans.symm
  · obtain ⟨node, _, _, heq, _, hsym | ⟨_, _, hstandIn⟩⟩ := hans
    · cases heq
      exact hold hsym
    · cases heq
      exact ⟨_, hstandIn⟩

section Bind

variable (h : Held rules w answers v) (hrel : rules.Reliable w.table) (hat : w.IsAt o)
  (hbi : bindOccurrence rules o v = .ok answer v')

include hbi in
theorem get?_bindOccurrence {other : NodeId} (hoth : other ≠ o.id) : v'.tree.get? other = v.tree.get? other := by
  obtain ⟨_, _, _, _, _, hans⟩ := bindOccurrence_eq_ok hbi
  split at hans
  · rw [hans.2]
  · obtain ⟨_, _, _, _, htree, _⟩ := hans
    rw [htree, Tree.get?_update, if_neg fun hix => hoth (NodeId.ext hix.symm)]

include h hat hbi

theorem Held.preserves_bind : Preserves w v' := by
  obtain ⟨_, _, _, _, hbis, hans⟩ := bindOccurrence_eq_ok hbi
  refine ⟨fun {other node} hnd hbl => ?_, h.preserves.binds.trans hbis⟩
  obtain ⟨symbol, hnd', hsm⟩ := h.preserves.nodes hnd hbl
  by_cases hoth : other = o.id
  · subst hoth
    split at hans
    · exact ⟨symbol, hans.2 ▸ hnd', hsm⟩
    · next hsi =>
      obtain ⟨_, bound, _, _, htree, _⟩ := hans
      refine ⟨some bound, ?_, fun hnm => absurd ((hat.isName hnd hsi).symm.trans hnm) nofun⟩
      rw [htree, Tree.get?_update, if_pos rfl, hnd', Option.map_some]
  · exact ⟨symbol, (get?_bindOccurrence hbi hoth).trans hnd', hsm⟩

include hrel

theorem Held.answered_bind : Answered rules w v' o answer := by
  obtain ⟨found, issues, hf, _, _, hans⟩ := bindOccurrence_eq_ok hbi
  obtain ⟨node, hnd, _⟩ := id hat
  rw [lookUp_of_preserves hrel h.preserves hnd (hat.ne_block hnd)] at hf
  refine ⟨found, issues, hf, ?_⟩
  split at hans
  · exact hans.1
  · obtain ⟨node', symbol, hnd', rfl, htree, hstn⟩ := hans
    obtain ⟨old, hold, _⟩ := h.preserves.nodes hnd (hat.ne_block hnd)
    cases hold.symm.trans hnd'
    have hbo : v'.tree.get? o.id = some { node with symbol := some symbol } := by
      rw [htree, Tree.get?_update, if_pos rfl, hnd', Option.map_some]
    refine ⟨node, symbol, hnd, rfl, Tree.symbolOf_eq_ok.mpr ⟨_, hbo, rfl⟩, hstn.imp_right ?_⟩
    · rintro ⟨hno, hfr, hstandIn⟩
      refine ⟨hno, Option.eq_none_iff_forall_not_mem.mpr fun entry he => ?_, hstandIn⟩
      obtain ⟨_, hkt, _⟩ := keepsSymbols_of_binds h.preserves.binds he
      exact absurd (hfr.symm.trans hkt) nofun

theorem Held.exists_symbol?_bind {p : Occurrence × Option SymbolId} (hp : p ∈ answers) (hsym : p.2 = some symbol)
    (hans : answer = some symbol) : ∃ entry, w.table.symbol? symbol = some entry := by
  obtain ⟨found, issues, hf, _, _, hsi⟩ := bindOccurrence_eq_ok hbi
  obtain ⟨node, hnd, _⟩ := id hat
  rw [lookUp_of_preserves hrel h.preserves hnd (hat.ne_block hnd)] at hf
  split at hsi
  · exact exists_symbol?_of_lookUp hrel hf (hsi.1.symm.trans hans)
  · obtain ⟨_, bound, _, rfl, _, hold | ⟨_, hfr, _⟩⟩ := hsi
    · cases hans
      exact exists_symbol?_of_lookUp hrel hf hold
    · cases hans
      have hanswered := h.answered p hp
      rw [hsym] at hanswered
      obtain ⟨_, he⟩ := hanswered.exists_symbol? hrel h.preserves.binds
      exact absurd (hfr.symm.trans he) nofun

theorem Held.issues_bind : v'.issues.issues.filter (·.kind.isResolution) =
    v.issues.issues.filter (·.kind.isResolution) ++ issuesAt rules w o := by
  obtain ⟨found, issues, hf, hiss, _⟩ := bindOccurrence_eq_ok hbi
  obtain ⟨node, hnd, _⟩ := id hat
  rw [lookUp_of_preserves hrel h.preserves hnd (hat.ne_block hnd)] at hf
  rw [hiss, List.filter_append, filter_issues hat hf, issuesAt, hf]

theorem Held.bind (hnew : ∀ p ∈ answers, p.1.id ≠ o.id) : Held rules w (answers ++ [(o, answer)]) v' where
  preserves := h.preserves_bind hat hbi
  frame := fun hnd hbl hoth => by
    rw [get?_bindOccurrence hbi (hoth _ (List.mem_append_right _ List.mem_cons_self)).symm]
    exact h.frame hnd hbl fun p hp => hoth p (List.mem_append_left _ hp)
  answered := fun p hp => by
    rcases List.mem_append.mp hp with hp | hp
    · obtain ⟨_, _, _, _, hbis, _⟩ := bindOccurrence_eq_ok hbi
      refine (h.answered p hp).mono hbis fun symbol hsym => ?_
      rw [Tree.symbolOf_eq_ok] at hsym ⊢
      rwa [get?_bindOccurrence hbi (hnew p hp)]
    · cases List.mem_singleton.mp hp
      exact h.answered_bind hrel hat hbi
  apart := by
    refine List.pairwise_append.mpr ⟨h.apart, List.pairwise_singleton _ _, fun p hp q hq symbol hsym hsym' => ?_⟩
    cases List.mem_singleton.mp hq
    exact h.exists_symbol?_bind hrel hat hbi hp hsym hsym'
  issues := by
    rw [h.issues_bind hrel hat hbi, h.issues, List.flatMap_append, List.append_assoc, List.flatMap_singleton]

end Bind

theorem held_of_bindsNames (hrel : rules.Reliable w.table) (h : BindsNames rules w answers v)
    (hat : w.AreAt (answers.map Prod.fst)) : Held rules w answers v := by
  induction h with
  | start => exact held_start rules w
  | bind _ hbi ih =>
    rw [List.map_append] at hat
    obtain ⟨hat, ho, hnew⟩ := hat.of_append
    exact (ih hat).bind hrel ho hbi fun p hp => hnew p.1 (List.mem_map_of_mem hp)
  | aside _ hstp ih => exact (ih hat).incidental (fun p hp => hat.isAt p.1 (List.mem_map_of_mem hp)) hstp

theorem exists_bindsNames (hrel : rules.Reliable w.table) {order : List Occurrence} (hat : w.AreAt order)
    (hf : ∀ o ∈ order, ∃ found issues, lookUp rules w o = .ok (found, issues)) :
    ∃ answers v, answers.map Prod.fst = order ∧ BindsNames rules w answers v := by
  induction order using List.reverseRecOn with
  | nil => exact ⟨[], w, rfl, .start⟩
  | append_singleton order o ih =>
    obtain ⟨hat, ho, _⟩ := hat.of_append
    obtain ⟨answers, v, rfl, hbis⟩ := ih hat fun o ho => hf o (List.mem_append_left _ ho)
    have hheld := held_of_bindsNames hrel hbis hat
    obtain ⟨node, hnd, _⟩ := id ho
    obtain ⟨found, issues, hf⟩ := hf o (List.mem_append_right _ List.mem_cons_self)
    rw [← lookUp_of_preserves hrel hheld.preserves hnd (ho.ne_block hnd)] at hf
    obtain ⟨answer, v', hbi⟩ := exists_bindOccurrence hf
    exact ⟨answers ++ [(o, answer)], v', List.map_append, hbis.bind hbi⟩

/-! ## What is done besides -/

/-- No issue of a name is reported. -/
def Silent (v v' : Workspace) : Prop :=
  v'.issues.issues.filter (·.kind.isResolution) = v.issues.issues.filter (·.kind.isResolution)

theorem admits_silent : Admits Silent (·.isResolution = false) where
  order := ⟨fun _ => rfl, fun h h' => Eq.trans h' h⟩
  report := fun {issue} hk v _ v' h => by
    rw [report_eq_ok.mp h, Silent, IssueLog.report, List.filter_append, List.filter_singleton, hk]
    exact List.append_nil _
  rest := fun _ _ hiss => by rw [Silent, hiss]

theorem silent_checkWritten : Respects Silent (checkWritten id) := by
  intro v _ v' h
  obtain ⟨_, _, _, _, _, _, _, hf, ⟨_, rfl⟩ | ⟨kind, name, rfl, hrep⟩⟩ := checkWritten_eq_ok h
  · exact admits_silent.order.refl _
  · refine admits_silent.report ?_ hrep
    have hk := isInitialisation_writtenIssue? hf
    cases kind <;> first | rfl | nomatch hk

theorem silent_onTable {α : Type} {step : Step SymbolTable α} : Respects Silent (onTable step) := by
  intro v _ v' h
  obtain ⟨table, _, rfl⟩ := onTable_eq_ok.mp h
  exact admits_silent.order.refl _

theorem silent_markWritten : Respects Silent (markWritten id) :=
  .bind admits_silent.order (.query admits_silent.order _) fun _ =>
    .bind admits_silent.order (.query admits_silent.order _) fun _ => silent_onTable

theorem Refers.incidental (h : Refers (fun _ => False) v v') (hsilent : Silent v v') : Incidental v v' :=
  ⟨fun hnd _ => h.frame not_false hnd, h.binds, hsilent⟩

theorem incidental_closeBody {added : Option NodeId} (h : closeBody id v = .ok added v') : Incidental v v' := by
  obtain ⟨block, node, _, hnd, hk, ⟨_, _, rfl⟩ | ⟨_, scope, hsc, _, rfl⟩⟩ := closeBody_eq_ok.mp h
  · exact ⟨fun hnd _ => hnd, .refl, rfl⟩
  · refine ⟨fun {other old} hold hbl => (refers_addReturn hnd hk hsc).frame ?_ hold, .refl, rfl⟩
    rintro rfl
    cases hnd.symm.trans hold
    exact hbl hk

/-! ## The pass -/

/-- Some names are bound between two moments of a run, one after another. -/
def BindsBetween (rules : NameRules) (names : List Occurrence) (v v' : Workspace) : Prop :=
  ∀ ⦃w answers⦄, BindsNames rules w answers v → ∃ more, more.map Prod.fst = names ∧ BindsNames rules w (answers ++ more) v'

theorem BindsBetween.trans {names names' : List Occurrence} {v'' : Workspace} (h : BindsBetween rules names v v')
    (h' : BindsBetween rules names' v' v'') : BindsBetween rules (names ++ names') v v'' := by
  intro w answers hbis
  obtain ⟨more, rfl, hbis⟩ := h hbis
  obtain ⟨more', rfl, hbis⟩ := h' hbis
  exact ⟨more ++ more', List.map_append, by rwa [← List.append_assoc]⟩

theorem Incidental.bindsBetween (h : Incidental v v') : BindsBetween rules [] v v' :=
  fun _ _ hbis => ⟨[], rfl, by rw [List.append_nil]; exact hbis.aside h⟩

theorem bindsBetween_refl (v : Workspace) : BindsBetween rules [] v v := Incidental.bindsBetween ⟨fun hnd _ => hnd, .refl, rfl⟩

theorem bindsBetween_bind (h : bindOccurrence rules o v = .ok answer v') : BindsBetween rules [o] v v' :=
  fun _ _ hbis => ⟨[(o, answer)], rfl, hbis.bind h⟩

theorem bindsBetween_bindNode (h : bindNode rules id kind failure v = .ok symbol v') :
    BindsBetween rules [⟨id, .name kind failure⟩] v v' := by
  have hbi : bindOccurrence rules ⟨id, .name kind failure⟩ v = .ok (some symbol) v' := map_eq_ok.mpr ⟨symbol, h, rfl⟩
  exact bindsBetween_bind hbi

theorem bindsBetween_referName (h : referName rules id nodeKind v = .ok u v') :
    BindsBetween rules (ownOccurrences id nodeKind) v v' := by
  cases nodeKind <;> simp only [referName, bind_eq_ok, pure_eq_ok] at h
  case variableRef =>
    obtain ⟨_, _, hbi, hcheck⟩ := h
    exact (bindsBetween_bindNode hbi).trans ((refers_checkWritten hcheck).incidental (silent_checkWritten hcheck)).bindsBetween
  case identifier =>
    obtain ⟨_, _, hbi, hcheck⟩ := h
    exact (bindsBetween_bindNode hbi).trans
      ((letsReport_refers.checkDeclaredBefore trivial hcheck).incidental
        (admits_silent.checkDeclaredBefore rfl hcheck)).bindsBetween
  case typeName | call =>
    obtain ⟨_, _, hbi, _, rfl⟩ := h
    exact bindsBetween_bindNode hbi
  all_goals
    rw [h.2]
    exact bindsBetween_refl v

theorem bindsBetween_checkUnique (h : checkUnique id v = .ok u v') : BindsBetween rules [] v v' :=
  ((refers_checkUnique h).incidental (admits_silent.checkUnique rfl h)).bindsBetween

theorem bindsBetween_bindHint (hfol : Follows v.tree (.node id nodeKind children)) (hbl : nodeKind ≠ .block)
    (h : bindHint rules id v = .ok answer v') : BindsBetween rules (hintOccurrences children) v v' := by
  obtain ⟨_, _, hhint⟩ := bindHint_eq_ok h
  rw [hfol.childOfKind? hbl] at hhint
  unfold hintOccurrences
  rcases hhint with ⟨hno, rfl⟩ | ⟨_, _, _, _, _, hhint, hbi, he, hup⟩
  · rw [Option.map_eq_none_iff.mp hno]
    exact bindsBetween_refl _
  · obtain ⟨hint, hf, rfl⟩ := Option.map_eq_some_iff.mp hhint
    rw [hf]
    exact (bindsBetween_bindNode hbi).trans
      ((refers_onTable hup (.declareType (isHint_asType he))).incidental (silent_onTable hup)).bindsBetween

theorem occurrencesIn_of_enters? {inner : Role} (h : role.enters? nodeKind = some inner) :
    occurrencesIn role [.node id nodeKind children] = occurrencesIn inner children := by
  rw [occurrencesIn, occurrencesIn, List.append_nil]
  cases role <;> cases nodeKind <;> cases h <;> rfl

theorem occurrencesIn_of_names (h : role.Names nodeKind) : occurrencesIn role [.node id nodeKind children] =
    ownOccurrences id nodeKind ++ occurrencesIn .expression children := by
  rw [occurrencesIn, occurrencesIn, List.append_nil]
  rcases h with rfl | ⟨rfl, hbl⟩
  · rfl
  · rw [occurrences_branch hbl]
    rfl

theorem occurrencesIn_of_passes (h : role.Passes nodeKind children) :
    occurrencesIn role [.node id nodeKind children] = [] := by
  cases role with
  | statement =>
    obtain ⟨rfl, hlen⟩ := h
    match children, hlen with
    | [], _ | [_], _ | _ :: _ :: _ :: _, _ => rfl
  | part =>
    obtain ⟨hpar, hbl⟩ := h
    cases nodeKind <;> first | rfl | exact absurd rfl hpar | exact absurd rfl hbl
  | branch | expression => exact absurd h not_false

theorem Proceeds.bindsBetween (h : Proceeds rules role shapes v v') :
    BindsBetween rules (Shape.occurrencesIn role shapes) v v' := by
  induction h with
  | nil => exact bindsBetween_refl _
  | @cons role shape rest _ _ _ _ _ _ _ _ ih ih' =>
    have hspl : Shape.occurrencesIn role (shape :: rest) =
        Shape.occurrencesIn role [shape] ++ Shape.occurrencesIn role rest := by
      simp [Shape.occurrencesIn]
    rw [hspl]
    exact ih.trans ih'
  | name hnames _ hnm _ _ ih =>
    rw [occurrencesIn_of_names hnames]
    exact (bindsBetween_referName hnm).trans ih
  | enters hnt _ _ ih =>
    rw [occurrencesIn_of_enters? hnt]
    exact ih
  | passes hps =>
    rw [occurrencesIn_of_passes hps]
    exact bindsBetween_refl _
  | @parameter id children _ _ _ _ hfol huq hhint =>
    have hsm : Shape.occurrencesIn .part [.node id .parameter children] = Shape.hintOccurrences children := by
      simp [Shape.occurrencesIn, Shape.occurrences]
    rw [hsm]
    exact (bindsBetween_checkUnique huq).trans
      (bindsBetween_bindHint ((refers_checkUnique (P := fun _ => False) huq).follows hfol) (by simp) hhint)
  | @use id _ _ _ _ _ hbi huq =>
    exact (bindsBetween_bind (o := ⟨id, .use⟩) hbi).trans
      ((letsReport_refers.checkAliasUnique trivial huq).incidental (admits_silent.checkAliasUnique rfl huq)).bindsBetween
  | type _ huq => exact bindsBetween_checkUnique huq
  | constant _ huq _ ih =>
    exact ((bindsBetween_checkUnique huq).trans ih).trans (bindsBetween_refl _)
  | function _ huq _ _ hclose ih =>
    exact ((bindsBetween_checkUnique huq).trans ih).trans (incidental_closeBody hclose).bindsBetween
  | branches hk _ _ _ _ hmg ih =>
    have hall := ih.trans ((refers_mergeBranches hmg).incidental (silent_onTable hmg)).bindsBetween
    rcases hk with rfl | rfl <;> exact hall
  | assignment _ _ _ hwr ih =>
    have hall := ih.trans ((refers_markWritten hwr).incidental (silent_markWritten hwr)).bindsBetween
    rwa [List.append_nil] at hall

/-! ## Two orders -/

/-- Names were bound in two ways alike: to the same symbols, but for what erroneous symbols are called, and with the same
issues. -/
structure Alike (w : Workspace) (answers : List (Occurrence × Option SymbolId)) (v : Workspace)
    (answers' : List (Occurrence × Option SymbolId)) (v' : Workspace) : Prop where
  symbols : ∃ rename : SymbolId → SymbolId, (∀ symbol entry, w.table.symbol? symbol = some entry → rename symbol = symbol) ∧
    Set.InjOn rename { symbol | ∃ o, (o, some symbol) ∈ answers } ∧
    (∀ o answer, (o, answer) ∈ answers → (o, answer.map rename) ∈ answers') ∧
    ∀ o symbol, (o, some symbol) ∈ answers → w.table.symbol? symbol = none →
      ∃ entry, entry.isErroneous = true ∧ v.table.symbol? symbol = some entry ∧ v'.table.symbol? (rename symbol) = some entry
  issues : (v'.issues.issues.filter (·.kind.isResolution)).Perm (v.issues.issues.filter (·.kind.isResolution))

section Alike

variable {answers' : List (Occurrence × Option SymbolId)} {answer' : Option SymbolId} {o' : Occurrence} {symbol' : SymbolId}

theorem Held.eq_of_mem (h : Held rules w answers v) (ho : (o, some symbol) ∈ answers) (ho' : (o', some symbol) ∈ answers)
    (hnew : w.table.symbol? symbol = none) : o = o' := by
  by_contra hne
  obtain ⟨entry, he⟩ := h.apart.forall ho ho' (fun heq => hne (congrArg Prod.fst heq)) symbol rfl rfl
  exact absurd (hnew.symm.trans he) nofun

theorem AreAt.eq_of_mem (h : w.AreAt (answers.map Prod.fst)) (ho : (o, answer) ∈ answers) (ho' : (o, answer') ∈ answers) :
    answer = answer' := by
  have hndp := h.distinct
  rw [List.map_map] at hndp
  exact congrArg Prod.snd (List.inj_on_of_nodup_map hndp ho ho' rfl)

theorem exists_answer (hperm : (answers'.map Prod.fst).Perm (answers.map Prod.fst)) (ho : (o, answer) ∈ answers) :
    ∃ answer', (o, answer') ∈ answers' := by
  obtain ⟨⟨_, answer'⟩, ho', rfl⟩ := List.mem_map.mp (hperm.mem_iff.mpr (List.mem_map_of_mem ho))
  exact ⟨answer', ho'⟩

/-- A symbol is bound in one way to a name that another is bound to in the other way. -/
def StandsFor (answers answers' : List (Occurrence × Option SymbolId)) (symbol symbol' : SymbolId) : Prop :=
  ∃ o, (o, some symbol) ∈ answers ∧ (o, some symbol') ∈ answers'

variable (h : Held rules w answers v) (h' : Held rules w answers' v') (hrel : rules.Reliable w.table)

include h h' hrel

/-- Two answers at one node are the same, or stand in for what was not found. -/
theorem Held.same (ho : (o, answer) ∈ answers) (ho' : (o, answer') ∈ answers') :
    (answer' = answer ∧ ∀ symbol, answer = some symbol → ∃ entry, w.table.symbol? symbol = some entry) ∨
      ∃ symbol symbol' entry, answer = some symbol ∧ answer' = some symbol' ∧ w.table.symbol? symbol = none ∧
        w.table.symbol? symbol' = none ∧ entry.isErroneous = true ∧ v.table.symbol? symbol = some entry ∧
        v'.table.symbol? symbol' = some entry := by
  obtain ⟨found, issues, hf, hans⟩ := h.answered _ ho
  obtain ⟨_, _, hf', hans'⟩ := h'.answered _ ho'
  cases hf.symm.trans hf'
  have hold : ∀ {symbol}, found.symbol = some symbol → ∃ entry, w.table.symbol? symbol = some entry :=
    exists_symbol?_of_lookUp hrel hf
  split at hans
  · next hsi =>
    rw [hsi] at hans'
    exact .inl ⟨hans'.trans hans.symm, fun symbol hsym => hold (hans.symm.trans hsym)⟩
  · next hsi =>
    rw [hsi] at hans'
    obtain ⟨node, symbol, hnd, rfl, _, hstn⟩ := hans
    obtain ⟨node', symbol', hnd', rfl, _, hstn'⟩ := hans'
    cases hnd.symm.trans hnd'
    rcases hstn with hsym | ⟨hno, hnew, hstandIn⟩
    · rcases hstn' with hsym' | ⟨hno, _⟩
      · refine .inl ⟨hsym'.symm.trans hsym, fun other hoth => ?_⟩
        cases hoth
        exact hold hsym
      · exact absurd (hno.symm.trans hsym) nofun
    · rcases hstn' with hsym' | ⟨_, hnew', hstandIn'⟩
      · exact absurd (hno.symm.trans hsym') nofun
      · exact .inr ⟨symbol, symbol', _, rfl, rfl, hnew, hnew', rfl, hstandIn, hstandIn'⟩

theorem Held.eq_of_answers (hat' : w.AreAt (answers'.map Prod.fst)) (ho : (o, some symbol) ∈ answers)
    (ho' : (o', some symbol) ∈ answers) (hoth : (o, answer) ∈ answers') (hoth' : (o', answer') ∈ answers') :
    answer = answer' := by
  rcases h.same h' hrel ho hoth with ⟨heq, hold⟩ | ⟨_, _, _, heq, _, hnew, _⟩
  · rcases h.same h' hrel ho' hoth' with ⟨heq', _⟩ | ⟨_, _, _, heq', _, hnew, _⟩
    · exact heq.trans heq'.symm
    · cases heq'
      obtain ⟨_, he⟩ := hold symbol rfl
      exact absurd (hnew.symm.trans he) nofun
  · cases heq
    obtain rfl := h.eq_of_mem ho ho' hnew
    exact hat'.eq_of_mem hoth hoth'

variable (hat : w.AreAt (answers.map Prod.fst)) (hperm : (answers'.map Prod.fst).Perm (answers.map Prod.fst))

include hat hperm

theorem Held.exists_rename : ∃ rename : SymbolId → SymbolId,
    (∀ {o answer answer'}, (o, answer) ∈ answers → (o, answer') ∈ answers' → answer.map rename = answer') ∧
      ∀ symbol, (∀ symbol', ¬ StandsFor answers answers' symbol symbol') → rename symbol = symbol := by
  have hone : ∀ symbol, ∃ found, (∀ symbol', StandsFor answers answers' symbol symbol' → found = symbol') ∧
      ((∀ symbol', ¬ StandsFor answers answers' symbol symbol') → found = symbol) := by
    intro symbol
    by_cases hst : ∃ found, StandsFor answers answers' symbol found
    · obtain ⟨found, o, ho, ho'⟩ := hst
      refine ⟨found, fun symbol' ⟨_, hoth, hoth'⟩ => ?_, fun hno => absurd ⟨o, ho, ho'⟩ (hno found)⟩
      exact Option.some.inj (h.eq_of_answers h' hrel (hat.perm hperm) ho hoth ho' hoth')
    · exact ⟨symbol, fun symbol' hsym => absurd ⟨symbol', hsym⟩ hst, fun _ => rfl⟩
  choose rename hstands hother using hone
  refine ⟨rename, fun {o answer answer'} ho ho' => ?_, hother⟩
  rcases h.same h' hrel ho ho' with ⟨rfl, _⟩ | ⟨_, _, _, rfl, rfl, _⟩
  · cases answer' with
    | none => rfl
    | some symbol => rw [Option.map_some, hstands symbol symbol ⟨o, ho, ho'⟩]
  · rw [Option.map_some, hstands _ _ ⟨o, ho, ho'⟩]

theorem Held.alike : Alike w answers v answers' v' := by
  obtain ⟨rename, hrename, hother⟩ := h.exists_rename h' hrel hat hperm
  refine ⟨⟨rename, fun symbol entry he => ?_, ?_, ?_, ?_⟩, ?_⟩
  · by_cases hst : ∃ symbol', StandsFor answers answers' symbol symbol'
    · obtain ⟨symbol', o, ho, ho'⟩ := hst
      rcases h.same h' hrel ho ho' with ⟨heq, _⟩ | ⟨_, _, _, heq, _, hnew, _⟩
      · exact Option.some.inj ((hrename ho ho').trans heq)
      · cases heq
        exact absurd (hnew.symm.trans he) nofun
    · exact hother symbol fun symbol' hsym => hst ⟨symbol', hsym⟩
  · rintro symbol ⟨o, ho⟩ other ⟨o', ho'⟩ heq
    obtain ⟨answer, hmem⟩ := exists_answer hperm ho
    obtain ⟨answer', hmem'⟩ := exists_answer hperm ho'
    have hans := hrename ho hmem
    have hans' := hrename ho' hmem'
    rw [Option.map_some] at hans hans'
    subst hans hans'
    rw [← heq] at hmem'
    exact Option.some.inj (h'.eq_of_answers h hrel hat hmem hmem' ho ho')
  · intro o answer ho
    obtain ⟨answer', ho'⟩ := exists_answer hperm ho
    rwa [hrename ho ho']
  · intro o symbol ho hnew
    obtain ⟨answer', ho'⟩ := exists_answer hperm ho
    rcases h.same h' hrel ho ho' with ⟨_, hold⟩ | ⟨_, _, entry, heq, rfl, _, _, herr, he, he'⟩
    · obtain ⟨_, he⟩ := hold symbol rfl
      exact absurd (hnew.symm.trans he) nofun
    · cases heq
      exact ⟨entry, herr, he, Option.some.inj (hrename ho ho') ▸ he'⟩
  · rw [h.issues, h'.issues]
    refine List.Perm.append_left _ ?_
    rw [← List.flatMap_map Prod.fst, ← List.flatMap_map Prod.fst]
    exact hperm.flatMap_right _

end Alike

/-- Names are bound to what they stand for as soon as the program is declared. In no table that binding names makes on its way
something else is found, and in every order the names are bound alike, with the same issues. Any resolvers may be asked
besides the standard ones, as long as they read declarations only. -/
theorem referAll_alike_in_any_order {generation : Generation} {libraries : List Library}
    (hlibraries : withLibraries generation libraries = .ok w.table) (hwf : w.tree.WellFormed) {w₁ w₂ : Workspace}
    (hdeclared : declareAll w = .ok () w₁) (hreferred : referAll rules w₁ = .ok () w₂)
    (hresolvers : ∀ resolver ∈ rules.resolvers,
      resolver ∈ Resolver.standard ∨ Resolver.ReadsDeclarations resolver.resolve) :
    (∀ table identifier, Relation.ReflTransGen Binds w₁.table table →
      Resolver.resolveAll rules.resolvers table identifier = Resolver.resolveAll rules.resolvers w₁.table identifier) ∧
    ∃ answers, answers.map Prod.fst = w₁.occurrences ∧ BindsNames rules w₁ answers w₂ ∧
      (∀ o answer, (o, answer) ∈ answers → Answered rules w₁ w₂ o answer) ∧
      (∀ id node, w₁.tree.get? id = some node → node.kind ≠ .block → (∀ o ∈ w₁.occurrences, o.id ≠ id) →
        w₂.tree.get? id = some node) ∧
      w₂.issues.issues.filter (·.kind.isResolution) =
        w₁.issues.issues.filter (·.kind.isResolution) ++ w₁.occurrences.flatMap (issuesAt rules w₁) ∧
      ∀ order : List Occurrence, order.Perm w₁.occurrences →
        (∃ answers' w₃, answers'.map Prod.fst = order ∧ BindsNames rules w₁ answers' w₃) ∧
        ∀ answers' w₃, answers'.map Prod.fst = order → BindsNames rules w₁ answers' w₃ →
          (∀ o answer, (o, answer) ∈ answers' → Answered rules w₁ w₃ o answer) ∧ Alike w₁ answers w₂ answers' w₃ := by
  have htouches := (stands_declareAll hwf hdeclared).touches
  have htable := isDeclared_of_declares hlibraries htouches.declares
  have hreliable : rules.Reliable w₁.table := ⟨htable, fun resolver hresolver =>
    (hresolvers resolver hresolver).elim Resolver.readsDeclarations_of_mem_standard id⟩
  have hwf₁ := htouches.tree.wellFormed hwf
  have hat := areAt_occurrences hwf₁
  obtain ⟨answers, hanswers, hbinds⟩ : ∃ answers, answers.map Prod.fst = w₁.occurrences ∧ BindsNames rules w₁ answers w₂ :=
    (proceeds_referAll hwf₁ hreferred).1.bindsBetween .start
  have hheld := held_of_bindsNames hreliable hbinds (hanswers ▸ hat)
  refine ⟨fun table identifier h => Resolver.resolveAll_of_extends htable hreliable.resolvers (extends_of_binds h) identifier,
    answers, hanswers, hbinds, fun o answer ho => hheld.answered _ ho, fun id node hnode hblock hother => ?_, ?_,
    fun order hperm => ⟨?_, ?_⟩⟩
  · refine hheld.frame hnode hblock fun p hp => hother p.1 ?_
    rw [← hanswers]
    exact List.mem_map_of_mem hp
  · rw [hheld.issues, ← hanswers, List.flatMap_map]
  · refine exists_bindsNames hreliable (hat.perm hperm) fun o ho => ?_
    rw [hperm.mem_iff, ← hanswers] at ho
    obtain ⟨p, hp, rfl⟩ := List.mem_map.mp ho
    obtain ⟨found, issues, hfound, _⟩ := hheld.answered p hp
    exact ⟨found, issues, hfound⟩
  · rintro answers' w₃ rfl hbinds'
    have hheld' := held_of_bindsNames hreliable hbinds' (hat.perm hperm)
    exact ⟨fun o answer ho => hheld'.answered _ ho, hheld.alike hheld' hreliable (hanswers ▸ hat) (hanswers ▸ hperm)⟩

/-- A class is used before its alias is declared, a type is written in capitals, and then come two names that stand for
nothing. -/
def strayProgram : List SourceTree :=
  [.node .namespaceDecl "Shapes" ⟨1, 1⟩ [
    .node .functionDecl "draw" ⟨2, 1⟩ [.node .parameter "$x" ⟨2, 4⟩ [.node .typeName "Figure" ⟨2, 5⟩ []],
      .node .parameter "$z" ⟨2, 8⟩ [.node .typeName "INT" ⟨2, 9⟩ []],
      .node .block "" ⟨2, 12⟩ [.node .echoStmt "" ⟨2, 14⟩ [.node .variableRef "$y" ⟨2, 15⟩ []],
        .node .echoStmt "" ⟨2, 18⟩ [.node .variableRef "$y" ⟨2, 19⟩ []]]],
    .node .useDecl "" ⟨3, 1⟩ [.node .typeName "\\Shapes\\Circle" ⟨3, 5⟩ [], .node .identifier "Figure" ⟨3, 12⟩ []],
    .node .classDecl "Circle" ⟨4, 1⟩ []]]

/-- Asks for built-ins whose names are written in capitals. -/
def capitals : Resolver where
  name := "capitals"
  resolve := fun table identifier => Resolver.coreLocal table identifier (Text.lowerCase identifier.name)

def strayRules : NameRules := ⟨Resolver.standard ++ [capitals], false⟩

def strayDeclared : Workspace := left (declareAll (startOf strayProgram))

def strayReferred : Workspace := left (referAll strayRules strayDeclared)

theorem referAll_alike_in_reverse :
    strayDeclared.occurrences.map (·.id.index) = [4, 6, 9, 11, 12] ∧
    strayReferred.issues.issues.map (·.kind) = [.aliasForwardReference, .notDefined, .notDefined] ∧
    ∃ answers answers' w₃, answers.map Prod.fst = strayDeclared.occurrences ∧
      answers'.map Prod.fst = strayDeclared.occurrences.reverse ∧ BindsNames strayRules strayDeclared answers' w₃ ∧
      Alike strayDeclared answers strayReferred answers' w₃ := by
  have hdeclared : declareAll (startOf strayProgram) = .ok () strayDeclared := eq_ok_left (by decide +kernel)
  have hreferred : referAll strayRules strayDeclared = .ok () strayReferred := eq_ok_left (by decide +kernel)
  have hresolvers : ∀ resolver ∈ strayRules.resolvers,
      resolver ∈ Resolver.standard ∨ Resolver.ReadsDeclarations resolver.resolve := by
    intro resolver hresolver
    refine (List.mem_append.mp hresolver).imp_right fun hcapitals => ?_
    cases List.mem_singleton.mp hcapitals
    exact ⟨fun hdec hext identifier => Resolver.coreLocal_of_extends hdec hext identifier _,
      fun _ => Resolver.within_coreLocal⟩
  obtain ⟨_, answers, hanswers, _, _, _, _, horder⟩ := referAll_alike_in_any_order (withLibraries_startOf _)
    (Tree.wellFormed_ofProgram _) hdeclared hreferred hresolvers
  obtain ⟨⟨answers', w₃, hanswers', hbinds⟩, halike⟩ := horder _ strayDeclared.occurrences.reverse_perm
  exact ⟨by decide +kernel, by decide +kernel, answers, answers', w₃, hanswers, hanswers', hbinds,
    (halike answers' w₃ hanswers' hbinds).2⟩

end SoftTyping.Workspace
