import Mathlib.Data.List.Flatten
import SoftTyping.Proofs.Analysis.Resolved

/-!
# Looking names up

`Workspace.occurrences` lists the nodes of a program at which something is looked up, and `Workspace.lookUp` says what is found
there and what is reported about it. Binding a name is looking it up, and giving the answer to its node (`bindNode_eq_ok_iff`).
What is found does not change while names are bound (`lookUp_of_preserves`).
-/

namespace SoftTyping

open Shape Resolver

/-! ## Where names are looked up -/

/-- What is looked up at a node: a name, which is reported with an issue of some kind if it stands for nothing, or what a use
declaration names. -/
inductive Site where
  | name (kind : IdentifierKind) (failure : IssueKind)
  | use
deriving DecidableEq

/-- A node at which something is looked up. -/
structure Occurrence where
  id : NodeId
  site : Site
deriving DecidableEq

/-- What is looked up at a node of an expression. -/
def NodeKind.site? : NodeKind → Option Site
  | .variableRef => some (.name .var .notDefined)
  | .identifier => some (.name .const .notDefined)
  | .typeName => some (.name .type .unknownType)
  | .call => some (.name .method .notDefined)
  | _ => none

/-- Issues about what a name stands for. -/
def IssueKind.isResolution : IssueKind → Bool
  | .aliasForwardReference | .notDefined | .unknownType | .aliasTargetNotDefined => true
  | _ => false

namespace Shape

/-- What is looked up at a node itself, if it stands in an expression. -/
def ownOccurrences (id : NodeId) (kind : NodeKind) : List Occurrence := (kind.site?.map (Occurrence.mk id)).toList

/-- What is looked up at the type of a parameter. -/
def hintOccurrences (children : List Shape) : List Occurrence :=
  ((children.find? (·.kind = .typeName)).map fun hint => ⟨hint.id, .name .type .unknownType⟩).toList

mutual
/-- What is looked up below a node, in the order of the pass that binds names. -/
def occurrences : Role → Shape → List Occurrence
  | .statement, .node id kind children =>
    match kind with
    | .namespaceDecl => occurrencesIn .statement children
    | .useDecl => [⟨id, .use⟩]
    | .classDecl => []
    | .functionDecl => occurrencesIn .part children
    | .ifStmt | .whileStmt => occurrencesIn .branch children
    | .assign =>
      match children with
      | [_, value] => value.occurrences .expression
      | _ => []
    | _ => occurrencesIn .expression children
  | .part, .node _ kind children =>
    match kind with
    | .parameter => hintOccurrences children
    | .block => occurrencesIn .statement children
    | _ => []
  | .branch, .node id kind children =>
    match kind with
    | .block => occurrencesIn .statement children
    | _ => ownOccurrences id kind ++ occurrencesIn .expression children
  | .expression, .node id kind children => ownOccurrences id kind ++ occurrencesIn .expression children
/-- What is looked up below some nodes. -/
def occurrencesIn : Role → List Shape → List Occurrence
  | _, [] => []
  | role, shape :: rest => shape.occurrences role ++ occurrencesIn role rest
end

variable {role : Role} {shape : Shape} {shapes children : List Shape} {o : Occurrence} {id : NodeId} {kind : NodeKind}

theorem occurrencesIn_eq_flatMap (role : Role) (shapes : List Shape) :
    occurrencesIn role shapes = shapes.flatMap (occurrences role) := by
  induction shapes with
  | nil => rfl
  | cons shape rest ih => rw [occurrencesIn, List.flatMap_cons, ih]

theorem occurrences_branch (h : kind ≠ .block) :
    occurrences .branch (.node id kind children) = occurrences .expression (.node id kind children) := by
  cases kind <;> first | rfl | exact absurd rfl h

/-- The kind of a node asks for something to be looked up at it. -/
def Asks (shape : Shape) (site : Site) : Prop := shape.kind.site? = some site ∨ site = .use ∧ shape.kind = .useDecl

/-- What may be looked up below a node: what is looked up at the node itself and below some of its children, or what is looked
up at one of its children. -/
inductive Finds (shape : Shape) : List Occurrence → Prop where
  | below (inner : Role) {below : List Shape} : below.Sublist shape.children → Finds shape (occurrencesIn inner below)
  | own (inner : Role) {below : List Shape} {site : Site} :
    shape.Asks site → below.Sublist shape.children → Finds shape (⟨shape.id, site⟩ :: occurrencesIn inner below)
  | child {child : Shape} {site : Site} : child ∈ shape.children → child.Asks site → Finds shape [⟨child.id, site⟩]

theorem finds (shape : Shape) (role : Role) : shape.Finds (shape.occurrences role) := by
  obtain ⟨id, kind, children⟩ := shape
  have hno : Finds (.node id kind children) [] := .below .expression (List.nil_sublist _)
  have hin : ∀ inner, Finds (.node id kind children) (occurrencesIn inner children) := fun inner => .below inner (.refl _)
  have hexp : Finds (.node id kind children) (ownOccurrences id kind ++ occurrencesIn .expression children) := by
    unfold ownOccurrences
    cases hsi : kind.site? with
    | none => exact hin .expression
    | some site => exact .own .expression (.inl hsi) (.refl _)
  cases role with
  | statement =>
    unfold occurrences
    cases kind <;> dsimp only
    case useDecl => exact .own .expression (.inr ⟨rfl, rfl⟩) (List.nil_sublist _)
    case classDecl => exact hno
    case assign =>
      split
      · next target value =>
        have hvl : Finds (.node id .assign [target, value]) (occurrencesIn .expression [value]) :=
          .below .expression (List.sublist_cons_self _ _)
        rwa [occurrencesIn, occurrencesIn, List.append_nil] at hvl
      · exact hno
    all_goals exact hin _
  | part =>
    cases kind <;> simp only [occurrences]
    case parameter =>
      unfold hintOccurrences
      cases hhint : children.find? (·.kind = .typeName) with
      | none => exact hno
      | some hint =>
        have htp : hint.kind = .typeName := by simpa using List.find?_some hhint
        exact .child (List.mem_of_find?_eq_some hhint) (.inl (by rw [htp]; rfl))
    case block => exact hin _
    all_goals exact hno
  | branch =>
    cases kind <;> simp only [occurrences]
    case block => exact hin _
    all_goals exact hexp
  | expression => exact hexp

theorem exists_of_mem_occurrencesIn (h : o ∈ occurrencesIn role shapes) : ∃ shape ∈ shapes, o ∈ shape.occurrences role := by
  rw [occurrencesIn_eq_flatMap] at h
  exact List.mem_flatMap.mp h

theorem has_of_mem_occurrences (h : o ∈ shape.occurrences role) : shape.Has o.id := by
  induction shape using induction generalizing role with
  | node id kind children ih =>
    have hin : ∀ {inner below}, below.Sublist children → o ∈ occurrencesIn inner below → (node id kind children).Has o.id := by
      intro inner below hsub ho
      obtain ⟨child, hcd, ho⟩ := exists_of_mem_occurrencesIn ho
      exact .inside (hsub.subset hcd) (ih child (hsub.subset hcd) ho)
    generalize hf : occurrences role (node id kind children) = found at h
    cases hf ▸ finds (node id kind children) role with
    | below inner hsub => exact hin hsub h
    | own inner _ hsub =>
      rcases List.mem_cons.mp h with rfl | h
      · exact .here
      · exact hin hsub h
    | child hcd _ =>
      cases List.mem_singleton.mp h
      exact .inside hcd (has_id _)

theorem nodup_occurrencesIn (role : Role) (h : Distinct shapes) : ((occurrencesIn role shapes).map (·.id)).Nodup := by
  induction h generalizing role with
  | nil => exact List.nodup_nil
  | @cons id kind children rest hid _ happart _ ihchildren ihrest =>
    have hin : ∀ inner {below : List Shape}, below.Sublist children → ((occurrencesIn inner below).map (·.id)).Nodup := by
      intro inner below hsub
      have hch := ihchildren inner
      rw [occurrencesIn_eq_flatMap] at hch ⊢
      exact hch.sublist ((hsub.flatMap _).map _)
    have hnd : (((node id kind children).occurrences role).map (·.id)).Nodup := by
      generalize hf : occurrences role (node id kind children) = found
      cases hf ▸ finds (node id kind children) role with
      | below inner hsub => exact hin inner hsub
      | own inner _ hsub =>
        refine List.nodup_cons.mpr ⟨fun hmem => hid ?_, hin inner hsub⟩
        obtain ⟨o, ho, heq⟩ := List.mem_map.mp hmem
        obtain ⟨child, hcd, ho⟩ := exists_of_mem_occurrencesIn ho
        exact ⟨child, hsub.subset hcd, (show o.id = id from heq) ▸ has_of_mem_occurrences ho⟩
      | child => exact List.nodup_singleton _
    rw [occurrencesIn, List.map_append]
    refine List.Nodup.append hnd (ihrest role) fun x hx hx' => ?_
    obtain ⟨o, ho, rfl⟩ := List.mem_map.mp hx
    obtain ⟨o', ho', heq⟩ := List.mem_map.mp hx'
    obtain ⟨other, hoth, ho'⟩ := exists_of_mem_occurrencesIn ho'
    exact happart o.id (has_of_mem_occurrences ho) ⟨other, hoth, heq ▸ has_of_mem_occurrences ho'⟩

end Shape

theorem Symbol.isErroneous_outline (symbol : Symbol) : symbol.outline.isErroneous = symbol.isErroneous := by
  obtain ⟨_, _, _, data⟩ := symbol
  cases data <;> rfl

theorem SymbolTable.Binds.exists_symbol? {table table' : SymbolTable} {symbol : SymbolId} {entry' : Symbol}
    (h : table.Binds table') (he : table'.symbol? symbol = some entry') (herr : entry'.isErroneous = false) :
    ∃ entry, table.symbol? symbol = some entry := by
  cases h with
  | addErroneous hadd =>
    obtain ⟨_, rfl⟩ := addDetached_eq_ok hadd
    rw [symbol?_pushSymbol] at he
    split at he
    · cases he
      cases herr
    · exact ⟨entry', he⟩
  | bindAlias _ _ hup | declareType _ hup =>
    obtain ⟨entry, he, _⟩ := exists_of_updateSymbol hup he
    exact ⟨entry, he⟩
  | markInitialised hmark =>
    obtain rfl := updateScope_eq_ok hmark
    exact ⟨entry', he⟩
  | mergeBranches hmg =>
    obtain ⟨_, _, rfl⟩ := mergeBranches_eq_ok hmg
    exact ⟨entry', he⟩

namespace Workspace

open SymbolTable

variable {rules : NameRules} {w w' v v' : Workspace} {id : NodeId} {kind : IdentifierKind} {failure : IssueKind}
  {found : Resolution} {issues : List Issue} {o : Occurrence} {symbol : SymbolId} {answer : Option SymbolId}
  {table table' : SymbolTable} {node : Node} {order : List Occurrence}

/-- What is looked up in a program, in the order of the pass that binds names. -/
def occurrences (w : Workspace) : List Occurrence := Shape.occurrencesIn .statement w.statements

/-! ## Where names are looked up in a tree -/

/-- Something is looked up at a node as its kind asks. -/
def IsAt (w : Workspace) (o : Occurrence) : Prop :=
  ∃ node, w.tree.get? o.id = some node ∧ (node.kind.site? = some o.site ∨ o.site = .use ∧ node.kind = .useDecl)

theorem IsAt.ne_block (h : w.IsAt o) (hnd : w.tree.get? o.id = some node) : node.kind ≠ .block := by
  obtain ⟨_, hnd', hsi⟩ := h
  cases hnd.symm.trans hnd'
  rintro hbl
  rw [hbl] at hsi
  rcases hsi with hsi | ⟨_, hk⟩
  · nomatch hsi
  · nomatch hk

theorem IsAt.isName (h : w.IsAt o) (hnd : w.tree.get? o.id = some node) (hsi : o.site = .name kind failure) :
    node.kind.isName = true := by
  obtain ⟨_, hnd', hk⟩ := h
  cases hnd.symm.trans hnd'
  rw [hsi] at hk
  rcases hk with hk | ⟨hk, _⟩
  · cases hndKind : node.kind <;> rw [hndKind] at hk <;> first | rfl | nomatch hk
  · nomatch hk

/-- Something is looked up at each of some nodes, and they are not the same. -/
structure AreAt (w : Workspace) (order : List Occurrence) : Prop where
  isAt : ∀ o ∈ order, w.IsAt o
  distinct : (order.map (·.id)).Nodup

theorem AreAt.perm {order' : List Occurrence} (h : w.AreAt order) (hperm : order'.Perm order) : w.AreAt order' :=
  ⟨fun o ho => h.isAt o (hperm.mem_iff.mp ho), (hperm.map _).nodup_iff.mpr h.distinct⟩

theorem AreAt.of_append (h : w.AreAt (order ++ [o])) : w.AreAt order ∧ w.IsAt o ∧ ∀ other ∈ order, other.id ≠ o.id := by
  have hdis := h.distinct
  rw [List.map_append, List.nodup_append'] at hdis
  refine ⟨⟨fun other hoth => h.isAt other (List.mem_append_left _ hoth), hdis.1⟩,
    h.isAt o (List.mem_append_right _ List.mem_cons_self), fun other hoth heq => ?_⟩
  exact hdis.2.2 (List.mem_map_of_mem hoth) (List.mem_singleton.mpr heq)

theorem isAt_of_follows {shape : Shape} (h : Follows w.tree shape) (hask : shape.Asks o.site) (hid : o.id = shape.id) :
    w.IsAt o := by
  obtain ⟨hnd, hk, _⟩ := h
  exact ⟨_, hid ▸ hnd, hk ▸ hask⟩

theorem isAt_of_mem {shape : Shape} {role : Role} (h : Follows w.tree shape) (ho : o ∈ shape.occurrences role) : w.IsAt o := by
  induction h generalizing role with
  | @node id kind children node hnd hk hids hpre hch ih =>
    have hin : ∀ {inner below}, below.Sublist children → o ∈ occurrencesIn inner below → w.IsAt o := by
      intro inner below hsub ho
      obtain ⟨child, hcd, ho⟩ := exists_of_mem_occurrencesIn ho
      exact ih child (hsub.subset hcd) ho
    generalize hf : Shape.occurrences role (.node id kind children) = found at ho
    cases hf ▸ finds (.node id kind children) role with
    | below inner hsub => exact hin hsub ho
    | own inner hask hsub =>
      rcases List.mem_cons.mp ho with rfl | ho
      · exact isAt_of_follows (.node hnd hk hids hpre hch) hask rfl
      · exact hin hsub ho
    | child hcd hask =>
      cases List.mem_singleton.mp ho
      exact isAt_of_follows (hch _ hcd) hask rfl

theorem areAt_occurrences (hwf : w.tree.WellFormed) : w.AreAt w.occurrences := by
  have hap := apart_statements hwf
  refine ⟨fun o ho => ?_, nodup_occurrencesIn .statement (hap.distinct hwf)⟩
  obtain ⟨shape, hsh, ho⟩ := exists_of_mem_occurrencesIn ho
  exact isAt_of_mem (follows_of_isShape hwf (hap.isShape shape hsh) (hap.isThere shape hsh)) ho

/-! ## Looking up -/

/-- The issue that a name stands for nothing. -/
def missingIssue (node : Node) (kind : IdentifierKind) (failure : IssueKind) : Issue :=
  ((Issue.ofKind failure node.position).withParameter "kind" kind.label).withParameter "name" node.text

/-- The issue that a name goes through an alias which is declared behind it, if it does. -/
def forwardIssues (table : SymbolTable) (node : Node) (found : Resolution) : Except Fault (List Issue) :=
  match found.throughAlias with
  | some use =>
    if found.aliasIsForward then do
      let use ← table.symbol use
      .ok [((Issue.ofKind .aliasForwardReference node.position).withRelated use.position).withParameter "name" use.name]
    else .ok []
  | none => .ok []

/-- What the name at a node stands for, and the issues of that. -/
def lookUpName (rules : NameRules) (w : Workspace) (id : NodeId) (kind : IdentifierKind) (failure : IssueKind) :
    Except Fault (Resolution × List Issue) := do
  let node ← w.tree.node id
  let scope ← w.tree.scopeOf id
  let identifier := Identifier.ofKind node.text kind scope node.position rules.caseInsensitiveTypes
  let found ← Resolver.resolveAll rules.resolvers w.table identifier
  let forward ← forwardIssues w.table node found
  .ok (found, forward ++ if found.symbol.isSome then [] else [missingIssue node kind failure])

/-- What a use declaration stands for, and the issues of that. -/
def lookUpUse (rules : NameRules) (w : Workspace) (id : NodeId) : Except Fault (Resolution × List Issue) := do
  let node ← w.tree.nodeOfKind id .useDecl
  let use ← w.tree.symbolOf id
  let block ← w.tree.scopeOf id
  let symbol ← w.table.symbol use
  match symbol.aliasTarget? with
  | none => .error (.unexpectedSymbol symbol.name "alias")
  | some target => do
    let identifier := Identifier.ofKind target .type block node.position rules.caseInsensitiveTypes
    let found ← Resolver.resolveAll rules.resolvers w.table identifier
    .ok (found, if found.symbol.isSome then []
      else [(Issue.ofKind .aliasTargetNotDefined node.position).withParameter "name" target])

/-- What is found at an occurrence in the table as it is now, and the issues of that. -/
def lookUp (rules : NameRules) (w : Workspace) (o : Occurrence) : Except Fault (Resolution × List Issue) :=
  match o.site with
  | .name kind failure => lookUpName rules w o.id kind failure
  | .use => lookUpUse rules w o.id

/-- Bind what is looked up at a node. -/
def bindOccurrence (rules : NameRules) (o : Occurrence) : Step Workspace (Option SymbolId) :=
  match o.site with
  | .name kind failure => some <$> bindNode rules o.id kind failure
  | .use => bindAlias rules o.id

theorem lookUpName_eq_ok : lookUpName rules w id kind failure = .ok (found, issues) ↔
    ∃ node scope forward, w.tree.get? id = some node ∧ node.scope = some scope ∧
      Resolver.resolveAll rules.resolvers w.table (.ofKind node.text kind scope node.position rules.caseInsensitiveTypes) =
        .ok found ∧ forwardIssues w.table node found = .ok forward ∧
      issues = forward ++ if found.symbol.isSome then [] else [missingIssue node kind failure] := by
  simp only [lookUpName, Refusal.bind_eq_ok, Tree.node_eq_ok, Tree.scopeOf_eq_ok]
  constructor
  · rintro ⟨node, hnd, scope, ⟨node', hnd', hsc⟩, found', hf, forward, hfwd, heq⟩
    cases hnd.symm.trans hnd'
    cases heq
    exact ⟨node, scope, forward, hnd, hsc, hf, hfwd, rfl⟩
  · rintro ⟨node, scope, forward, hnd, hsc, hf, hfwd, rfl⟩
    exact ⟨node, hnd, scope, ⟨node, hnd, hsc⟩, found, hf, forward, hfwd, rfl⟩

theorem lookUpUse_eq_ok : lookUpUse rules w id = .ok (found, issues) ↔
    ∃ node use block entry target, w.tree.get? id = some node ∧ node.kind = .useDecl ∧ node.symbol = some use ∧
      node.scope = some block ∧ w.table.symbol? use = some entry ∧ entry.aliasTarget? = some target ∧
      Resolver.resolveAll rules.resolvers w.table (.ofKind target .type block node.position rules.caseInsensitiveTypes) =
        .ok found ∧
      issues = if found.symbol.isSome then []
        else [(Issue.ofKind .aliasTargetNotDefined node.position).withParameter "name" target] := by
  simp only [lookUpUse, Refusal.bind_eq_ok, Tree.nodeOfKind_eq_ok, Tree.symbolOf_eq_ok, Tree.scopeOf_eq_ok]
  constructor
  · rintro ⟨node, ⟨hnd, hk⟩, use, ⟨node', hnd', huse⟩, block, ⟨node'', hnd'', hbl⟩, entry, he, h⟩
    cases hnd.symm.trans hnd'
    cases hnd.symm.trans hnd''
    split at h
    · nomatch h
    · next target ht =>
      obtain ⟨found', hf, heq⟩ := Refusal.bind_eq_ok.mp h
      cases heq
      exact ⟨node, use, block, entry, target, hnd, hk, huse, hbl, symbol_eq_ok.mp he, ht, hf, rfl⟩
  · rintro ⟨node, use, block, entry, target, hnd, hk, huse, hbl, he, ht, hf, rfl⟩
    refine ⟨node, ⟨hnd, hk⟩, use, ⟨node, hnd, huse⟩, block, ⟨node, hnd, hbl⟩, entry, symbol_eq_ok.mpr he, ?_⟩
    rw [ht]
    exact Refusal.bind_eq_ok.mpr ⟨found, hf, rfl⟩

/-! ## One name -/

theorem reportForwardAlias_eq_ok {u : Unit} : reportForwardAlias node found w = .ok u w' ↔
    ∃ forward, forwardIssues w.table node found = .ok forward ∧ w' = { w with issues := w.issues.reportAll forward } := by
  have hno : (pure () : Step Workspace Unit) w = .ok u w' ↔
      ∃ forward, .ok [] = (.ok forward : Except Fault (List Issue)) ∧ w' = { w with issues := w.issues.reportAll forward } := by
    rw [Step.pure_eq_ok]
    constructor
    · rintro ⟨_, rfl⟩
      exact ⟨[], rfl, rfl⟩
    · rintro ⟨_, heq, rfl⟩
      cases heq
      exact ⟨rfl, rfl⟩
  unfold reportForwardAlias forwardIssues
  cases found.throughAlias with
  | none => exact hno
  | some use =>
    cases found.aliasIsForward with
    | false => exact hno
    | true =>
      simp only [if_true, Step.bind_eq_ok, askTable_eq_ok, report_eq_ok, Refusal.bind_eq_ok]
      constructor
      · rintro ⟨entry, _, ⟨he, rfl⟩, rfl⟩
        exact ⟨_, ⟨entry, he, rfl⟩, rfl⟩
      · rintro ⟨_, ⟨entry, he, heq⟩, rfl⟩
        cases heq
        exact ⟨entry, _, ⟨he, rfl⟩, rfl⟩

/-- The symbol that stands in for a name that stands for nothing. -/
def standIn (node : Node) (kind : IdentifierKind) (failure : IssueKind) : Symbol where
  name := node.text
  position := node.position
  data := .erroneous (missingIssue node kind failure)

/-- A name that stands for nothing is bound to an erroneous symbol of its own. -/
theorem foundSymbol_eq_ok : foundSymbol node kind failure found w = .ok symbol w' ↔ found.symbol = some symbol ∧ w' = w ∨
      found.symbol = none ∧ symbol = (w.table.pushSymbol (standIn node kind failure)).1 ∧
        w' = { w with
          table := (w.table.pushSymbol (standIn node kind failure)).2
          issues := w.issues.report (missingIssue node kind failure) } := by
  unfold foundSymbol
  cases hsym : found.symbol with
  | some other =>
    simp only [Step.pure_eq_ok]
    constructor
    · rintro ⟨rfl, rfl⟩
      exact .inl ⟨rfl, rfl⟩
    · rintro (⟨heq, rfl⟩ | ⟨hno, _⟩)
      · cases heq
        exact ⟨rfl, rfl⟩
      · nomatch hno
  | none =>
    simp only [Step.bind_eq_ok, onTable_eq_ok, report_eq_ok, Step.pure_eq_ok]
    constructor
    · rintro ⟨stand, _, ⟨table, htb, rfl⟩, _, _, rfl, rfl, rfl⟩
      obtain ⟨rfl, rfl⟩ := addDetached_eq_ok htb
      exact .inr ⟨trivial, rfl, rfl⟩
    · rintro (⟨hso, _⟩ | ⟨_, rfl, rfl⟩)
      · nomatch hso
      · exact ⟨_, _, ⟨_, rfl, rfl⟩, (), _, rfl, rfl, rfl⟩

/-- What binding a name does: it is looked up, its node takes the symbol, and the issues are reported. -/
theorem bindNode_eq_ok_iff : bindNode rules id kind failure v = .ok symbol v' ↔
    ∃ node found issues, v.tree.get? id = some node ∧ lookUpName rules v id kind failure = .ok (found, issues) ∧
      ∃ table, (found.symbol = some symbol ∧ table = v.table ∨
          found.symbol = none ∧ symbol = (v.table.pushSymbol (standIn node kind failure)).1 ∧
            table = (v.table.pushSymbol (standIn node kind failure)).2) ∧
        v' = { v with
          tree := v.tree.update id fun node => { node with symbol := some symbol }
          table
          issues := v.issues.reportAll issues } := by
  simp only [bindNode, Step.bind_eq_ok, askTree_eq_ok, askTable_eq_ok, Step.pure_eq_ok, reportForwardAlias_eq_ok,
    foundSymbol_eq_ok, updateNode_eq_ok, Tree.node_eq_ok, Tree.scopeOf_eq_ok, lookUpName_eq_ok]
  constructor
  · rintro ⟨node, _, ⟨hnd, rfl⟩, scope, _, ⟨⟨node', hnd', hsc⟩, rfl⟩, found, _, ⟨hf, rfl⟩, _, _, ⟨forward, hfwd, rfl⟩,
      stand, _, hstand, _, _, ⟨_, rfl⟩, rfl, rfl⟩
    cases hnd.symm.trans hnd'
    refine ⟨node, found, _, hnd, ⟨node, scope, forward, hnd, hsc, hf, hfwd, rfl⟩, ?_⟩
    rcases hstand with ⟨hsym, rfl⟩ | ⟨hno, rfl, rfl⟩
    · refine ⟨_, .inl ⟨hsym, rfl⟩, ?_⟩
      rw [hsym, Option.isSome_some, if_pos rfl, List.append_nil]
    · refine ⟨_, .inr ⟨hno, rfl, rfl⟩, ?_⟩
      rw [hno, IssueLog.reportAll, IssueLog.reportAll, List.foldl_append]
      rfl
  · rintro ⟨node, found, issues, hnd, ⟨node', scope, forward, hnd', hsc, hf, hfwd, rfl⟩, table, hstand, rfl⟩
    cases hnd.symm.trans hnd'
    refine ⟨node, v, ⟨hnd, rfl⟩, scope, v, ⟨⟨node, hnd, hsc⟩, rfl⟩, found, v, ⟨hf, rfl⟩, (), _, ⟨forward, hfwd, rfl⟩,
      symbol, ?_⟩
    rcases hstand with ⟨hsym, rfl⟩ | ⟨hno, rfl, rfl⟩
    · refine ⟨_, .inl ⟨hsym, rfl⟩, (), _, ⟨⟨node, hnd⟩, rfl⟩, rfl, ?_⟩
      rw [hsym, Option.isSome_some, if_pos rfl, List.append_nil]
    · refine ⟨_, .inr ⟨hno, rfl, rfl⟩, (), _, ⟨⟨node, hnd⟩, rfl⟩, rfl, ?_⟩
      rw [hno, IssueLog.reportAll, IssueLog.reportAll, List.foldl_append]
      rfl

theorem lookUpUse_of_bindAlias (h : bindAlias rules id v = .ok answer v') : ∃ found issues table,
    lookUpUse rules v id = .ok (found, issues) ∧ answer = found.symbol ∧
      v' = { v with table, issues := v.issues.reportAll issues } ∧ Relation.ReflTransGen Binds v.table table := by
  obtain ⟨node, use, block, entry, target, found, hnd, hk, huse, hbl, he, ht, hf, rfl, hone⟩ := bindAlias_eq_ok.mp h
  have hlookUp := lookUpUse_eq_ok.mpr ⟨node, use, block, entry, target, hnd, hk, huse, hbl, he, ht, hf, rfl⟩
  rcases hone with ⟨hsym, hrep⟩ | ⟨resolved, hsym, hup⟩
  · refine ⟨found, _, _, hlookUp, rfl, ?_, .refl⟩
    rw [report_eq_ok.mp hrep, hsym]
    rfl
  · obtain ⟨table, htb, rfl⟩ := onTable_eq_ok.mp hup
    refine ⟨found, _, table, hlookUp, rfl, ?_, .single (.bindAlias he ht htb)⟩
    rw [hsym]
    rfl

theorem exists_bindOccurrence (h : lookUp rules v o = .ok (found, issues)) :
    ∃ answer v', bindOccurrence rules o v = .ok answer v' := by
  obtain ⟨id, site⟩ := o
  cases site with
  | name kind failure =>
    obtain ⟨node, _, _, hnd, _⟩ := lookUpName_eq_ok.mp h
    suffices hbi : ∃ symbol v', bindNode rules id kind failure v = .ok symbol v' by
      obtain ⟨symbol, v', hbi⟩ := hbi
      exact ⟨some symbol, v', Step.map_eq_ok.mpr ⟨symbol, hbi, rfl⟩⟩
    cases hsym : found.symbol with
    | some symbol => exact ⟨symbol, _, bindNode_eq_ok_iff.mpr ⟨node, found, issues, hnd, h, _, .inl ⟨hsym, rfl⟩, rfl⟩⟩
    | none => exact ⟨_, _, bindNode_eq_ok_iff.mpr ⟨node, found, issues, hnd, h, _, .inr ⟨hsym, rfl, rfl⟩, rfl⟩⟩
  | use =>
    obtain ⟨node, use, block, entry, target, hnd, hk, huse, hbl, he, ht, hf, _⟩ := lookUpUse_eq_ok.mp h
    cases hsym : found.symbol with
    | none =>
      exact ⟨_, _, bindAlias_eq_ok.mpr ⟨node, use, block, entry, target, found, hnd, hk, huse, hbl, he, ht, hf, rfl,
        .inl ⟨hsym, rfl⟩⟩⟩
    | some resolved =>
      obtain ⟨_, hup⟩ := exists_updateSymbol he fun symbol => { symbol with data := .aliasOf target (some resolved) }
      exact ⟨_, _, bindAlias_eq_ok.mpr ⟨node, use, block, entry, target, found, hnd, hk, huse, hbl, he, ht, hf, rfl,
        .inr ⟨resolved, hsym, onTable_eq_ok.mpr ⟨_, hup, rfl⟩⟩⟩⟩

/-! ## What is found does not change -/

theorem exists_symbol?_of_binds (h : Relation.ReflTransGen Binds table table') {entry' : Symbol}
    (he : table'.symbol? symbol = some entry') (herr : entry'.isErroneous = false) :
    ∃ entry, table.symbol? symbol = some entry := by
  induction h generalizing entry' with
  | refl => exact ⟨entry', he⟩
  | tail _ hls ih =>
    obtain ⟨entry, hmiddle⟩ := hls.exists_symbol? he herr
    obtain ⟨_, hsm, hout⟩ := hls.keepsSymbols hmiddle
    cases he.symm.trans hsm
    refine ih hmiddle ?_
    rw [← Symbol.isErroneous_outline, ← hout, Symbol.isErroneous_outline, herr]

/-- Names have been bound: nodes may have other symbols, and the table is the same but for what binding names changes. -/
structure Preserves (w v : Workspace) : Prop where
  nodes : ∀ {id node}, w.tree.get? id = some node → node.kind ≠ .block →
    ∃ symbol, v.tree.get? id = some { node with symbol } ∧ (node.kind.isName = false → symbol = node.symbol)
  binds : Relation.ReflTransGen Binds w.table v.table

theorem Preserves.refl (w : Workspace) : Preserves w w := ⟨fun {_ node} h _ => ⟨node.symbol, h, fun _ => rfl⟩, .refl⟩

section Preserves

variable (hrel : rules.Reliable w.table) (h : Preserves w v) {node : Node} (hnd : w.tree.get? id = some node)
  (hbl : node.kind ≠ .block)

include h in
theorem forwardIssues_of_preserves (hwi : Within w.table found) {answer : Option SymbolId} :
    forwardIssues v.table { node with symbol := answer } found = forwardIssues w.table node found := by
  unfold forwardIssues
  cases huse : found.throughAlias with
  | none => rfl
  | some use =>
    obtain ⟨entry, he⟩ := hwi.throughAlias huse
    obtain ⟨entry', he', hout⟩ := keepsSymbols_of_binds h.binds he
    simp only [symbol_eq_ok.mpr he, symbol_eq_ok.mpr he', bind, Except.bind, Symbol.position_of_outline hout,
      Symbol.name_of_outline hout]

include hrel h hnd hbl

theorem lookUpName_of_preserves :
    lookUpName rules v id kind failure = .ok (found, issues) ↔ lookUpName rules w id kind failure = .ok (found, issues) := by
  obtain ⟨answer, hnd', _⟩ := h.nodes hnd hbl
  simp only [lookUpName_eq_ok, hnd, hnd', Option.some.injEq]
  constructor
  · rintro ⟨_, scope, forward, rfl, hsc, hf, hfwd, rfl⟩
    rw [resolveAll_of_extends hrel.declared hrel.resolvers (extends_of_binds h.binds)] at hf
    rw [forwardIssues_of_preserves h (within_resolveAll hrel.declared hrel.resolvers hf)] at hfwd
    exact ⟨node, scope, forward, rfl, hsc, hf, hfwd, rfl⟩
  · rintro ⟨_, scope, forward, rfl, hsc, hf, hfwd, rfl⟩
    refine ⟨_, scope, forward, rfl, hsc, ?_, ?_, rfl⟩
    · rw [resolveAll_of_extends hrel.declared hrel.resolvers (extends_of_binds h.binds)]
      exact hf
    · rw [forwardIssues_of_preserves h (within_resolveAll hrel.declared hrel.resolvers hf)]
      exact hfwd

theorem lookUpUse_of_preserves :
    lookUpUse rules v id = .ok (found, issues) ↔ lookUpUse rules w id = .ok (found, issues) := by
  obtain ⟨answer, hnd', hsm⟩ := h.nodes hnd hbl
  simp only [lookUpUse_eq_ok, hnd, hnd', Option.some.injEq]
  constructor
  · rintro ⟨_, use, block, entry', target, rfl, hk, huse, hsc, he', ht, hf, rfl⟩
    obtain ⟨entry, he⟩ : ∃ entry, w.table.symbol? use = some entry := by
      refine exists_symbol?_of_binds h.binds he' ?_
      obtain ⟨_, _, _, data⟩ := entry'
      cases data <;> first | rfl | nomatch ht
    obtain ⟨_, hkt, hout⟩ := keepsSymbols_of_binds h.binds he
    cases he'.symm.trans hkt
    rw [← Symbol.aliasTarget?_outline, hout, Symbol.aliasTarget?_outline] at ht
    rw [resolveAll_of_extends hrel.declared hrel.resolvers (extends_of_binds h.binds)] at hf
    have hk' : node.kind = .useDecl := hk
    exact ⟨node, use, block, entry, target, rfl, hk, (hsm (by rw [hk']; rfl)).symm.trans huse, hsc, he, ht,
      hf, rfl⟩
  · rintro ⟨_, use, block, entry, target, rfl, hk, huse, hsc, he, ht, hf, rfl⟩
    obtain ⟨entry', he', hout⟩ := keepsSymbols_of_binds h.binds he
    rw [← Symbol.aliasTarget?_outline, ← hout, Symbol.aliasTarget?_outline] at ht
    refine ⟨_, use, block, entry', target, rfl, hk, (hsm (by rw [hk]; rfl)).trans huse, hsc, he', ht, ?_, rfl⟩
    rw [resolveAll_of_extends hrel.declared hrel.resolvers (extends_of_binds h.binds)]
    exact hf

end Preserves

theorem lookUp_of_preserves (hrel : rules.Reliable w.table) (h : Preserves w v)
    (hnd : w.tree.get? o.id = some node) (hbl : node.kind ≠ .block) :
    lookUp rules v o = .ok (found, issues) ↔ lookUp rules w o = .ok (found, issues) := by
  unfold lookUp
  split
  · exact lookUpName_of_preserves hrel h hnd hbl
  · exact lookUpUse_of_preserves hrel h hnd hbl

end Workspace

end SoftTyping
