import Mathlib.Data.List.Forall2
import SoftTyping.Proofs.Analysis.Declared
import SoftTyping.Proofs.SymbolTable.Recorded

/-!
# The declarations of a program

The first pass gives every declaration of a program a symbol of its own, in the order in which it goes over the program, and
adds no other declarations to the table (`enumerates_declareAll`).
-/

namespace SoftTyping

open Step Shape

namespace Shape

mutual
/-- The constants, classes, functions and parameters that a node declares, in the order of the passes. -/
def declarations : Role → Shape → List NodeId
  | .statement, .node id kind children =>
    match kind with
    | .namespaceDecl => declarationsIn .statement children
    | .constantDecl | .classDecl => [id]
    | .functionDecl => id :: declarationsIn .part children
    | .ifStmt | .whileStmt => declarationsIn .branch children
    | _ => []
  | .part, .node id kind children =>
    match kind with
    | .parameter => [id]
    | .block => declarationsIn .statement children
    | _ => []
  | .branch, .node _ kind children =>
    match kind with
    | .block => declarationsIn .statement children
    | _ => []
  | .expression, _ => []
/-- The declarations of some nodes. -/
def declarationsIn : Role → List Shape → List NodeId
  | _, [] => []
  | role, shape :: rest => shape.declarations role ++ declarationsIn role rest
end

/-- Every node of a shape is as it should be. -/
inductive Every (P : NodeKind → List Shape → Prop) : Shape → Prop where
  | node {id : NodeId} {kind : NodeKind} {children : List Shape} :
    P kind children → (∀ child ∈ children, Every P child) → Every P (.node id kind children)

/-- A function has no parameter behind its body. -/
def ParametersFirst (kind : NodeKind) (children : List Shape) : Prop :=
  kind = .functionDecl → children.Pairwise fun first second => first.kind = .block → second.kind ≠ .parameter

variable {role inner : Role} {id : NodeId} {kind : NodeKind} {children shapes : List Shape}

theorem every_node {P : NodeKind → List Shape → Prop} :
    (node id kind children).Every P ↔ P kind children ∧ ∀ child ∈ children, child.Every P := by
  refine ⟨?_, fun ⟨hnd, hch⟩ => .node hnd hch⟩
  rintro ⟨hnd, hch⟩
  exact ⟨hnd, hch⟩

section Decidable

variable {P : NodeKind → List Shape → Prop} [hP : ∀ kind children, Decidable (P kind children)]

mutual
/-- Whether every node of a shape is as it should be. -/
def decideEvery : (shape : Shape) → Decidable (shape.Every P)
  | .node _ kind children =>
    have := decideEveryIn children
    have := hP kind children
    decidable_of_iff _ every_node.symm
/-- Whether every node of some shapes is as it should be. -/
def decideEveryIn : (shapes : List Shape) → Decidable (∀ shape ∈ shapes, shape.Every P)
  | [] => isTrue nofun
  | shape :: rest =>
    have := decideEvery shape
    have := decideEveryIn rest
    decidable_of_iff _ List.forall_mem_cons.symm
end

instance (shape : Shape) : Decidable (shape.Every P) := decideEvery shape

end Decidable

instance (kind : NodeKind) (children : List Shape) : Decidable (ParametersFirst kind children) :=
  inferInstanceAs (Decidable (_ → _))

theorem declarationsIn_eq_flatMap (role : Role) (shapes : List Shape) :
    declarationsIn role shapes = shapes.flatMap (declarations role) := by
  induction shapes with
  | nil => rfl
  | cons shape rest ih => rw [declarationsIn, List.flatMap_cons, ih]

theorem declarationsIn_expression (shapes : List Shape) : declarationsIn .expression shapes = [] := by
  rw [declarationsIn_eq_flatMap, List.flatMap_eq_nil_iff]
  rintro ⟨id, kind, children⟩ _
  rfl

theorem declarations_of_inner (h : role.inner? kind = some inner) :
    declarations role (.node id kind children) = declarationsIn inner children := by
  cases role <;> cases kind <;> cases h <;>
    first
    | rfl
    | rw [declarationsIn_expression]; rfl

theorem declarationsIn_of_passes (h : role.Passes kind children) : declarationsIn role [.node id kind children] = [] := by
  cases role with
  | statement =>
    obtain ⟨rfl, _⟩ := h
    rfl
  | part =>
    obtain ⟨hpar, hbl⟩ := h
    cases kind <;> first | rfl | exact absurd rfl hpar | exact absurd rfl hbl
  | branch | expression => exact absurd h not_false

theorem has_of_mem_declarations {shape : Shape} (h : id ∈ shape.declarations role) : shape.Has id := by
  induction shape using induction generalizing role with
  | node x kind children ih =>
    have hch : ∀ {inner}, id ∈ declarationsIn inner children → (node x kind children).Has id := by
      intro inner hid
      rw [declarationsIn_eq_flatMap] at hid
      obtain ⟨child, hcd, hid⟩ := List.mem_flatMap.mp hid
      exact .inside hcd (ih child hcd hid)
    have hsingle : id ∈ [x] → (node x kind children).Has id := fun hid => List.mem_singleton.mp hid ▸ .here
    cases role with
    | expression => nomatch h
    | statement =>
      cases kind <;> simp only [declarations] at h
      case namespaceDecl | ifStmt | whileStmt => exact hch h
      case constantDecl | classDecl => exact hsingle h
      case functionDecl =>
        rcases List.mem_cons.mp h with rfl | h
        · exact .here
        · exact hch h
      all_goals nomatch h
    | part =>
      cases kind <;> simp only [declarations] at h
      case parameter => exact hsingle h
      case block => exact hch h
      all_goals nomatch h
    | branch =>
      cases kind <;> simp only [declarations] at h
      case block => exact hch h
      all_goals nomatch h

end Shape

/-- The kind of the identifiers that name what a node of some kind declares. -/
def NodeKind.declares? : NodeKind → Option IdentifierKind
  | .constantDecl => some .const
  | .classDecl => some .type
  | .functionDecl => some .method
  | .parameter => some .var
  | _ => none

namespace Workspace

open SymbolTable

variable {w w' w₁ : Workspace} {id : NodeId} {scope opened : ScopeId} {symbol : SymbolId} {u : Unit} {P : NodeId → Prop}
  {nodes nodes' : List NodeId} {role inner : Role} {kind : NodeKind} {shape : Shape} {shapes children rest : List Shape}
  {tidy : Prop}

/-- A node has a symbol that is declared as the node says. -/
def DeclaredBy (w : Workspace) (id : NodeId) (symbol : SymbolId) : Prop :=
  ∃ node entry kind, w.tree.get? id = some node ∧ node.symbol = some symbol ∧ w.table.symbol? symbol = some entry ∧
    entry.name = node.text ∧ entry.position = node.position ∧ node.kind.declares? = some kind ∧ entry.declaredAs? = some kind

theorem DeclaredBy.mono (h : w.DeclaredBy id symbol) (hnd : w'.tree.get? id = w.tree.get? id)
    (hkp : w.table.KeepsSymbols w'.table) : w'.DeclaredBy id symbol := by
  obtain ⟨node, entry, kind, hget, hsym, he, hnm, hpsn, hk, hdec⟩ := h
  obtain ⟨entry', he', hout⟩ := hkp he
  refine ⟨node, entry', kind, hnd.trans hget, hsym, he', (Symbol.name_of_outline hout).trans hnm,
    (Symbol.position_of_outline hout).trans hpsn, hk, ?_⟩
  rw [← Symbol.declaredAs?_outline, hout, Symbol.declaredAs?_outline, hdec]

/-- A step gives some nodes the declarations that it adds to the table, in their order. -/
def Enumerates (tidy : Prop) (nodes : List NodeId) (w w' : Workspace) : Prop :=
  ∃ ids, List.Forall₂ w'.DeclaredBy nodes ids ∧ Records tidy ids w.table w'.table

theorem Enumerates.append (h : Enumerates tidy nodes w w₁) (h' : Enumerates tidy nodes' w₁ w') (htch : Touches P w₁ w')
    (hap : ∀ id ∈ nodes, ¬ P id) : Enumerates tidy (nodes ++ nodes') w w' := by
  obtain ⟨ids, hnds, hrec⟩ := h
  obtain ⟨ids', hnds', hrec'⟩ := h'
  refine ⟨ids ++ ids', List.rel_append ?_ hnds', hrec.trans hrec'⟩
  refine List.Forall₂.imp ?_ ((List.forall₂_and_left _ _).mpr ⟨hap, hnds⟩)
  rintro id symbol ⟨hid, hdec⟩
  exact hdec.mono (htch.frame id hid) hrec'.keeps

theorem Enumerates.of_table (h : Enumerates tidy [] w w₁) (htb : w'.table = w₁.table) : Enumerates tidy [] w w' := by
  obtain ⟨_, hnil, hrec⟩ := h
  cases hnil
  exact ⟨[], .nil, htb ▸ hrec⟩

theorem enumerates_of_table (h : w'.table = w.table) : Enumerates tidy [] w w' :=
  ⟨[], .nil, by rw [h]; exact .refl w.table⟩

/-! ## Steps -/

theorem enumerates_place (h : place id scope w = .ok u w') : Enumerates tidy [] w w' :=
  enumerates_of_table (place_eq_ok h).1

theorem records_declareFor {entry : Symbol} {node : Node} {declared : IdentifierKind}
    (h : declareFor id scope entry w = .ok symbol w') (hnd : w.tree.get? id = some node) (hnm : entry.name = node.text)
    (hpsn : entry.position = node.position) (hk : node.kind.declares? = some declared)
    (hdec : entry.declaredAs? = some declared) (hop : scope.IsOpen) (hlabel : entry.label ≠ "operator")
    (hlk : tidy → declared = .var → ∀ home, w.table.variableScope scope = .ok home → w.table.LacksLocals home) :
    Records tidy [symbol] w.table w'.table ∧ w'.DeclaredBy id symbol := by
  obtain ⟨table, hdef, hann⟩ := declareFor_eq_ok h
  obtain ⟨htb, _, same, hsm, hannotated⟩ := annotate_eq_ok hann
  cases hnd.symm.trans hsm
  obtain ⟨home, hf⟩ := exists_symbol?_define hdef
  have hrec := records_define hdef hop hlabel fun htidy hvar => hlk htidy (Option.some.inj (hdec.symm.trans hvar))
  rw [hdec] at hrec
  rw [DeclaredBy, htb]
  exact ⟨hrec, _, _, declared, hannotated, rfl, hf, hnm, hpsn, hk, hdec⟩

theorem enumerates_declareConstant (h : declareConstant id scope w = .ok symbol w') (hop : scope.IsOpen) :
    Enumerates tidy [id] w w' := by
  simp only [declareConstant, bind_eq_ok, askTree_eq_ok, get_eq_ok, Tree.nodeOfKind_eq_ok] at h
  obtain ⟨node, _, ⟨⟨hnd, hk⟩, rfl⟩, _, _, ⟨rfl, rfl⟩, h⟩ := h
  obtain ⟨hrec, hdec⟩ := records_declareFor h hnd rfl rfl (by rw [hk]; rfl) rfl hop
    (show "constant" ≠ "operator" by decide) (by simp)
  exact ⟨[symbol], .cons hdec .nil, hrec⟩

theorem enumerates_declareClass (h : declareClass id scope w = .ok symbol w') (hop : scope.IsOpen) :
    Enumerates tidy [id] w w' := by
  simp only [declareClass, bind_eq_ok, askTree_eq_ok, askTable_eq_ok, Tree.nodeOfKind_eq_ok] at h
  obtain ⟨node, _, ⟨⟨hnd, hk⟩, rfl⟩, _, _, ⟨_, rfl⟩, h⟩ := h
  obtain ⟨hrec, hdec⟩ := records_declareFor h hnd rfl rfl (by rw [hk]; rfl) rfl hop
    (show "type" ≠ "operator" by decide) (by simp)
  exact ⟨[symbol], .cons hdec .nil, hrec⟩

theorem enumerates_declareAlias (h : declareAlias id scope w = .ok symbol w') : Enumerates tidy [] w w' := by
  obtain ⟨_, _, _, hal, hdef, hann⟩ := declareAlias_eq_ok h
  refine ⟨[], .nil, ?_⟩
  rw [(annotate_eq_ok hann).1]
  exact records_defineUse hdef hal

theorem enumerates_declareVariable {node : Node} (hnd : w.tree.get? id = some node) (hsc : node.scope = some scope)
    (hop : scope.IsOpen) (hasd : w.table.Aside) (h : declareVariable id w = .ok symbol w') : Enumerates tidy [] w w' := by
  obtain ⟨_, _, owner, table, hnd', hsc', hwnr, htb, hup⟩ := declareVariable_eq_ok h
  cases hnd.symm.trans hnd'
  cases hsc.symm.trans hsc'
  obtain ⟨_, rfl⟩ := updateNode_eq_ok.mp hup
  rcases htb with rfl | ⟨_, _, _, hdef⟩
  · exact enumerates_of_table rfl
  · obtain ⟨⟨_, entry⟩, hhm, hwnr⟩ := Refusal.bind_eq_ok.mp hwnr
    cases hwnr
    have hop' := (of_home hop hasd.enclosing hhm).1
    exact ⟨[], .nil, records_define hdef hop' (show "variable" ≠ "operator" by decide) (by rintro _ ⟨⟩)⟩

theorem enumerates_declareParameter (hop : scope.IsOpen) (hrt : w.table.Rooted) (hlk : tidy → w.table.LacksLocals scope)
    (h : declareParameter id scope w = .ok symbol w') :
    Enumerates tidy [id] w w' ∧ (w.table.LacksLocals scope → w'.table.LacksLocals scope) := by
  obtain ⟨entry, method, node, w₁, table, he, hk, hnd, hndKind, hdcl, hup, rfl⟩ := declareParameter_eq_ok h
  have hhm : tidy → ∀ home, w.table.variableScope scope = .ok home → w.table.LacksLocals home := by
    intro htidy home hhm
    rw [variableScope, hrt.home_self he (by rw [Scope.isConditional, hk])] at hhm
    cases hhm
    exact hlk htidy
  obtain ⟨hrec, hdec⟩ := records_declareFor hdcl hnd rfl rfl (by rw [hndKind]; rfl) rfl hop
    (show "parameter" ≠ "operator" by decide) fun htidy _ => hhm htidy
  have hmap : Records tidy [] w₁.table table := records_mapMethod hup fun _ => ⟨rfl, rfl⟩
  refine ⟨⟨[symbol], .cons (hdec.mono rfl hmap.keeps) .nil, hrec.trans hmap⟩, fun hlk => LacksLocals.mapMethod ?_ hup⟩
  obtain ⟨_, hdef, hann⟩ := declareFor_eq_ok hdcl
  rw [(annotate_eq_ok hann).1]
  refine hlk.define hdef ?_
  rintro ⟨_, ⟨⟩, hloc⟩
  cases hloc

theorem enumerates_openNamespace (hasd : w.table.Aside) (h : openNamespace id w = .ok opened w') :
    Enumerates tidy [] w w' ∧ opened.IsOpen := by
  obtain ⟨_, storage, table₁, _, _, _, hsto, hbl, hup⟩ := openNamespace_eq_ok h
  obtain ⟨_, rfl⟩ := updateNode_eq_ok.mp hup
  have hfst : Records tidy [] w.table table₁ := records_namespaceOf hsto
  have hasd₁ := hfst.aside hasd
  have hop : storage.IsOpen := hasd₁.namespaces (findNamespace?_namespaceOf hsto)
  refine ⟨⟨[], .nil, hfst.trans (records_addScope hbl hop fun _ _ _ hk => ?_)⟩, ?_⟩
  · cases hk
    exact hop
  · exact hasd₁.isOpen_addScope hbl

theorem enumerates_openBranch (hasd : w.table.Aside) (hop : scope.IsOpen) (h : openBranch id scope w = .ok opened w') :
    Enumerates tidy [] w w' ∧ opened.IsOpen := by
  obtain ⟨_, hbl, hup⟩ := openBranch_eq_ok h
  obtain ⟨_, rfl⟩ := updateNode_eq_ok.mp hup
  exact ⟨⟨[], .nil, records_addScope hbl hop (by simp)⟩, hasd.isOpen_addScope hbl⟩

theorem enumerates_declareFunction (hasd : w.table.Aside) (hhoused : w.table.Housed) (hop : scope.IsOpen)
    (h : declareFunction id scope w = .ok opened w') :
    Enumerates tidy [id] w w' ∧ opened.IsOpen ∧ w'.table.LacksLocals opened := by
  obtain ⟨node, entry, method, table₁, table₂, table₃, hnd, hk, hnm, hpsn, ⟨_, hdt⟩, hmth, hinn, hup,
    hann⟩ := declareFunction_eq_ok h
  obtain ⟨htb, _, same, hsm, hannotated⟩ := annotate_eq_ok hann
  have hdecAs : entry.declaredAs? = some .method := by rw [Symbol.declaredAs?, hdt]
  have hdef := records_define hmth hop (by simp [Symbol.label, hdt]) fun (_ : tidy) => by simp [hdecAs]
  rw [hdecAs] at hdef
  have hadd : Records tidy [] table₁ table₂ := records_addScope hinn hop (by simp)
  have hmap : Records tidy [] table₂ table₃ := records_mapMethod hup fun _ => ⟨rfl, rfl⟩
  have hix : opened.index = table₁.scopes.size := (index_addScope hinn).1
  have hlk : table₂.LacksLocals opened := by
    intro other found hf hsc
    have hkp := addScope_keeps hinn
    rw [symbol?_of_symbols hkp.1.generation hkp.2.2] at hf
    obtain ⟨_, he, _⟩ := hdef.housed hhoused hf hsc
    have hlt := lt_size_of_scope? he
    omega
  have hdec : w'.DeclaredBy id method := by
    cases hnd.symm.trans hsm
    obtain ⟨home, hf⟩ := exists_symbol?_define hmth
    obtain ⟨found, he, hout⟩ := (hadd.keeps.trans hmap.keeps) hf
    refine ⟨_, found, .method, hannotated, rfl, htb ▸ he, (Symbol.name_of_outline hout).trans hnm,
      (Symbol.position_of_outline hout).trans hpsn, by rw [hk]; rfl, ?_⟩
    rw [← Symbol.declaredAs?_outline, hout, Symbol.declaredAs?_outline]
    exact hdecAs
  rw [Enumerates, htb]
  exact ⟨⟨[method], .cons hdec .nil, (hdef.trans hadd).trans hmap⟩, (hdef.aside hasd).isOpen_addScope hinn, hlk.mapMethod hup⟩

/-! ## The pass -/

/-- What the pass needs of a table. -/
structure Ground (table : SymbolTable) : Prop where
  rooted : table.Rooted
  aside : table.Aside
  housed : table.Housed

theorem Ground.mono {ids : List SymbolId} (h : Ground w.table) (htch : Touches P w w')
    (hrec : Records tidy ids w.table w'.table) : Ground w'.table :=
  ⟨keeps_of_changes htch.declares Declares.rooted h.rooted, hrec.aside h.aside, hrec.housed h.housed⟩

theorem Declaring.table_expression (h : Declaring scope .expression shapes w w') : w'.table = w.table := by
  generalize hro : Role.expression = role at h
  induction h with
  | nil => rfl
  | cons _ _ ih ih' => exact (ih' hro).trans (ih hro)
  | node hsts _ ih =>
    subst hro
    cases hsts with
    | within hinn hplc =>
      cases hinn
      exact (ih rfl).trans (place_eq_ok hplc).1
    | passed hps => exact absurd hps not_false
  | _ => nomatch hro

theorem table_placeEach (h : placeEach scope shapes w = .ok u w') : w'.table = w.table := by
  induction shapes generalizing w with
  | nil => rw [(pure_eq_ok.mp h).2]
  | cons shape rest ih =>
    simp only [placeEach, bind_eq_ok] at h
    obtain ⟨_, _, hfst, hrs⟩ := h
    exact (ih hrs).trans (place_eq_ok hfst).1

/-- What the first step at a node declares, and how the scope is in which the pass goes on. -/
structure Begun (tidy : Prop) (role inner : Role) (shape : Shape) (scope opened : ScopeId) (visited : List Shape)
    (w w' : Workspace) : Prop where
  own : ∃ nodes, (∀ x ∈ nodes, x = shape.id) ∧ Enumerates tidy nodes w w' ∧
    Shape.declarationsIn role [shape] = nodes ++ Shape.declarationsIn inner visited
  isOpen : opened.IsOpen
  lacks : inner = .part → w'.table.LacksLocals opened ∧ shape.kind = .functionDecl
  kept : role = .part → shape.kind ≠ .block → inner = .expression ∧ (w.table.LacksLocals scope → w'.table.LacksLocals scope)

theorem Starts.begun {visited : List Shape} (h : Starts scope role shape inner opened visited w w') (hgro : Ground w.table)
    (hop : scope.IsOpen) (hpts : tidy → role = .part → shape.kind = .parameter → w.table.LacksLocals scope) :
    Begun tidy role inner shape scope opened visited w w' := by
  cases h with
  | @within _ _ _ kind _ _ _ hinn hplc =>
    refine ⟨⟨[], nofun, enumerates_place hplc, ?_⟩, hop, fun hro => absurd hro (Role.inner?_ne_part hinn), ?_⟩
    · rw [Shape.declarationsIn, Shape.declarations_of_inner hinn, Shape.declarationsIn, List.append_nil, List.nil_append]
    · rintro rfl hk
      cases kind <;> first | exact absurd rfl hk | nomatch hinn
  | namespaceBlock hns =>
    obtain ⟨hnothing, hop⟩ := enumerates_openNamespace hgro.aside hns
    exact ⟨⟨[], nofun, hnothing, by simp [Shape.declarationsIn, Shape.declarations]⟩, hop, nofun, nofun⟩
  | function hfn =>
    obtain ⟨hdec, hop, hlk⟩ := enumerates_declareFunction hgro.aside hgro.housed hop hfn
    refine ⟨⟨[_], fun _ => List.mem_singleton.mp, hdec, ?_⟩, hop, fun _ => ⟨hlk, rfl⟩, nofun⟩
    simp [Shape.declarationsIn, Shape.declarations, Shape.id]
  | branch hbr =>
    obtain ⟨hnothing, hop⟩ := enumerates_openBranch hgro.aside hop hbr
    exact ⟨⟨[], nofun, hnothing, by simp [Shape.declarationsIn, Shape.declarations]⟩, hop, nofun, nofun⟩
  | constant hconstant =>
    refine ⟨⟨[_], fun _ => List.mem_singleton.mp, enumerates_declareConstant hconstant hop, ?_⟩, hop, nofun, nofun⟩
    rw [Shape.declarationsIn_expression]
    rfl
  | type htp =>
    exact ⟨⟨[_], fun _ => List.mem_singleton.mp, enumerates_declareClass htp hop, rfl⟩, hop, nofun, nofun⟩
  | parameter hpar =>
    obtain ⟨hdec, hlk⟩ := enumerates_declareParameter hop hgro.rooted (hpts · rfl rfl) hpar
    refine ⟨⟨[_], fun _ => List.mem_singleton.mp, hdec, ?_⟩, hop, nofun, fun _ _ => ⟨rfl, hlk⟩⟩
    rw [Shape.declarationsIn_expression]
    rfl
  | passed hps hplc =>
    refine ⟨⟨[], nofun, enumerates_place hplc, Shape.declarationsIn_of_passes hps⟩, hop, nofun, fun _ _ => ⟨rfl, ?_⟩⟩
    rw [(place_eq_ok hplc).1]
    exact id

/-- Wherever the pass goes, the declarations are enumerated; a parameter has to stand before the body. -/
theorem Declaring.enumerates (h : Declaring scope role shapes w w') (hwf : w.tree.WellFormed) (hap : w.tree.Apart shapes)
    (hgro : Ground w.table) (hop : scope.IsOpen) (hevery : tidy → ∀ shape ∈ shapes, shape.Every ParametersFirst)
    (hpts : tidy → role = .part → (∃ shape ∈ shapes, shape.kind = .parameter) → w.table.LacksLocals scope)
    (hord : tidy → role = .part → shapes.Pairwise fun first second => first.kind = .block → second.kind ≠ .parameter) :
    Enumerates tidy (declarationsIn role shapes) w w' ∧ (role = .part → (∀ shape ∈ shapes, shape.kind ≠ .block) →
      w.table.LacksLocals scope → w'.table.LacksLocals scope) := by
  induction h with
  | nil => exact ⟨enumerates_of_table rfl, fun _ _ => id⟩
  | @cons scope role shape rest w w₁ w' hfst hrs ih ih' =>
    have hhd := hap.sublist (List.singleton_sublist.mpr List.mem_cons_self)
    have htch := (hfst.declared hwf hhd).touches
    have hap₁ := htch.tree.apart hap
    have hwf₁ := htch.tree.wellFormed hwf
    obtain ⟨⟨ids, hnds, hrec⟩, hlk⟩ := ih hwf hhd hgro hop
      (fun htidy => by simpa using (List.forall_mem_cons.mp (hevery htidy)).1)
      (fun htidy hro ⟨other, hoth, hk⟩ => hpts htidy hro ⟨other, List.mem_cons.mpr (.inl (List.mem_singleton.mp hoth)), hk⟩)
      (fun _ _ => List.pairwise_singleton _ _)
    have hlk₁ : tidy → role = .part → (∃ other ∈ rest, other.kind = .parameter) → w₁.table.LacksLocals scope := by
      rintro htidy hro ⟨other, hoth, hk⟩
      -- A parameter follows, so that this was not the body.
      have hbl : shape.kind ≠ .block :=
        fun hbl => (List.pairwise_cons.mp (hord htidy hro)).1 other hoth hbl hk
      exact hlk hro (by simpa using hbl) (hpts htidy hro ⟨other, List.mem_cons_of_mem _ hoth, hk⟩)
    obtain ⟨hsnd, hlk'⟩ := ih' hwf₁ hap₁.tail (hgro.mono htch hrec) hop
      (fun htidy => (List.forall_mem_cons.mp (hevery htidy)).2) hlk₁ fun htidy hro => (List.pairwise_cons.mp (hord htidy hro)).2
    have hspl : declarationsIn role (shape :: rest) =
        declarationsIn role [shape] ++ declarationsIn role rest := by
      simp [declarationsIn]
    rw [hspl]
    refine ⟨.append ⟨ids, hnds, hrec⟩ hsnd (hrs.declared hwf₁ hap₁.tail).touches ?_, fun hro hblocks hlk₀ => ?_⟩
    · rintro x hx ⟨other, hoth, hbel⟩
      rw [declarationsIn, declarationsIn, List.append_nil] at hx
      have hbel' := (hap₁.isShape shape List.mem_cons_self).below_of_has (has_of_mem_declarations hx)
      exact (List.pairwise_cons.mp hap₁.disjoint).1 other hoth x hbel' hbel
    · obtain ⟨hbl, hblocks⟩ := List.forall_mem_cons.mp hblocks
      exact hlk' hro hblocks (hlk hro (by simpa using hbl) hlk₀)
  | @node scope opened role inner shape visited w w₁ w' hsts hrun ih =>
    obtain ⟨id, kind, children⟩ := shape
    have hsh := hap.isShape _ (List.mem_singleton_self _)
    have hevery' := fun htidy => every_node.mp (hevery htidy _ (List.mem_singleton_self _))
    have htch := hsts.touches
    have hwf₁ := htch.tree.wellFormed hwf
    have hap₁ := (htch.tree.apart (hsh.apart hwf)).sublist hsts.sublist
    have hbegun := hsts.begun hgro hop fun htidy hro hk => hpts htidy hro ⟨_, List.mem_singleton_self _, hk⟩
    obtain ⟨nodes, hnds, ⟨ids, hids, hrec⟩, hdeclarations⟩ := hbegun.own
    obtain ⟨hrs, _⟩ := ih hwf₁ hap₁ (hgro.mono htch hrec) hbegun.isOpen
      (fun htidy child hcd => (hevery' htidy).2 child (hsts.sublist.subset hcd)) (fun _ hro _ => (hbegun.lacks hro).1)
      fun htidy hro => ((hevery' htidy).1 (hbegun.lacks hro).2).sublist hsts.sublist
    rw [hdeclarations]
    refine ⟨.append ⟨ids, hids, hrec⟩ hrs (hrun.declared hwf₁ hap₁).touches fun x hx => ?_, fun hro hblocks hlk => ?_⟩
    · rintro ⟨other, hoth, hbel⟩
      refine (htch.tree.isShape hsh).not_within hwf₁ ⟨other, hsts.sublist.subset hoth, ?_⟩
      rwa [hnds x hx] at hbel
    · obtain ⟨rfl, hkt⟩ := hbegun.kept hro (hblocks _ (List.mem_singleton_self _))
      rw [hrun.table_expression]
      exact hkt hlk
  | use hdcl hplc => exact ⟨(enumerates_declareAlias hdcl).of_table (table_placeEach hplc), nofun⟩
  | assignment hplc hvl ht hdcl _ =>
    obtain ⟨htb, _, _, _, hpcd⟩ := place_eq_ok ht
    rw [hvl.table_expression, (place_eq_ok hplc).1] at htb
    obtain ⟨ids, hids, hrec⟩ := enumerates_declareVariable hpcd rfl hop (htb ▸ hgro.aside) hdcl
    exact ⟨⟨ids, hids, htb ▸ hrec⟩, nofun⟩

/-- The first pass enumerates the declarations of a program. -/
theorem enumerates_declareAll (hwf : w.tree.WellFormed) (hgro : Ground w.table) (hop : w.table.defaultNamespace.IsOpen)
    (hevery : tidy → ∀ shape ∈ w.statements, shape.Every ParametersFirst) (h : declareAll w = .ok u w') :
    Enumerates tidy (declarationsIn .statement w.statements) w w' := by
  simp only [declareAll, bind_eq_ok, get_eq_ok] at h
  obtain ⟨_, _, ⟨rfl, rfl⟩, h⟩ := h
  exact ((declaring_declareIn .statement h).enumerates hwf (apart_statements hwf) hgro hop hevery (by simp) (by simp)).1

end Workspace

end SoftTyping
