import SoftTyping.Proofs.Analysis.Analysed
import SoftTyping.Proofs.SymbolTable.Lookups

/-!
# What an alias stands for

An alias stands for an absolute name. When a use declaration is bound, this name is asked of all resolvers; a type that is
written as the alias asks only for what the program declares under it. So an alias of a type that the program declares
leads every identifier to the type to which its use declaration was bound, and an identifier that is written as any other
alias is looked up as if there were no alias (`resolveAll_alias`): an alias of a built-in type leads nowhere
(`resolveAll_alias_of_builtin`).
-/

namespace SoftTyping

open Refusal Resolver Relation

theorem NameForm.of_makeAbsolute (name : String) : NameForm.of (makeAbsolute name) = .absolute := by
  unfold makeAbsolute
  split
  · assumption
  · simp [NameForm.of, separator]

theorem Symbol.aliasTarget?_outline (symbol : Symbol) : symbol.outline.aliasTarget? = symbol.aliasTarget? := by
  obtain ⟨_, _, _, data⟩ := symbol
  cases data <;> rfl

namespace SymbolTable

variable {table table' : SymbolTable} {scope block : ScopeId} {symbol : Symbol} {id : SymbolId} {key name : String}
  {libraries : List Library} {generation : Generation}

/-! ## Aliases -/

/-- A symbol is an alias of an absolute name. -/
def IsAlias (table : SymbolTable) (id : SymbolId) : Prop :=
  ∃ symbol target, table.symbol? id = some symbol ∧ symbol.aliasTarget? = some target ∧ NameForm.of target = .absolute

theorem IsAlias.mono (h : table.IsAlias id) (hkp : table.KeepsSymbols table') : table'.IsAlias id := by
  obtain ⟨symbol, target, hsym, ht, hform⟩ := h
  obtain ⟨symbol', hsym', hout⟩ := hkp hsym
  refine ⟨symbol', target, hsym', ?_, hform⟩
  rw [← Symbol.aliasTarget?_outline, hout, Symbol.aliasTarget?_outline, ht]

/-- What scopes have as aliases are aliases of absolute names. -/
def Aliased (table : SymbolTable) : Prop := ∀ ⦃block key id⦄, id ∈ table.usesOf block key → table.IsAlias id

theorem usesOf_addScope {kind : ScopeKind} {inner outer : ScopeId} (h : addScope name outer kind table = .ok inner table')
    (hk : ∀ storage uses, kind = .namespaceBlock storage uses → uses = ∅) :
    table'.usesOf block key = table.usesOf block key := by
  obtain ⟨_, rfl⟩ := addScope_eq_ok h
  refine listOf_of_push rfl rfl ?_
  cases kind with
  | namespaceBlock storage uses => exact hk storage uses rfl
  | _ => rfl

theorem usesOf_namespaceOf {path : String} (h : namespaceOf path table = .ok scope table') :
    table'.usesOf block key = table.usesOf block key := by
  obtain ⟨_, rfl⟩ | ⟨_, _, rfl⟩ := namespaceOf_eq_ok h
  · rfl
  · exact listOf_of_push rfl rfl rfl

/-! ## Tables of a program -/

theorem usesOf_withLibraries (h : withLibraries generation libraries = .ok table) : table.usesOf block key = [] := by
  have hequips := equips_withLibraries h
  clear h
  induction hequips with
  | refl =>
    unfold usesOf listOf scope?
    split
    · match hix : block.index with
      | 0 | 1 | 2 => rfl
      | _ + 3 => simp [new]
    · rfl
  | tail _ hls ih =>
    cases hls with
    | define hdef _ => rw [usesOf_define hdef, ih]
    | update hup _ => rw [usesOf_updateSymbol hup, ih]

theorem Declares.aliased (hdcs : table.Declares table') (h : table.Aliased) : table'.Aliased := by
  intro block key id hid
  have hmono : ∀ {id}, id ∈ table.usesOf block key → table'.IsAlias id :=
    fun hid => (h hid).mono hdcs.keepsSymbols
  cases hdcs with
  | define _ hdef => exact hmono (usesOf_define hdef ▸ hid)
  | @defineUse _ symbol target _ _ hal hdef =>
    rcases mem_usesOf_defineUse hdef hid with hold | ⟨rfl, _⟩
    · exact hmono hold
    · obtain ⟨rfl, _, _, _, _, _, rfl⟩ := defineUse_eq_ok hdef
      refine ⟨_, makeAbsolute target, (by simp [symbol?]; rfl), ?_, NameForm.of_makeAbsolute target⟩
      simp only [Symbol.aliasTarget?, hal]
  | namespaceOf hns => exact hmono (usesOf_namespaceOf hns ▸ hid)
  | openNamespace _ hadd =>
    refine hmono (usesOf_addScope hadd ?_ ▸ hid)
    rintro _ _ ⟨⟩
    rfl
  | openBranch hadd => exact hmono (usesOf_addScope hadd (by simp) ▸ hid)
  | function _ hdef hadd hup =>
    rw [usesOf_updateSymbol hup, usesOf_addScope hadd (by simp), usesOf_define hdef] at hid
    exact hmono hid
  | parameter _ _ _ hdef hup =>
    rw [usesOf_updateSymbol hup, usesOf_define hdef] at hid
    exact hmono hid

/-- The tables of a program, while its names are bound. -/
structure IsDeclared (table : SymbolTable) : Prop where
  owned : table.Owned
  aliased : table.Aliased

theorem isDeclared_of_declares {start : SymbolTable}
    (hlib : withLibraries generation libraries = .ok start) (h : ReflTransGen Declares start table) :
    table.IsDeclared := by
  refine ⟨keeps_of_changes h Declares.owned (owned_withLibraries hlib), keeps_of_changes h Declares.aliased ?_⟩
  intro block key id hid
  rw [usesOf_withLibraries hlib] at hid
  nomatch hid

theorem mem_usesOf_of_useNamed? (h : table.useNamed? block name = .ok (some id)) :
    id ∈ table.usesOf block (Text.lowerCase name) := by
  obtain ⟨ids, hids, hhd⟩ := bind_eq_ok.mp h
  obtain ⟨entry, he, hids⟩ := bind_eq_ok.mp hids
  have hmem : id ∈ ids := List.mem_of_head? (Except.ok.inj hhd)
  rw [usesOf, listOf, scope_eq_ok.mp he, Option.bind_some]
  cases hk : entry.kind with
  | namespaceBlock storage uses =>
    simp only [hk] at hids
    cases hids
    rwa [Scope.uses, hk]
  | _ =>
    simp only [hk] at hids
    cases hids
    cases hmem

/-- The namespace of a name's path declares a type of its last segment. -/
def DeclaresAs (table : SymbolTable) (rule : CaseRule) (name : String) (id : SymbolId) : Prop :=
  ∃ path last storage, splitLast? name = some (path, last) ∧ table.findNamespace? path = some storage ∧
    table.find? storage last rule IdentifierKind.type.accepts = .ok (some id)

end SymbolTable

/-! ## Asking resolvers -/

namespace Resolver

open SymbolTable

variable {table table' : SymbolTable} {identifier : Identifier} {block : ScopeId} {use : SymbolId} {entry : Symbol}
  {target name : String} {found : Resolution} {resolver : Resolver} {rest : List Resolver}

theorem resolve_of_resolveAll_cons (h : resolveAll (resolver :: rest) table identifier = .ok found) :
    ∃ first, resolver.resolve table identifier = .ok first ∧ (first.symbol.isSome = true → found = first) := by
  obtain ⟨first, hfst, h⟩ := bind_eq_ok.mp h
  refine ⟨first, hfst, fun hso => ?_⟩
  rw [if_pos hso] at h
  exact (Except.ok.inj h).symm

theorem resolve_user_of_absolute (h : identifier.form = .absolute) :
    user.resolve table identifier = userAbsolute table identifier identifier.name := by
  simp only [user, Places.find, h]

theorem userAbsolute_eq_ok (hk : identifier.kind = .type) (h : userAbsolute table identifier name = .ok found) :
    (found = .nothing ∧ ∀ id, ¬ table.DeclaresAs identifier.rule name id) ∨
      ∃ id, found = { symbol := some id } ∧ table.DeclaresAs identifier.rule name id := by
  unfold userAbsolute at h
  split at h
  · next hspl =>
    cases h
    refine .inl ⟨rfl, ?_⟩
    rintro id ⟨path, last, _, hspl', _⟩
    rw [hspl] at hspl'
    nomatch hspl'
  · next path last hspl =>
    split at h
    · next hns =>
      cases h
      refine .inl ⟨rfl, ?_⟩
      rintro id ⟨_, _, _, hspl', hns', _⟩
      cases hspl.symm.trans hspl'
      rw [hns] at hns'
      nomatch hns'
    · next storage hns =>
      obtain ⟨first, hfst, h⟩ := bind_eq_ok.mp h
      rw [hk] at hfst
      cases h
      cases first with
      | none =>
        refine .inl ⟨rfl, ?_⟩
        rintro id ⟨_, _, _, hspl', hns', hfind⟩
        cases hspl.symm.trans hspl'
        cases hns.symm.trans hns'
        rw [hfst] at hfind
        nomatch hfind
      | some id => exact .inr ⟨id, rfl, path, last, storage, hspl, hns, hfst⟩

theorem userAbsolute_of_extends {other : Identifier} (hwn : table.Owned) (h : table.Extends table')
    (hk : other.kind = identifier.kind) (hrl : other.rule = identifier.rule) :
    userAbsolute table' other name = userAbsolute table identifier name := by
  have hnss : table'.frame.namespaces = table.frame.namespaces := congrArg SymbolTable.namespaces h.frame
  change table'.namespaces = table.namespaces at hnss
  unfold userAbsolute findNamespace? lookup
  rw [hnss, hk, hrl]
  split
  · rfl
  · split
    · rfl
    · rw [find?_of_extends hwn h (accepts_outline _)]

/-- A type that is written as an alias, where no type of this name is declared, is what the alias stands for among the
declarations of the program. -/
theorem resolve_user_of_alias (hk : identifier.kind = .type) (hform : identifier.form = .unqualified)
    (hbl : table.enclosingNamespace identifier.scope = .ok block)
    (hno : table.find? block identifier.name identifier.rule IdentifierKind.type.accepts = .ok none)
    (huse : table.useNamed? block identifier.name = .ok (some use)) (he : table.symbol? use = some entry)
    (ht : entry.aliasTarget? = some target) (hf : userAbsolute table identifier target = .ok found) :
    user.resolve table identifier = .ok (if found.symbol.isSome then
      ⟨found.symbol, some use, identifier.position.isBefore entry.position⟩ else .nothing) := by
  have hloc : userLocal table identifier =
      .ok ⟨found.symbol, some use, identifier.position.isBefore entry.position⟩ := by
    have hlookup : lookup table identifier block identifier.name = .ok .nothing := by
      rw [lookup, hk, hno]
      rfl
    have hthrough : throughAlias table identifier use none =
        .ok ⟨found.symbol, some use, identifier.position.isBefore entry.position⟩ := by
      rw [throughAlias, symbol_eq_ok.mpr he]
      simp only [bind, Except.bind, ht, hf]
    rw [userLocal, if_neg (by rw [hk]; nofun), hbl]
    simp only [bind, Except.bind, hlookup, hk, huse]
    exact hthrough
  have hfallback : userFallback table identifier = .ok .nothing := by
    rw [userFallback, if_pos hk]
  simp only [user, Places.find, hform, hloc, hfallback, bind, Except.bind]
  split <;> rfl

end Resolver

/-! ## Use declarations and identifiers -/

/-- How the letters of the names of types are compared. -/
def NameRules.typeRule (rules : NameRules) : CaseRule :=
  if rules.caseInsensitiveTypes then .insensitive else .sensitive

namespace Workspace

open SymbolTable

variable {rules : NameRules} {w w₁ v : Workspace} {table : SymbolTable} {node : NodeId} {block : ScopeId}
  {use type : SymbolId} {entry : Symbol} {target : String} {identifier : Identifier} {generation : Generation}
  {libraries : List Library} {extra : List Resolver}

/-- A use declaration is bound to a type, and its alias is the first one of its name in its namespace block. -/
structure BindsAlias (rules : NameRules) (v : Workspace) (node : NodeId) (block : ScopeId) (use : SymbolId) (entry : Symbol)
    (target : String) (type : SymbolId) : Prop where
  scopeOf : v.tree.scopeOf node = .ok block
  symbolOf : v.tree.symbolOf node = .ok use
  symbol : v.table.symbol? use = some entry
  aliasTarget : entry.aliasTarget? = some target
  first : v.table.useNamed? block entry.name = .ok (some use)
  bound : ∃ v', bindAlias rules node v = .ok (some type) v'

/-- An identifier of a type is written as an alias of the namespace block in which it occurs, and the namespace declares no
type of this name. -/
structure WrittenAs (rules : NameRules) (table : SymbolTable) (block : ScopeId) (entry : Symbol) (identifier : Identifier) :
    Prop where
  kind : identifier.kind = .type
  rule : identifier.rule = rules.typeRule
  form : identifier.form = .unqualified
  name : Text.lowerCase identifier.name = Text.lowerCase entry.name
  within : table.enclosingNamespace identifier.scope = .ok block
  undeclared : table.find? block identifier.name rules.typeRule IdentifierKind.type.accepts = .ok none

theorem BindsAlias.resolveAll (h : BindsAlias rules v node block use entry target type) : ∃ position found,
    Resolver.resolveAll rules.resolvers v.table
      (.ofKind target .type block position rules.caseInsensitiveTypes) = .ok found ∧ found.symbol = some type := by
  obtain ⟨v', hbo⟩ := h.bound
  simp only [bindAlias, Step.bind_eq_ok, askTree_eq_ok, askTable_eq_ok] at hbo
  obtain ⟨node, _, ⟨_, rfl⟩, _, _, ⟨huse, rfl⟩, _, _, ⟨hbl, rfl⟩, symbol, _, ⟨hsym, rfl⟩, hbo⟩ := hbo
  cases huse.symm.trans h.symbolOf
  cases hbl.symm.trans h.scopeOf
  cases (symbol_eq_ok.mp hsym).symm.trans h.symbol
  simp only [h.aliasTarget, Step.bind_eq_ok, askTable_eq_ok] at hbo
  obtain ⟨found, _, ⟨hf, rfl⟩, hbo⟩ := hbo
  refine ⟨node.position, found, hf, ?_⟩
  cases hres : found.symbol with
  | none =>
    simp only [hres, Step.bind_eq_ok, Step.pure_eq_ok] at hbo
    obtain ⟨_, _, _, hno, _⟩ := hbo
    cases hno
  | some resolved =>
    simp only [hres, Step.bind_eq_ok, Step.pure_eq_ok] at hbo
    obtain ⟨_, _, _, hso, _⟩ := hbo
    exact hso.symm

/-- When an identifier is looked up, the alias as which it is written is the one that the use declaration made. -/
theorem BindsAlias.aliasOf (hdec : w₁.table.IsDeclared) (hv : ReflTransGen Binds w₁.table v.table)
    (hbis : BindsAlias rules v node block use entry target type) (htb : ReflTransGen Binds w₁.table table)
    (hwr : WrittenAs rules table block entry identifier) :
    NameForm.of target = .absolute ∧ table.useNamed? block identifier.name = .ok (some use) ∧
      ∃ entry', table.symbol? use = some entry' ∧ entry'.aliasTarget? = some target ∧ entry'.position = entry.position := by
  have hv' : v.table.useNamed? block identifier.name = .ok (some use) := by
    rw [useNamed?, usesNamed, hwr.name]
    exact hbis.first
  have huse₁ : w₁.table.useNamed? block identifier.name = .ok (some use) := by
    rwa [← useNamed?_frame, (extends_of_binds hv).frame, useNamed?_frame] at hv'
  obtain ⟨old, name, hold, hnm, hform⟩ := hdec.aliased (mem_usesOf_of_useNamed? huse₁)
  obtain ⟨_, he, hout⟩ := keepsSymbols_of_binds hv hold
  cases he.symm.trans hbis.symbol
  obtain ⟨entry', he', hout'⟩ := keepsSymbols_of_binds htb hold
  have ht : name = target := by
    rw [← Symbol.aliasTarget?_outline, ← hout, Symbol.aliasTarget?_outline, hbis.aliasTarget] at hnm
    exact (Option.some.inj hnm).symm
  subst ht
  refine ⟨hform, ?_, entry', he', ?_, ?_⟩
  · rwa [← useNamed?_frame, (extends_of_binds htb).frame, useNamed?_frame]
  · rw [← Symbol.aliasTarget?_outline, hout', Symbol.aliasTarget?_outline, hnm]
  · exact (congrArg Symbol.position (hout'.trans hout.symm) : entry'.outline.position = entry.outline.position)

/-- Once a program is declared, a use declaration that is bound to a type and the identifiers that are written as its alias
agree on this type, whenever and wherever in the namespace block they are looked up, if the program declares what the alias
stands for. Otherwise the alias does not count for them. -/
theorem resolveAll_alias (hlibraries : withLibraries generation libraries = .ok w.table) (hwf : w.tree.WellFormed)
    (hdeclared : declareAll w = .ok () w₁) (hresolvers : rules.resolvers = Resolver.standard ++ extra)
    (hv : Relation.ReflTransGen Binds w₁.table v.table) (hbinds : BindsAlias rules v node block use entry target type)
    (htable : Relation.ReflTransGen Binds w₁.table table) (hwritten : WrittenAs rules table block entry identifier) :
    ((∃ id, table.DeclaresAs rules.typeRule target id) → Resolver.resolveAll rules.resolvers table identifier =
        .ok ⟨some type, some use, identifier.position.isBefore entry.position⟩) ∧
      ((∀ id, ¬ table.DeclaresAs rules.typeRule target id) → Resolver.resolveAll rules.resolvers table identifier =
        Resolver.resolveAll rules.resolvers.tail table identifier) := by
  have htable₁ := isDeclared_of_declares hlibraries (stands_declareAll hwf hdeclared).touches.declares
  obtain ⟨hform, huse, entry', hentry', htarget, hposition⟩ := hbinds.aliasOf htable₁ hv htable hwritten
  -- What the use declaration finds among the declarations of the program, the identifier finds too.
  obtain ⟨position, found, hall, hfound⟩ := hbinds.resolveAll
  rw [hresolvers] at hall
  obtain ⟨first, hfirst, hsame⟩ := Resolver.resolve_of_resolveAll_cons hall
  have habsolute : Resolver.userAbsolute table identifier target = .ok first := by
    have hasked : (Identifier.ofKind target .type block position rules.caseInsensitiveTypes).form = .absolute := hform
    rw [Resolver.resolve_user_of_absolute hasked, Resolver.userAbsolute_of_extends htable₁.owned (extends_of_binds hv)
      hwritten.kind.symm hwritten.rule.symm] at hfirst
    rwa [Resolver.userAbsolute_of_extends htable₁.owned (extends_of_binds htable) rfl rfl]
  have hresolve := Resolver.resolve_user_of_alias hwritten.kind hwritten.form hwritten.within
    (hwritten.rule.symm ▸ hwritten.undeclared) huse hentry' htarget habsolute
  rw [hresolvers, Resolver.standard, List.cons_append, List.tail_cons]
  rcases Resolver.userAbsolute_eq_ok hwritten.kind habsolute with ⟨rfl, hnone⟩ | ⟨id, rfl, hdeclares⟩
  · rw [hwritten.rule] at hnone
    refine ⟨fun ⟨id, hid⟩ => absurd hid (hnone id), fun _ => ?_⟩
    rw [Resolver.resolveAll, Resolver.resolveFirst, hresolve]
    rfl
  · rw [hwritten.rule] at hdeclares
    refine ⟨fun _ => ?_, fun hnone => absurd hdeclares (hnone id)⟩
    rw [Resolver.resolveAll, Resolver.resolveFirst, hresolve, ← hfound, hsame rfl, ← hposition]
    rfl

/-! ## A program -/

/-- A namespace block with a use declaration, a class and a function whose parameter is written as the alias. -/
def figureProgram (target : String) : List SourceTree :=
  [.node .namespaceDecl "\\" ⟨1, 1⟩ [
    .node .useDecl "" ⟨2, 1⟩ [.node .typeName target ⟨2, 5⟩ [], .node .identifier "Figure" ⟨2, 12⟩ []],
    .node .classDecl "Shape" ⟨3, 1⟩ [],
    .node .functionDecl "f" ⟨4, 1⟩ [.node .parameter "$x" ⟨4, 9⟩ [.node .typeName "figure" ⟨4, 2⟩ []],
      .node .block "" ⟨4, 12⟩ []]]]

def figureStart (target : String) : Workspace where
  tree := .ofProgram (figureProgram target)
  table := (withLibraries 0 [Library.standardTypes]).toOption.getD default
  flow := .empty
  issues := {}

def figureDeclared (target : String) : Workspace := left (declareAll (figureStart target))

/-- The parameter's type. -/
def figureIdentifier : Identifier := .ofKind "figure" .type ⟨0, 4⟩ ⟨4, 2⟩ true

theorem withLibraries_figure (target : String) :
    withLibraries 0 [Library.standardTypes] = .ok (figureStart target).table := by
  dsimp only [figureStart]
  exact eq_ok_getD _ (by decide +kernel)

/-- That a use declaration is bound can be seen at what a few questions answer. -/
theorem exists_bindsAlias {name : String} (hsc : v.tree.scopeOf node = .ok block) (hsym : v.tree.symbolOf node = .ok use)
    (hnm : (v.table.symbol? use).map (·.name) = some name)
    (ht : (v.table.symbol? use).bind (·.aliasTarget?) = some target)
    (hfst : v.table.useNamed? block name = .ok (some use))
    (hbo : (match bindAlias rules node v with | .ok found _ => found | .error _ _ => none) = some type) :
    ∃ entry, entry.name = name ∧ BindsAlias rules v node block use entry target type := by
  obtain ⟨entry, he, rfl⟩ := Option.map_eq_some_iff.mp hnm
  rw [he] at ht
  refine ⟨entry, rfl, hsc, hsym, he, ht, hfst, ?_⟩
  split at hbo
  · next found v' hbi => exact ⟨v', hbo ▸ hbi⟩
  · nomatch hbo

/-- The parameter is written as the alias. -/
theorem writtenAs_figure (target : String) {entry : Symbol} (hnm : entry.name = "Figure")
    (hwi : (figureDeclared target).table.enclosingNamespace ⟨0, 4⟩ = .ok ⟨0, 3⟩)
    (hno : (figureDeclared target).table.find? ⟨0, 3⟩ "figure" .insensitive IdentifierKind.type.accepts = .ok none) :
    WrittenAs ⟨standard, true⟩ (figureDeclared target).table ⟨0, 3⟩ entry figureIdentifier where
  kind := rfl
  rule := rfl
  form := by decide +kernel
  name := by
    rw [hnm]
    decide +kernel
  within := hwi
  undeclared := hno

theorem resolveAll_alias_figure : ∃ entry,
    BindsAlias ⟨Resolver.standard, true⟩ (figureDeclared "Shape") ⟨2⟩ ⟨0, 3⟩ ⟨0, 10⟩ entry "\\Shape" ⟨0, 11⟩ ∧
    WrittenAs ⟨Resolver.standard, true⟩ (figureDeclared "Shape").table ⟨0, 3⟩ entry figureIdentifier ∧
    (∃ id, (figureDeclared "Shape").table.DeclaresAs .insensitive "\\Shape" id) ∧
    Resolver.resolveAll Resolver.standard (figureDeclared "Shape").table figureIdentifier =
      .ok ⟨some ⟨0, 11⟩, some ⟨0, 10⟩, figureIdentifier.position.isBefore entry.position⟩ := by
  have hbound : ∃ entry, entry.name = "Figure" ∧
      BindsAlias ⟨Resolver.standard, true⟩ (figureDeclared "Shape") ⟨2⟩ ⟨0, 3⟩ ⟨0, 10⟩ entry "\\Shape" ⟨0, 11⟩ :=
    exists_bindsAlias (by decide +kernel) (by decide +kernel) (by decide +kernel) (by decide +kernel) (by decide +kernel)
      (by decide +kernel)
  obtain ⟨entry, hname, hbinds⟩ := hbound
  have hwritten := writtenAs_figure "Shape" hname (by decide +kernel) (by decide +kernel)
  have hdeclares : ∃ id, (figureDeclared "Shape").table.DeclaresAs .insensitive "\\Shape" id :=
    ⟨⟨0, 11⟩, "", "Shape", ⟨0, 0⟩, by decide +kernel, by decide +kernel, by decide +kernel⟩
  refine ⟨entry, hbinds, hwritten, hdeclares, ?_⟩
  exact (resolveAll_alias (withLibraries_figure "Shape") (Tree.wellFormed_ofProgram _) (eq_ok_left (by decide +kernel))
    (List.append_nil Resolver.standard).symm .refl hbinds .refl hwritten).1 hdeclares

/-- An alias of a built-in type is bound to the type, and what is written as the alias is not found. -/
theorem resolveAll_alias_of_builtin : ∃ entry,
    BindsAlias ⟨Resolver.standard, true⟩ (figureDeclared "int") ⟨2⟩ ⟨0, 3⟩ ⟨0, 10⟩ entry "\\int" ⟨0, 4⟩ ∧
    WrittenAs ⟨Resolver.standard, true⟩ (figureDeclared "int").table ⟨0, 3⟩ entry figureIdentifier ∧
    Resolver.resolveAll Resolver.standard (figureDeclared "int").table figureIdentifier = .ok .nothing := by
  have hbound : ∃ entry, entry.name = "Figure" ∧
      BindsAlias ⟨Resolver.standard, true⟩ (figureDeclared "int") ⟨2⟩ ⟨0, 3⟩ ⟨0, 10⟩ entry "\\int" ⟨0, 4⟩ :=
    exists_bindsAlias (by decide +kernel) (by decide +kernel) (by decide +kernel) (by decide +kernel) (by decide +kernel)
      (by decide +kernel)
  obtain ⟨entry, hname, hbinds⟩ := hbound
  exact ⟨entry, hbinds, writtenAs_figure "int" hname (by decide +kernel) (by decide +kernel), by decide +kernel⟩

end Workspace

end SoftTyping
