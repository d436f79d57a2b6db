import SoftTyping.Proofs.SymbolTable.Recorded

/-!
# Repeated declarations of a table

A declaration is compared with the first one that is found under its name in its own scope. The check for repeated
declarations compares labels, and an identifier asks for a kind; both find the same (`firstLabelled_eq_ownName`), except for
types whose names differ in case under a configuration that tells them apart. Of the declarations that an identifier denotes
all but one are repeated (`length_redefinitions`).
-/

namespace SoftTyping

open Refusal Text Relation

/-- The issue that a declaration repeats an earlier one. -/
def Symbol.repeatedIssue (symbol earlier : Symbol) : Issue :=
  let issue := (Issue.ofKind .alreadyDefined symbol.position).withRelated earlier.position
  (issue.withParameter "kind" symbol.label).withParameter "name" symbol.name

/-- An issue is that declarations with a label are repeated. -/
def Issue.repeats (issue : Issue) (label : String) : Bool :=
  issue.kind = .alreadyDefined && issue.parameters.get? "kind" = some label

theorem Symbol.outline_outline (symbol : Symbol) : symbol.outline.outline = symbol.outline := by
  obtain ⟨_, _, _, data⟩ := symbol
  cases data <;> rfl

theorem Symbol.repeatedIssue_outline (symbol earlier : Symbol) :
    symbol.outline.repeatedIssue earlier.outline = symbol.repeatedIssue earlier := by
  rw [repeatedIssue, label_outline]
  rfl

theorem Symbol.repeats_repeatedIssue (symbol earlier : Symbol) (label : String) :
    (symbol.repeatedIssue earlier).repeats label = (symbol.label = label : Bool) := by
  simp [repeatedIssue, Issue.repeats, Issue.withParameter, Issue.withRelated, Issue.ofKind]

/-- Two names are the same under a rule. -/
def CaseRule.Alike : CaseRule → String → String → Prop
  | .sensitive, name, other => name = other
  | .insensitive, name, other => Text.lowerCase name = Text.lowerCase other

theorem CaseRule.Alike.lowerCase_eq {rule : CaseRule} {name other : String} (h : rule.Alike name other) :
    lowerCase name = lowerCase other := by
  cases rule with
  | sensitive => rw [show name = other from h]
  | insensitive => exact h

/-- The label of what an identifier of some kind declares. -/
def IdentifierKind.declaredLabel : IdentifierKind → String
  | .var => "parameter"
  | .const => "constant"
  | .method => "function"
  | .type => "type"

/-- How names are compared in a lookup of some kind. -/
def IdentifierKind.rule (kind : IdentifierKind) (caseInsensitiveTypes : Bool) : CaseRule :=
  (Identifier.ofKind "" kind ⟨0, 0⟩ .origin caseInsensitiveTypes).rule

namespace Symbol

variable {symbol : Symbol} {kind : IdentifierKind}

theorem declaredAs?_eq_some : symbol.declaredAs? = some kind ↔ kind.accepts symbol = true ∧ ¬ symbol.IsLocal := by
  obtain ⟨_, _, _, data⟩ := symbol
  cases data <;> cases kind <;> simp [declaredAs?, IsLocal, var?, method?, type?, isConstant, IdentifierKind.accepts]

theorem label_eq_iff (h : symbol.label ≠ "operator") : symbol.label = kind.declaredLabel ↔ symbol.declaredAs? = some kind := by
  obtain ⟨_, _, _, data⟩ := symbol
  cases data with
  | var data => cases kind <;> cases hpar : data.isParameter <;> simp [label, declaredAs?, hpar, IdentifierKind.declaredLabel]
  | method data =>
    cases hk : data.kind with
    | operator => simp [label, hk] at h
    | function => cases kind <;> simp [label, declaredAs?, hk, IdentifierKind.declaredLabel]
  | _ => cases kind <;> simp [label, declaredAs?, IdentifierKind.declaredLabel]

theorem kind_eq_var {data : VariableData} (hdt : symbol.var? = some data) (h : kind.accepts symbol = true) : kind = .var := by
  obtain ⟨_, _, _, symbolData⟩ := symbol
  cases symbolData <;> cases hdt
  cases kind <;> first | rfl | nomatch h

theorem rule_of_declaredAs? {caseInsensitiveTypes : Bool} (h : symbol.declaredAs? = some kind)
    (hrl : kind = .type → caseInsensitiveTypes = true) :
    (if symbol.isCaseInsensitive then CaseRule.insensitive else .sensitive) = kind.rule caseInsensitiveTypes := by
  obtain ⟨_, _, _, data⟩ := symbol
  cases data with
  | var data =>
    cases hpar : data.isParameter <;> simp [declaredAs?, hpar] at h
    subst h
    rfl
  | const _ | method _ =>
    cases h
    rfl
  | type _ =>
    cases h
    rw [hrl rfl]
    rfl
  | aliasOf _ _ | erroneous _ => cases h

end Symbol

namespace SymbolTable

variable {table table' : SymbolTable} {scope storage : ScopeId} {id : SymbolId} {symbol : Symbol} {caseInsensitiveTypes : Bool}
  {ids : List SymbolId}

/-- The first declaration of a scope that a declaration in it is compared with. -/
def firstBy (rule : Symbol → CaseRule) (accept : Symbol → Symbol → Bool) (table : SymbolTable) (id : SymbolId) :
    Except Fault (Option SymbolId) := do
  let symbol ← table.symbol id
  let scope ← Workspace.owningScope symbol
  table.find? scope symbol.name (rule symbol) (accept symbol)

/-- The check for repeated declarations compares those with the same label. -/
def firstLabelled (table : SymbolTable) (id : SymbolId) : Except Fault (Option SymbolId) :=
  table.firstBy (fun symbol => if symbol.isCaseInsensitive then .insensitive else .sensitive)
    (fun symbol other => other.label = symbol.label) id

/-- What the name of a declaration stands for in its own scope, as an identifier of some kind. -/
def ownName (table : SymbolTable) (caseInsensitiveTypes : Bool) (kind : IdentifierKind) (id : SymbolId) :
    Except Fault (Option SymbolId) := do
  let symbol ← table.symbol id
  let scope ← Workspace.owningScope symbol
  let found ← Resolver.lookup table (.ofKind symbol.name kind scope symbol.position caseInsensitiveTypes) scope symbol.name
  .ok found.symbol

/-- The issue of a declaration whose name stands for another one. -/
def issueOf? (table : SymbolTable) (id : SymbolId) (found : Except Fault (Option SymbolId)) : Option Issue :=
  match found with
  | .ok (some other) =>
    if other = id then none
    else
      match table.symbol? id, table.symbol? other with
      | some symbol, some earlier => some (symbol.repeatedIssue earlier)
      | _, _ => none
  | _ => none

/-- The issue of a declaration that its own name, as an identifier of some kind, does not stand for. -/
def redefinition? (table : SymbolTable) (caseInsensitiveTypes : Bool) (kind : IdentifierKind) (id : SymbolId) :
    Option Issue :=
  table.issueOf? id (table.ownName caseInsensitiveTypes kind id)

/-- An identifier may stand for a declaration: this is of its kind, has its name and is kept where the identifier is looked
up. -/
def Denotes (table : SymbolTable) (identifier : Identifier) (id : SymbolId) : Prop :=
  ∃ symbol home storage, table.symbol? id = some symbol ∧ symbol.declaredAs? = some identifier.kind ∧
    symbol.scope = some home ∧ table.storageScope home = .ok storage ∧ table.storageScope identifier.scope = .ok storage ∧
    identifier.rule.Alike identifier.name symbol.name

/-! ## Lookups that do not change -/

theorem ownName_eq_firstBy (table : SymbolTable) (caseInsensitiveTypes : Bool) (kind : IdentifierKind) (id : SymbolId) :
    table.ownName caseInsensitiveTypes kind id =
      table.firstBy (fun _ => kind.rule caseInsensitiveTypes) (fun _ => kind.accepts) id := by
  refine bind_congr fun symbol => bind_congr fun scope => ?_
  have hlookup : Resolver.lookup table (.ofKind symbol.name kind scope symbol.position caseInsensitiveTypes) scope symbol.name =
      (table.find? scope symbol.name (kind.rule caseInsensitiveTypes) kind.accepts).bind fun found => .ok { symbol := found } :=
    rfl
  rw [hlookup]
  cases table.find? scope symbol.name (kind.rule caseInsensitiveTypes) kind.accepts <;> rfl

section Binds

variable (hwn : table.Owned) (h : ReflTransGen Binds table table') (hsym : table.symbol? id = some symbol)

include hwn h hsym

section

variable {rule : Symbol → CaseRule} {accept : Symbol → Symbol → Bool} (hrl : ∀ symbol, rule symbol.outline = rule symbol)
  (haccept : ∀ symbol other, accept symbol.outline other.outline = accept symbol other)

include hrl haccept

theorem firstBy_of_binds : table'.firstBy rule accept id = table.firstBy rule accept id := by
  obtain ⟨symbol', hsym', hout⟩ := keepsSymbols_of_binds h hsym
  have hnm := Symbol.name_of_outline hout
  have hsc : Workspace.owningScope symbol' = Workspace.owningScope symbol := by
    rw [Workspace.owningScope, Symbol.scope_of_outline hout, hnm, Workspace.owningScope]
  have hsm : accept symbol' = accept symbol := by
    funext other
    rw [← haccept, hout, haccept]
  rw [firstBy, firstBy, symbol_eq_ok.mpr hsym, symbol_eq_ok.mpr hsym']
  show (Workspace.owningScope symbol' >>= _) = (Workspace.owningScope symbol >>= _)
  rw [hsc]
  refine bind_congr fun scope => ?_
  rw [hnm, ← hrl, hout, hrl, hsm]
  refine find?_of_extends hwn (extends_of_binds h) fun other => ?_
  rw [← haccept, Symbol.outline_outline, haccept]

theorem issueOf?_of_binds :
    table'.issueOf? id (table'.firstBy rule accept id) = table.issueOf? id (table.firstBy rule accept id) := by
  rw [firstBy_of_binds hwn h hsym hrl haccept]
  cases hf : table.firstBy rule accept id with
  | error fault => rfl
  | ok found =>
    cases found with
    | none => rfl
    | some other =>
      obtain ⟨_, _, hf⟩ := bind_eq_ok.mp hf
      obtain ⟨_, _, hf⟩ := bind_eq_ok.mp hf
      obtain ⟨earlier, hea, _⟩ := find?_eq_some hf
      obtain ⟨symbol', hsym', hout⟩ := keepsSymbols_of_binds h hsym
      obtain ⟨earlier', hea', hout'⟩ := keepsSymbols_of_binds h hea
      have his : symbol'.repeatedIssue earlier' = symbol.repeatedIssue earlier := by
        rw [← Symbol.repeatedIssue_outline, hout, hout', Symbol.repeatedIssue_outline]
      simp only [issueOf?, hsym, hsym', hea, hea', his]

end

theorem firstLabelled_of_binds :
    table'.issueOf? id (table'.firstLabelled id) = table.issueOf? id (table.firstLabelled id) := by
  refine issueOf?_of_binds hwn h hsym (fun symbol => ?_) fun symbol other => ?_
  · obtain ⟨_, _, _, data⟩ := symbol
    cases data <;> rfl
  · rw [Symbol.label_outline, Symbol.label_outline]

theorem redefinition?_of_binds (caseInsensitiveTypes : Bool) (kind : IdentifierKind) :
    table'.redefinition? caseInsensitiveTypes kind id = table.redefinition? caseInsensitiveTypes kind id := by
  rw [redefinition?, redefinition?, ownName_eq_firstBy, ownName_eq_firstBy]
  exact issueOf?_of_binds hwn h hsym (fun _ => rfl) fun _ => accepts_outline kind

end Binds

theorem denotes_of_binds (h : ReflTransGen Binds table table') (hsym : table.symbol? id = some symbol)
    (identifier : Identifier) : table'.Denotes identifier id ↔ table.Denotes identifier id := by
  obtain ⟨symbol', hsym', hout⟩ := keepsSymbols_of_binds h hsym
  have hsto : table'.storageScope = table.storageScope := by
    funext scope
    rw [← storageScope_frame, (extends_of_binds h).frame, storageScope_frame]
  have hdec : symbol'.declaredAs? = symbol.declaredAs? := by
    rw [← Symbol.declaredAs?_outline, hout, Symbol.declaredAs?_outline]
  simp only [Denotes, hsym, hsym', Option.some.injEq, hsto, exists_and_left, exists_eq_left', hdec,
    Symbol.name_of_outline hout, Symbol.scope_of_outline hout]

/-! ## Two ways to look up a declaration -/

/-- Two searches of an ordered list find the same, if what only the second accepts comes behind something that both do. -/
theorem find?_of_leads (hord : ids.Pairwise (·.index < ·.index)) {p q : SymbolId → Bool}
    (hpq : ∀ id ∈ ids, p id = true → q id = true) (hid : id ∈ ids) (hp : p id = true)
    (hleads : ∀ other ∈ ids, q other = true → p other = false → id.index < other.index) : ids.find? p = ids.find? q := by
  induction ids with
  | nil => nomatch hid
  | cons first rest ih =>
    obtain ⟨hfst, hrs⟩ := List.pairwise_cons.mp hord
    cases hpfirst : p first with
    | true => rw [List.find?_cons_of_pos hpfirst, List.find?_cons_of_pos (hpq first List.mem_cons_self hpfirst)]
    | false =>
      have hmem : id ∈ rest := by
        rcases List.mem_cons.mp hid with rfl | hmem
        · rw [hp] at hpfirst
          nomatch hpfirst
        · exact hmem
      have hqfirst : ¬ q first = true := by
        intro hqfirst
        have hbehind := hleads first List.mem_cons_self hqfirst hpfirst
        have hbef := hfst id hmem
        omega
      rw [List.find?_cons_of_neg (by rw [hpfirst]; nofun), List.find?_cons_of_neg hqfirst]
      exact ih hrs (fun other hoth => hpq other (List.mem_cons_of_mem _ hoth)) hmem
        fun other hoth => hleads other (List.mem_cons_of_mem _ hoth)

/-- What is kept with the declarations of a function was declared in its scope. -/
theorem Rooted.eq_of_storageScope (h : table.Rooted) {inner other : ScopeId} {entry : Scope} {function : SymbolId}
    (he : table.scope? inner = some entry) (hk : entry.kind = .method function) (hhouse : table.IsHouse other)
    (hsto : table.storageScope other = .ok inner) : other = inner := by
  obtain ⟨around, har, hhouse⟩ := hhouse
  rw [storageScope_of_home (h.home_self har hhouse)] at hsto
  cases harKind : around.kind with
  | namespaceBlock storage uses =>
    simp only [harKind] at hsto
    cases hsto
    obtain ⟨_, same, path, hsm, hpth⟩ := h.blocks har harKind
    cases he.symm.trans hsm
    rw [hk] at hpth
    nomatch hpth
  | _ =>
    simp only [harKind] at hsto
    exact Except.ok.inj hsto

/-- A declaration is compared with what is filed with it. -/
theorem Rooted.firstBy_eq_ok (h : table.Rooted) (hsym : table.symbol? id = some symbol) {home : ScopeId}
    (hhm : symbol.scope = some home)
    (hsto : table.storageScope home = .ok storage) (rule : Symbol → CaseRule) (accept : Symbol → Symbol → Bool) :
    table.firstBy rule accept id = .ok ((table.fileOf storage (lowerCase symbol.name)).find?
      (table.fits symbol.name (rule symbol) (accept symbol))) := by
  obtain ⟨entry, he⟩ := h.scope?_storageScope hsto
  have howning : Workspace.owningScope symbol = .ok home := by rw [Workspace.owningScope, hhm]
  refine bind_eq_ok.mpr ⟨symbol, symbol_eq_ok.mpr hsym, bind_eq_ok.mpr ⟨home, howning, ?_⟩⟩
  exact find?_eq_ok hsto he _ _ _

theorem exists_file {n : Nat} {kind : IdentifierKind} {tidy : Prop} (hwn : table.Owned) (hprg : table.Programmed tidy n)
    (hn : n ≤ id.index) (hsym : table.symbol? id = some symbol) (hk : symbol.declaredAs? = some kind) :
    ∃ home storage entry, symbol.scope = some home ∧ table.storageScope home = .ok storage ∧
      table.scope? storage = some entry ∧ storage.IsOpen ∧ id ∈ table.fileOf storage (lowerCase symbol.name) := by
  obtain ⟨storage, hmem⟩ := hprg.filed hn hsym (by rw [hk]; rfl)
  obtain ⟨same, home, hsm, _, hhm, hsto⟩ := hwn.kept hmem
  cases hsym.symm.trans hsm
  obtain ⟨entry, he⟩ := hwn.rooted.scope?_storageScope hsto
  exact ⟨home, storage, entry, hhm, hsto, he, (hprg.own hmem).mp hn, hmem⟩

section Programmed

variable {n : Nat} {kind : IdentifierKind} (hwn : table.Owned) (hprg : table.Programmed True n) (hn : n ≤ id.index)
  (hsym : table.symbol? id = some symbol) (hk : symbol.declaredAs? = some kind)

include hwn hprg hsym hk

theorem lt_of_isLocal {key key' : String} {other : SymbolId} {found : Symbol}
    (hmem : id ∈ table.fileOf storage key) (hoth : other ∈ table.fileOf storage key')
    (hf : table.symbol? other = some found) (hloc : found.IsLocal) (hvar : kind = .var) : id.index < other.index := by
  subst hvar
  obtain ⟨data, hdt, hpar⟩ := Symbol.declaredAs?_eq_var.mp hk
  obtain ⟨_, inner, entry, function, _, _, hsm, hinn, he, hmth, _⟩ :=
    hwn.listed ⟨symbol, data, hsym, hdt, hpar⟩
  cases hsym.symm.trans hsm
  obtain ⟨_, home, hsm, _, hhm, hsto⟩ := hwn.kept hmem
  cases hsym.symm.trans hsm
  cases hinn.symm.trans hhm
  obtain ⟨_, home', hsm, _, hhm', hsto'⟩ := hwn.kept hoth
  cases hf.symm.trans hsm
  -- The parameter is kept in the scope of its function, and so the variable was declared there.
  rw [storageScope_of_home (hwn.rooted.home_self he (by rw [Scope.isConditional, hmth])), hmth] at hsto
  cases hsto
  have hsm := hwn.rooted.eq_of_storageScope he hmth (hprg.housed hf hhm') hsto'
  exact hprg.leads trivial hsym hf (by rw [hinn, hhm', hsm]) hk hloc

/-- The name of a declaration stands for the first one of its kind. Local variables do not count, since they come behind the
parameters. -/
theorem ownName_eq_ok {home : ScopeId} (hhm : symbol.scope = some home)
    (hsto : table.storageScope home = .ok storage) (hmem : id ∈ table.fileOf storage (lowerCase symbol.name))
    (caseInsensitiveTypes : Bool) :
    table.ownName caseInsensitiveTypes kind id = .ok ((table.fileOf storage (lowerCase symbol.name)).find?
      (table.fits symbol.name (kind.rule caseInsensitiveTypes) (·.declaredAs? = some kind))) := by
  rw [ownName_eq_firstBy, hwn.rooted.firstBy_eq_ok hsym hhm hsto]
  refine congrArg Except.ok (find?_of_leads (hwn.ordered storage _) ?_ hmem ?_ ?_).symm
  · intro other hoth hp
    obtain ⟨found, _, hf, _⟩ := hwn.kept hoth
    simp only [fits, hf, Bool.and_eq_true, decide_eq_true_eq] at hp ⊢
    exact ⟨hp.1, (Symbol.declaredAs?_eq_some.mp hp.2).1⟩
  · simp [fits, hsym, hk]
  · intro other hoth hq hp
    obtain ⟨found, _, hf, _⟩ := hwn.kept hoth
    simp only [fits, hf, Bool.and_eq_true] at hq hp
    have hloc : found.IsLocal := by
      by_contra hloc
      rw [hq.1, Symbol.declaredAs?_eq_some.mpr ⟨hq.2, hloc⟩] at hp
      simp at hp
    refine lt_of_isLocal hwn hprg hsym hk hmem hoth hf hloc ?_
    obtain ⟨data, hdt, _⟩ := hloc
    exact Symbol.kind_eq_var hdt hq.2

include hn

/-- The check of a declaration finds what its name stands for. -/
theorem firstLabelled_eq_ownName (hrl : kind = .type → caseInsensitiveTypes = true) :
    table.firstLabelled id = table.ownName caseInsensitiveTypes kind id := by
  obtain ⟨home, storage, entry, hhm, hsto, he, hop, hmem⟩ := exists_file hwn hprg hn hsym hk
  rw [ownName_eq_ok hwn hprg hsym hk hhm hsto hmem, firstLabelled,
    hwn.rooted.firstBy_eq_ok hsym hhm hsto, Symbol.rule_of_declaredAs? hk hrl]
  refine congrArg Except.ok (List.find?_congr fun other hoth => ?_)
  obtain ⟨found, _, hf, _⟩ := hwn.kept hoth
  have hoperator := hprg.functions ((hprg.own hoth).mpr hop) hf
  have hlabel := (Symbol.label_eq_iff (hprg.functions hn hsym)).mpr hk
  simp only [fits, hf, hlabel, Symbol.label_eq_iff hoperator]

end Programmed

theorem issueOf?_eq_some {found : Except Fault (Option SymbolId)} {issue : Issue} (h : table.issueOf? id found = some issue) :
    ∃ symbol earlier, table.symbol? id = some symbol ∧ issue = symbol.repeatedIssue earlier := by
  unfold issueOf? at h
  split at h
  · split at h
    · nomatch h
    · split at h
      · next symbol earlier hsym _ => exact ⟨symbol, earlier, hsym, (Option.some.inj h).symm⟩
      · nomatch h
  · nomatch h

/-- Among the repeated declarations that the check finds, those with the label of a kind are those that lookups of this kind
find. -/
theorem filter_issueOf? {n : Nat} {kind : IdentifierKind} (hwn : table.Owned)
    (hprg : table.Programmed True n) (hrl : kind = .type → caseInsensitiveTypes = true) (hid : id ∈ table.declaredFrom n) :
    (table.issueOf? id (table.firstLabelled id)).filter (·.repeats kind.declaredLabel) =
      if (table.symbol? id).any (·.declaredAs? = some kind) then table.redefinition? caseInsensitiveTypes kind id
      else none := by
  obtain ⟨hn, symbol, hsym, hdec⟩ := mem_declaredFrom.mp hid
  have hlabel : symbol.label = kind.declaredLabel ↔ symbol.declaredAs? = some kind :=
    Symbol.label_eq_iff (hprg.functions hn hsym)
  rw [hsym, Option.any_some]
  by_cases hk : symbol.declaredAs? = some kind
  · rw [if_pos (decide_eq_true hk), redefinition?, firstLabelled_eq_ownName hwn hprg hn hsym hk hrl]
    cases his : table.issueOf? id (table.ownName caseInsensitiveTypes kind id) with
    | none => rfl
    | some issue =>
      obtain ⟨same, earlier, hsm, rfl⟩ := issueOf?_eq_some his
      cases hsym.symm.trans hsm
      rw [Option.filter_some, Symbol.repeats_repeatedIssue, if_pos (decide_eq_true (hlabel.mpr hk))]
  · rw [if_neg (by simpa using hk)]
    cases his : table.issueOf? id (table.firstLabelled id) with
    | none => rfl
    | some issue =>
      obtain ⟨same, earlier, hsm, rfl⟩ := issueOf?_eq_some his
      cases hsym.symm.trans hsm
      rw [Option.filter_some, Symbol.repeats_repeatedIssue, if_neg (by simpa using fun h => hk (hlabel.mp h))]

/-! ## How many declarations are repeated -/

theorem CaseRule.Alike.fits_eq {rule : CaseRule} {name other : String} (h : rule.Alike name other) (accept : Symbol → Bool) :
    table.fits other rule accept = table.fits name rule accept := by
  cases rule with
  | sensitive => rw [show name = other from h]
  | insensitive => rfl

section Programmed

variable {n : Nat} {identifier : Identifier} {caseInsensitiveTypes : Bool} (hwn : table.Owned) (hprg : table.Programmed True n)
  (hrl : identifier.rule = identifier.kind.rule caseInsensitiveTypes)

include hwn hprg hrl

/-- All declarations that an identifier may stand for are compared with one of them. -/
theorem exists_first (hid : id ∈ table.declaredFrom n) (hden : table.Denotes identifier id) :
    ∃ first ∈ table.declaredFrom n, table.Denotes identifier first ∧ ∀ other ∈ table.declaredFrom n,
      table.Denotes identifier other → table.ownName caseInsensitiveTypes identifier.kind other = .ok (some first) := by
  obtain ⟨symbol, home, storage, hsym, hk, hhm, hsto, hwi, halike⟩ := hden
  -- What is found does not depend on the declaration with which the search starts.
  have hown : ∀ other ∈ table.declaredFrom n, table.Denotes identifier other →
      other ∈ table.fileOf storage (lowerCase identifier.name) ∧
      table.fits identifier.name identifier.rule (·.declaredAs? = some identifier.kind) other = true ∧
      table.ownName caseInsensitiveTypes identifier.kind other =
        .ok ((table.fileOf storage (lowerCase identifier.name)).find?
          (table.fits identifier.name identifier.rule (·.declaredAs? = some identifier.kind))) := by
    rintro other hoth ⟨found, home', storage', hf, hk', hhm', hsto', hwi', halike'⟩
    cases hwi.symm.trans hwi'
    obtain ⟨hn, _⟩ := mem_declaredFrom.mp hoth
    obtain ⟨kept, file, _, hkt, hfile, _, _, hmem⟩ := exists_file hwn hprg hn hf hk'
    cases hhm'.symm.trans hkt
    cases hsto'.symm.trans hfile
    have hnm := ownName_eq_ok hwn hprg hf hk' hhm' hsto' hmem caseInsensitiveTypes
    rw [← hrl, CaseRule.Alike.fits_eq halike', ← halike'.lowerCase_eq] at hnm
    rw [← halike'.lowerCase_eq] at hmem
    refine ⟨hmem, ?_, hnm⟩
    rw [← CaseRule.Alike.fits_eq halike']
    simp [fits, hf, hk']
  obtain ⟨hmem, hfits, _⟩ := hown id hid ⟨symbol, home, storage, hsym, hk, hhm, hsto, hwi, halike⟩
  cases hfst : (table.fileOf storage (lowerCase identifier.name)).find?
      (table.fits identifier.name identifier.rule (·.declaredAs? = some identifier.kind)) with
  | none => exact absurd hfits (List.find?_eq_none.mp hfst id hmem)
  | some first =>
    have hfile := List.mem_of_find?_eq_some hfst
    have hfitting := List.find?_some hfst
    obtain ⟨found, kept, hf, hnm, hkt, hstd⟩ := hwn.kept hfile
    simp only [fits, hf, Bool.and_eq_true, Bool.or_eq_true, decide_eq_true_eq] at hfitting
    have hn := (mem_declaredFrom.mp hid).1
    refine ⟨first, mem_declaredFrom.mpr ⟨?_, found, hf, by rw [hfitting.2]; rfl⟩,
      ⟨found, kept, storage, hf, hfitting.2, hkt, hstd, hwi, ?_⟩, fun other hoth hden => ?_⟩
    · exact (hprg.own hfile).mpr ((hprg.own hmem).mp hn)
    · cases hcase : identifier.rule with
      | insensitive => exact hnm.symm
      | sensitive =>
        rw [hcase] at hfitting
        exact (hfitting.1.resolve_left (by simp)).symm
    · rw [(hown other hoth hden).2.2, hfst]

/-- Of the declarations that an identifier may stand for all but one are repeated. -/
theorem length_redefinitions (hndp : ids.Nodup)
    (hids : ∀ id, id ∈ ids ↔ id ∈ table.declaredFrom n ∧ table.Denotes identifier id) :
    (ids.filterMap (table.redefinition? caseInsensitiveTypes identifier.kind)).length = ids.length - 1 := by
  cases hem : ids with
  | nil => rfl
  | cons id rest =>
    rw [← hem]
    obtain ⟨hid, hden⟩ := (hids id).mp (by rw [hem]; exact List.mem_cons_self)
    obtain ⟨first, hfst, hdenoted, hown⟩ := exists_first hwn hprg hrl hid hden
    have his : ∀ other ∈ ids, (table.redefinition? caseInsensitiveTypes identifier.kind other).isSome = true ↔
      other ≠ first := by
      intro other hoth
      obtain ⟨hdec, hden⟩ := (hids other).mp hoth
      obtain ⟨_, symbol, hsym, _⟩ := mem_declaredFrom.mp hdec
      obtain ⟨_, earlier, hea, _⟩ := mem_declaredFrom.mp hfst
      rw [redefinition?, hown other hdec hden, issueOf?]
      by_cases hsm : first = other
      · simp [hsm]
      · simp [hsm, hsym, hea, Ne.symm hsm]
    have hcount : (ids.filterMap (table.redefinition? caseInsensitiveTypes identifier.kind)).length =
        ids.countP (· ≠ first) := by
      rw [List.length_filterMap_eq_countP]
      exact List.countP_congr fun other hoth => by simpa using his other hoth
    have honce : ids.count first = 1 := List.count_eq_one_of_mem hndp ((hids first).mpr ⟨hfst, hdenoted⟩)
    have hlen : ids.length = ids.count first + ids.countP (fun other => ¬ (other == first) = true) :=
      List.length_eq_countP_add_countP _
    have hsm : ids.countP (fun other => ¬ (other == first) = true) = ids.countP (· ≠ first) :=
      List.countP_congr fun other _ => by simp
    omega

end Programmed

end SymbolTable

end SoftTyping
