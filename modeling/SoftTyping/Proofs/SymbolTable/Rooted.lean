import SoftTyping.Proofs.SymbolTable.Filed

/-!
# Scopes lead to a namespace

In a table that is made by declaring every scope was made after the one around it, and only the declarations of namespaces
have none around them (`Rooted`). So the chain of a scope goes on with the chain of the scope around it (`Rooted.chain_eq`)
and reaches the home of the scope (`Rooted.home_eq_ok`).
-/

namespace SoftTyping

/-! ## Normal paths -/

theorem Text.pieces_flatMap {sep : Char} {segments : List (List Char)} (h : ∀ segment ∈ segments, sep ∉ segment) :
    pieces sep (segments.flatMap fun segment => segment ++ [sep]) = segments ++ [[]] := by
  induction segments with
  | nil => rfl
  | cons segment rest ih =>
    rw [List.flatMap_cons, List.append_assoc, List.singleton_append, pieces_append (h segment List.mem_cons_self),
      ih fun other hoth => h other (List.mem_cons_of_mem _ hoth), List.cons_append]

theorem pathSegments_normalizePath (path : String) : pathSegments (normalizePath path) = pathSegments path := by
  have hpieces : ∀ segment ∈ pathSegments path, separator ∉ segment := fun segment hsegment =>
    Text.not_mem_of_mem_pieces (List.mem_filter.mp hsegment).1
  have hfilled : ∀ segment ∈ pathSegments path, (!segment.isEmpty) = true := fun segment hsegment =>
    (List.mem_filter.mp hsegment).2
  rw [normalizePath]
  generalize pathSegments path = segments at hpieces hfilled
  rw [pathSegments, String.toList_ofList, Text.pieces, if_pos rfl, Text.pieces_flatMap hpieces,
    List.filter_cons_of_neg (by simp),
    List.filter_append, List.filter_eq_self.mpr hfilled, List.filter_cons_of_neg (by simp), List.filter_nil, List.append_nil]

theorem normalizePath_normalizePath (path : String) : normalizePath (normalizePath path) = normalizePath path := by
  rw [normalizePath, pathSegments_normalizePath, ← normalizePath]

theorem head?_lowerCase_normalizePath (path : String) :
    (Text.lowerCase (normalizePath path)).toList.head? = some separator := by
  rw [Text.lowerCase, String.toList_ofList, normalizePath, String.toList_ofList, Text.lowerAfter]
  rfl

namespace SymbolTable

open Refusal Text

variable {table table' : SymbolTable} {id outer scope storage home : ScopeId} {entry : Scope} {symbol : Symbol}
  {added other : SymbolId} {key : String} {P : ScopeId → Prop}

/-- A scope holds the declarations of a namespace that a program can open. -/
def IsNamespace (table : SymbolTable) (id : ScopeId) : Prop :=
  id ≠ table.superGlobalScope ∧ ∃ entry path, table.scope? id = some entry ∧ entry.kind = .globalNamespace path

/-- Every scope leads to a namespace. -/
structure Rooted (table : SymbolTable) : Prop where
  special : ∀ index < 3, ∃ entry path, table.scope? ⟨table.generation, index⟩ = some entry ∧
    entry.kind = .globalNamespace path
  enclosing : ∀ {id entry outer}, table.scope? id = some entry → entry.enclosing = some outer →
    outer.generation = table.generation ∧ outer.index < id.index
  enclosed : ∀ {id entry}, table.scope? id = some entry → entry.enclosing = none →
    ∃ path, entry.kind = .globalNamespace path
  blocks : ∀ {id entry storage uses}, table.scope? id = some entry → entry.kind = .namespaceBlock storage uses →
    table.IsNamespace storage
  namespaces : ∀ {key storage}, table.namespaces.get? key = some storage → table.IsNamespace storage

theorem scope?_of_lt_size (hgen : id.generation = table.generation) (h : id.index < table.scopes.size) :
    ∃ entry, table.scope? id = some entry := by
  rw [scope?, if_pos hgen]
  exact ⟨_, Array.getElem?_eq_getElem h⟩

theorem lt_size_of_scope? (h : table.scope? id = some entry) : id.index < table.scopes.size :=
  (Array.getElem?_eq_some_iff.mp (scope?_eq_some h).2).1

theorem Rooted.three_le_size (h : table.Rooted) : 3 ≤ table.scopes.size := by
  obtain ⟨_, _, he, _⟩ := h.special 2 (by omega)
  exact lt_size_of_scope? he

theorem IsNamespace.mono (h : table.IsNamespace id) (hkp : table.KeepsScopes table') : table'.IsNamespace id := by
  obtain ⟨hne, entry, path, he, hk⟩ := h
  obtain ⟨entry', he', _, hk'⟩ := hkp.scope he
  refine ⟨?_, entry', path, he', (ScopeKind.eq_of_outline hk' (by rw [hk]; nofun)).trans hk⟩
  rw [superGlobalScope, hkp.generation]
  exact hne

/-! ## Tables that are made by declaring -/

/-- Where no scope is added, every scope has been there before. -/
theorem KeepsScopes.exists_scope? (hkp : table.KeepsScopes table') (hsz : table'.scopes.size = table.scopes.size)
    {entry' : Scope} (he' : table'.scope? id = some entry') : ∃ entry, table.scope? id = some entry ∧
      entry'.enclosing = entry.enclosing ∧ entry'.kind.outline = entry.kind.outline := by
  have hgen := (scope?_eq_some he').1.trans hkp.generation
  obtain ⟨entry, he⟩ := scope?_of_lt_size hgen (hsz ▸ lt_size_of_scope? he')
  obtain ⟨same, hsm, henc, hk⟩ := hkp.scope he
  rw [he'] at hsm
  cases hsm
  exact ⟨entry, he, henc, hk⟩

theorem Rooted.of_keeps (h : table.Rooted) (hkp : table.KeepsScopes table')
    (hsz : table'.scopes.size = table.scopes.size) (hnss : table'.namespaces = table.namespaces) :
    table'.Rooted := by
  refine ⟨fun index hix => ?_, fun {id entry' outer} he' hou => ?_, fun {id entry'} he' hno => ?_,
    fun {id entry' storage uses} he' hk => ?_, fun {key storage} hkey => ?_⟩
  · obtain ⟨entry, path, he, hk⟩ := h.special index hix
    obtain ⟨entry', he', _, hk'⟩ := hkp.scope he
    refine ⟨entry', path, hkp.generation ▸ he', ?_⟩
    exact (ScopeKind.eq_of_outline hk' (by rw [hk]; nofun)).trans hk
  · obtain ⟨entry, he, henc, _⟩ := hkp.exists_scope? hsz he'
    rw [hkp.generation]
    exact h.enclosing he (henc.symm.trans hou)
  · obtain ⟨entry, he, henc, hk⟩ := hkp.exists_scope? hsz he'
    obtain ⟨path, hpth⟩ := h.enclosed he (henc.symm.trans hno)
    exact ⟨path, (ScopeKind.eq_of_outline hk (by rw [hpth]; nofun)).trans hpth⟩
  · obtain ⟨entry, he, _, hk'⟩ := hkp.exists_scope? hsz he'
    rw [hk] at hk'
    obtain ⟨uses', huses'⟩ := ScopeKind.exists_of_outline hk'.symm
    exact (h.blocks he huses').mono hkp
  · rw [hnss] at hkey
    exact (h.namespaces hkey).mono hkp

theorem scope?_pushScope {old : Scope} (h : (table.pushScope entry).2.scope? id = some old) :
    (id = (table.pushScope entry).1 ∧ old = entry) ∨ table.scope? id = some old := by
  obtain ⟨hgen, hget⟩ := scope?_eq_some h
  rw [pushScope, Array.getElem?_push] at hget
  split at hget
  · next hix =>
    cases hget
    exact .inl ⟨ScopeId.ext hgen hix, rfl⟩
  · exact .inr ((if_pos hgen).trans hget)

theorem scope?_pushScope_self (table : SymbolTable) (entry : Scope) :
    (table.pushScope entry).2.scope? (table.pushScope entry).1 = some entry := by
  simp [scope?, pushScope]

theorem Rooted.pushScope (h : table.Rooted) {around : Scope} (hou : table.scope? outer = some around)
    (henc : entry.enclosing = some outer)
    (hbl : ∀ storage uses, entry.kind = .namespaceBlock storage uses → table.IsNamespace storage) :
    (table.pushScope entry).2.Rooted := by
  have hkp : table.KeepsScopes (table.pushScope entry).2 := keepsScopes_pushScope table entry
  refine ⟨fun index hix => ?_, fun {id other outer'} hoth hou' => ?_, fun {id other} hoth hno => ?_,
    fun {id other storage uses} hoth hk => ?_, fun {key storage} hkey => (h.namespaces hkey).mono hkp⟩
  · obtain ⟨old, path, hold, hk⟩ := h.special index hix
    obtain ⟨new, hnew, _, hk'⟩ := hkp.scope hold
    exact ⟨new, path, hnew, (ScopeKind.eq_of_outline hk' (by rw [hk]; nofun)).trans hk⟩
  · rcases scope?_pushScope hoth with ⟨rfl, rfl⟩ | hoth
    · rw [henc] at hou'
      cases hou'
      exact ⟨(scope?_eq_some hou).1, lt_size_of_scope? hou⟩
    · exact h.enclosing hoth hou'
  · rcases scope?_pushScope hoth with ⟨rfl, rfl⟩ | hoth
    · rw [henc] at hno
      nomatch hno
    · exact h.enclosed hoth hno
  · rcases scope?_pushScope hoth with ⟨rfl, rfl⟩ | hoth
    · exact (hbl storage uses hk).mono hkp
    · exact (h.blocks hoth hk).mono hkp

theorem Rooted.namespaceOf (h : table.Rooted) {path : String}
    (hns : SymbolTable.namespaceOf path table = .ok id table') : table'.Rooted := by
  obtain ⟨_, rfl⟩ | ⟨_, rfl, rfl⟩ := namespaceOf_eq_ok hns
  · exact h
  · obtain ⟨around, _, har, _⟩ := h.special 0 (by omega)
    have hpushed : (table.pushScope { name := normalizePath path, enclosing := some table.defaultNamespace
                                      kind := .globalNamespace (normalizePath path) }).2.Rooted :=
      h.pushScope har rfl nofun
    refine ⟨hpushed.special, hpushed.enclosing, hpushed.enclosed, hpushed.blocks, fun {key storage} hkey => ?_⟩
    simp only [OrderedMap.get?_insert] at hkey
    split at hkey
    · cases hkey
      have hsz := h.three_le_size
      refine ⟨fun hspc => ?_, _, _, scope?_pushScope_self table _, rfl⟩
      have hix : table.scopes.size = 2 := congrArg ScopeId.index hspc
      omega
    · exact hpushed.namespaces hkey

theorem Edits.keepsScopes (h : table.Edits table') : table.KeepsScopes table' := by
  cases h with
  | push symbol => exact keepsScopes_of_scopes rfl rfl
  | define _ h => exact keepsScopes_define h
  | defineUse h => exact keepsScopes_defineUse h
  | namespaceOf h => exact (namespaceOf_keeps h).1
  | openNamespace _ h | addScope _ h => exact (addScope_keeps h).1
  | updateSymbol _ h => exact keepsScopes_updateSymbol h
  | initialise scope change => exact (grows_initialise change rfl).scopes

/-- What an edit does to the scopes of a table: it leaves them where they are, makes one inside of another, or makes a
namespace. -/
inductive Reshapes (table : SymbolTable) : SymbolTable → Prop where
  | keep {table' : SymbolTable} : table'.scopes.size = table.scopes.size → table'.namespaces = table.namespaces →
    Reshapes table table'
  | add {outer : ScopeId} {around entry : Scope} :
    table.scope? outer = some around → entry.enclosing = some outer → (∀ path, entry.kind ≠ .globalNamespace path) →
      (∀ storage uses, entry.kind = .namespaceBlock storage uses → table.findNamespace? entry.name = some storage) →
      Reshapes table (table.pushScope entry).2
  | namespaceOf {path : String} {storage : ScopeId} {table' : SymbolTable} :
    namespaceOf path table = .ok storage table' → Reshapes table table'

theorem scope?_of_addScope {name : String} {kind : ScopeKind} (h : addScope name outer kind table = .ok id table') :
    ∃ around, table.scope? outer = some around := by
  obtain ⟨around, _, har, _⟩ := Step.bind_eq_ok.mp h
  exact ⟨around, scope_eq_ok.mp (Step.query_eq_ok.mp har).1⟩

theorem Edits.reshapes (h : table.Edits table') : table.Reshapes table' := by
  cases h with
  | push => exact .keep rfl rfl
  | define _ hdef =>
    obtain ⟨_, _, _, _, _, rfl⟩ := define_eq_ok hdef
    exact .keep Array.size_modify rfl
  | defineUse hdef =>
    obtain ⟨_, _, _, _, _, _, rfl⟩ := defineUse_eq_ok hdef
    exact .keep Array.size_modify rfl
  | namespaceOf hns => exact .namespaceOf hns
  | openNamespace hf hadd =>
    obtain ⟨around, har⟩ := scope?_of_addScope hadd
    obtain ⟨_, rfl⟩ := addScope_eq_ok hadd
    refine .add har rfl nofun fun storage uses hk => ?_
    cases hk
    rwa [findNamespace?, normalizePath_normalizePath]
  | addScope hk hadd =>
    obtain ⟨around, har⟩ := scope?_of_addScope hadd
    obtain ⟨_, rfl⟩ := addScope_eq_ok hadd
    refine .add har rfl (fun path heq => ?_) fun storage uses heq => ?_ <;>
    · rcases hk with rfl | ⟨_, rfl⟩ <;> cases heq
  | updateSymbol _ hup =>
    obtain ⟨_, rfl⟩ := updateSymbol_eq_ok hup
    exact .keep rfl rfl
  | initialise => exact .keep Array.size_modify rfl

theorem Edits.rooted (heds : table.Edits table') (h : table.Rooted) : table'.Rooted := by
  have hkp := heds.keepsScopes
  cases heds.reshapes with
  | keep hsz hnss => exact h.of_keeps hkp hsz hnss
  | add har henc _ hbl => exact h.pushScope har henc fun storage uses hk => h.namespaces (hbl storage uses hk)
  | namespaceOf hns => exact h.namespaceOf hns

theorem Declares.rooted (hdcs : table.Declares table') (h : table.Rooted) : table'.Rooted :=
  keeps_of_changes hdcs.edited Edits.rooted h

theorem Binds.rooted (hbis : table.Binds table') (h : table.Rooted) : table'.Rooted := hbis.edits.rooted h

theorem rooted_new (generation : Generation) : (new generation).Rooted := by
  refine ⟨fun index hix => ?_, fun he hou => ?_, fun he _ => ?_, fun he hk => ?_, fun {key storage} hkey => ?_⟩
  · rcases index with _ | _ | _ | index
    case succ.succ.succ => omega
    all_goals exact ⟨_, _, if_pos rfl, rfl⟩
  · obtain ⟨_, _, hno⟩ := scope_of_new he
    rw [hno] at hou
    cases hou
  · obtain ⟨path, hpth, _⟩ := scope_of_new he
    exact ⟨path, hpth⟩
  · obtain ⟨_, hpth, _⟩ := scope_of_new he
    rw [hpth] at hk
    cases hk
  · simp only [new, OrderedMap.get?_insert, OrderedMap.get?_empty] at hkey
    split at hkey
    · cases hkey
      exact ⟨fun h => Nat.zero_ne_add_one 1 (congrArg ScopeId.index h), _, _, if_pos rfl, rfl⟩
    · cases hkey

/-! ## Chains -/

theorem Rooted.chainWithin_eq (h : table.Rooted) {length length' : Nat} (hlen : id.index < length)
    (hlen' : id.index < length') : table.chainWithin length id = table.chainWithin length' id := by
  induction length generalizing id length' with
  | zero => omega
  | succ length ih =>
    obtain ⟨length', rfl⟩ : ∃ n, length' = n + 1 := ⟨length' - 1, by omega⟩
    simp only [chainWithin]
    cases he : table.scope? id with
    | none => rfl
    | some entry =>
      cases hou : entry.enclosing with
      | none => simp only [hou]
      | some outer =>
        have hlt := (h.enclosing he hou).2
        simp only [hou]
        rw [ih (by omega) (by omega : outer.index < length')]

/-- The chain of a scope goes on with the chain of the scope around it. -/
theorem Rooted.chain_eq (h : table.Rooted) (he : table.scope? id = some entry) :
    table.chain id = (id, entry) :: (match entry.enclosing with
      | none => []
      | some outer => table.chain outer) := by
  rw [chain, chainWithin, he]
  cases hou : entry.enclosing with
  | none => simp only [hou]
  | some outer =>
    have hlt := (h.enclosing he hou).2
    simp only [hou]
    rw [h.chainWithin_eq hlt (Nat.lt_succ_self outer.index), chain]

theorem Rooted.scope?_enclosing (h : table.Rooted) (he : table.scope? id = some entry)
    (hou : entry.enclosing = some outer) : ∃ around, table.scope? outer = some around := by
  obtain ⟨hgen, hlt⟩ := h.enclosing he hou
  exact scope?_of_lt_size hgen (Nat.lt_trans hlt (lt_size_of_scope? he))

theorem Rooted.home_self (h : table.Rooted) (he : table.scope? id = some entry) (hk : entry.isConditional = false) :
    table.home id = .ok (id, entry) := by
  rw [home, h.chain_eq he, List.find?_cons_of_pos (by simp [hk]), scope_eq_ok.mpr he]
  rfl

theorem Rooted.home_branch (h : table.Rooted) (he : table.scope? id = some entry) (hk : entry.isConditional = true)
    (hou : entry.enclosing = some outer) {found : ScopeId × Scope} (hf : table.home outer = .ok found) :
    table.home id = .ok found := by
  obtain ⟨around, har⟩ := h.scope?_enclosing he hou
  rw [home, scope_eq_ok.mpr har] at hf
  rw [home, h.chain_eq he, List.find?_cons_of_neg (by simp [hk]), scope_eq_ok.mpr he, hou]
  cases hfind : (table.chain outer).find? fun entry => !entry.2.isConditional with
  | none =>
    simp only [hfind] at hf
    nomatch hf
  | some other =>
    simp only [hfind] at hf ⊢
    exact hf

theorem Rooted.around_branch (h : table.Rooted) (he : table.scope? id = some entry) (hk : entry.isConditional = true) :
    ∃ outer around, entry.enclosing = some outer ∧ outer.index < id.index ∧ table.scope? outer = some around := by
  cases hou : entry.enclosing with
  | none =>
    obtain ⟨path, hpth⟩ := h.enclosed he hou
    simp [Scope.isConditional, hpth] at hk
  | some outer =>
    obtain ⟨around, har⟩ := h.scope?_enclosing he hou
    exact ⟨outer, around, rfl, (h.enclosing he hou).2, har⟩

/-- From the scopes that are no branches one comes to all scopes, branch by branch. -/
theorem Rooted.induction (h : table.Rooted) {motive : ScopeId → Scope → Prop}
    (house : ∀ {id entry}, table.scope? id = some entry → entry.isConditional = false → motive id entry)
    (branch : ∀ {id entry outer around}, table.scope? id = some entry → entry.isConditional = true →
      entry.enclosing = some outer → outer.index < id.index → motive outer around → motive id entry)
    (he : table.scope? id = some entry) : motive id entry := by
  obtain ⟨bound, hbo⟩ : ∃ bound, id.index < bound := ⟨_, Nat.lt_succ_self _⟩
  induction bound generalizing id entry with
  | zero => omega
  | succ bound ih =>
    cases hk : entry.isConditional with
    | false => exact house he hk
    | true =>
      obtain ⟨outer, around, hou, hlt, har⟩ := h.around_branch he hk
      exact branch he hk hou hlt (ih har (by omega))

/-- Every scope has a home, which is no branch. -/
theorem Rooted.home_eq_ok (h : table.Rooted) (he : table.scope? id = some entry) :
    ∃ home around, table.home id = .ok (home, around) ∧ table.scope? home = some around ∧
      around.isConditional = false := by
  refine h.induction (motive := fun id _ => ∃ home around, table.home id = .ok (home, around) ∧
    table.scope? home = some around ∧ around.isConditional = false)
    (fun he hk => ⟨_, _, h.home_self he hk, he, hk⟩) (fun he hk hou _ => ?_) he
  rintro ⟨home, found, hhm, hf⟩
  exact ⟨home, found, h.home_branch he hk hou hhm, hf⟩

/-! ## Where declarations are kept -/

/-- What stands in a chain is there, and whatever holds of a scope with the scope around it holds of all the chain. -/
theorem of_mem_chainWithin (length : Nat) (hsc : P scope)
    (hou : ∀ {id entry outer}, table.scope? id = some entry → entry.enclosing = some outer → P outer)
    {found : ScopeId × Scope} (hf : found ∈ table.chainWithin length scope) :
    P found.1 ∧ table.scope? found.1 = some found.2 := by
  induction length generalizing scope with
  | zero => nomatch hf
  | succ length ih =>
    rw [chainWithin] at hf
    cases he : table.scope? scope with
    | none => simp [he] at hf
    | some entry =>
      rw [he] at hf
      rcases List.mem_cons.mp hf with rfl | hf
      · exact ⟨hsc, he⟩
      · cases henc : entry.enclosing with
        | none => simp [henc] at hf
        | some outer =>
          simp only [henc] at hf
          exact ih (hou he henc) hf

theorem of_home (hsc : P scope)
    (hou : ∀ {id entry outer}, table.scope? id = some entry → entry.enclosing = some outer → P outer)
    (hhm : table.home scope = .ok (home, entry)) : P home ∧ table.scope? home = some entry := by
  obtain ⟨_, _, hhm⟩ := bind_eq_ok.mp hhm
  split at hhm
  · next found hf =>
    cases hhm
    exact of_mem_chainWithin _ hsc hou (List.mem_of_find?_eq_some hf)
  · nomatch hhm

/-- The home of a scope is there, and no branch. -/
theorem scope?_of_home (h : table.home scope = .ok (home, entry)) :
    table.scope? home = some entry ∧ entry.isConditional = false := by
  refine ⟨(of_home (P := fun _ => True) trivial (fun _ _ => trivial) h).2, ?_⟩
  obtain ⟨_, _, h⟩ := bind_eq_ok.mp h
  split at h
  · next found hf =>
    cases h
    simpa using List.find?_some hf
  · nomatch h

theorem isConditional_of_outline {entry' : Scope} (h : entry'.kind.outline = entry.kind.outline) :
    entry'.isConditional = entry.isConditional := by
  unfold Scope.isConditional
  cases hk : entry.kind <;> cases hk' : entry'.kind <;> simp_all [ScopeKind.outline]

theorem Rooted.home_keeps (h : table.Rooted) (h' : table'.Rooted) (hkp : table.KeepsScopes table')
    (he : table.scope? id = some entry) :
    ∃ home around around', table.home id = .ok (home, around) ∧ table'.home id = .ok (home, around') ∧
      around'.kind.outline = around.kind.outline := by
  refine h.induction (motive := fun id _ => ∃ home around around', table.home id = .ok (home, around) ∧
    table'.home id = .ok (home, around') ∧ around'.kind.outline = around.kind.outline)
    (fun {id entry} he hk => ?_) (fun he hk hou _ => ?_) he <;>
  obtain ⟨entry', he', henc, hout⟩ := hkp.scope he <;>
  have hsm := isConditional_of_outline hout
  · exact ⟨id, entry, entry', h.home_self he hk, h'.home_self he' (hsm.trans hk), hout⟩
  · rintro ⟨home, found, found', hhm, hhm', hf⟩
    exact ⟨home, found, found', h.home_branch he hk hou hhm, h'.home_branch he' (hsm.trans hk) (henc.trans hou) hhm', hf⟩

theorem storageScope_of_home {home : ScopeId} {around : Scope} (h : table.home id = .ok (home, around)) :
    table.storageScope id = .ok (match around.kind with
      | .namespaceBlock storage _ => storage
      | _ => home) := by
  rw [storageScope, h]
  cases hk : around.kind <;> simp only [Refusal.bind_eq_ok] <;> exact ⟨_, rfl, by simp only [hk]⟩

theorem Rooted.storageScope_keeps (h : table.Rooted) (h' : table'.Rooted) (hkp : table.KeepsScopes table')
    {storage : ScopeId} (hsto : table.storageScope id = .ok storage) : table'.storageScope id = .ok storage := by
  obtain ⟨_, hf, _⟩ := bind_eq_ok.mp hsto
  obtain ⟨scope, hsc, _⟩ := bind_eq_ok.mp hf
  obtain ⟨home, around, around', hhm, hhm', hout⟩ := h.home_keeps h' hkp (scope_eq_ok.mp hsc)
  rw [storageScope_of_home hhm] at hsto
  rw [storageScope_of_home hhm', ← hsto]
  cases hold : around.kind <;> cases hnew : around'.kind <;> simp_all [ScopeKind.outline]

theorem Rooted.storageScope_variableScope (h : table.Rooted) {reader : ScopeId}
    (hreader : table.variableScope id = .ok reader) : table.storageScope reader = table.storageScope id := by
  obtain ⟨⟨home, around⟩, hhm, hreader⟩ := bind_eq_ok.mp hreader
  cases hreader
  obtain ⟨he, hk⟩ := scope?_of_home hhm
  rw [storageScope, storageScope, hhm, h.home_self he hk]

theorem Rooted.scope?_storageScope (h : table.Rooted) (hsto : table.storageScope scope = .ok storage) :
    ∃ entry, table.scope? storage = some entry := by
  obtain ⟨⟨home, around⟩, hhm, _⟩ := bind_eq_ok.mp hsto
  have har := (scope?_of_home hhm).1
  rw [storageScope_of_home hhm] at hsto
  cases hk : around.kind with
  | namespaceBlock storage uses =>
    rw [hk] at hsto
    cases hsto
    obtain ⟨_, entry, _, he, _⟩ := h.blocks har hk
    exact ⟨entry, he⟩
  | _ =>
    rw [hk] at hsto
    cases hsto
    exact ⟨around, har⟩

/-- What is kept when a symbol has been declared was kept before, or it is the symbol, and kept where its scope keeps its
declarations. -/
theorem Rooted.mem_fileOf_define (h : table.Rooted) (hdef : SymbolTable.define scope symbol table = .ok added table')
    (hoth : other ∈ table'.fileOf storage key) : other ∈ table.fileOf storage key ∨
      other = added ∧ lowerCase symbol.name = key ∧ table.storageScope scope = .ok storage := by
  refine (SymbolTable.mem_fileOf_define hdef hoth).imp_right ?_
  rintro ⟨rfl, hkey, hgen, kept, hkt, hix⟩
  obtain ⟨entry, he⟩ := h.scope?_storageScope hkt
  obtain rfl : kept = storage := ScopeId.ext ((scope?_eq_some he).1.trans hgen.symm) hix
  exact ⟨rfl, hkey, hkt⟩

theorem find?_eq_ok {entry : Scope} (hsto : table.storageScope scope = .ok storage)
    (he : table.scope? storage = some entry) (name : String) (rule : CaseRule) (accept : Symbol → Bool) :
    table.find? scope name rule accept = .ok ((table.fileOf storage (lowerCase name)).find? (table.fits name rule accept)) := by
  have hnmd : table.symbolsNamed scope name = .ok (table.fileOf storage (lowerCase name)) := by
    refine bind_eq_ok.mpr ⟨storage, hsto, bind_eq_ok.mpr ⟨entry, scope_eq_ok.mpr he, ?_⟩⟩
    rw [fileOf, he]
    rfl
  exact bind_eq_ok.mpr ⟨_, hnmd, rfl⟩

end SymbolTable

end SoftTyping
