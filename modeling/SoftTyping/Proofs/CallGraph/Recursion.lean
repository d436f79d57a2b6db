import SoftTyping.Proofs.CallGraph

/-!
# Functions that call each other

Whatever calls have been registered and forgotten, the graph holds those that have not been forgotten (`mem_callsOf_iff`), and
its edges lead from the callee to the caller. Main statement: the report on recursion has exactly the groups of functions that
call each other in a circle, and an order of the functions if there are calls and no such group (`recursion_exact`).
-/

namespace SoftTyping

open Relation OrderedMap

theorem OrderedMap.mem_keys_insert {κ α : Type} [DecidableEq κ] {map : OrderedMap κ α} {key other : κ} {value : α} :
    other ∈ (map.insert key value).keys ↔ other ∈ map.keys ∨ other = key := by
  rw [keys_insert]
  split <;> grind

namespace CallGraph

/-- What is done to a graph between two questions. -/
inductive Change where
  | register (caller : BodyId) (callee : SymbolId) (site : Nat)
  | forget (caller : BodyId)

/-- The graph after a change. -/
def apply (graph : CallGraph) : Change → CallGraph
  | .register caller callee site => graph.register caller callee site
  | .forget caller => graph.forgetCalls caller

/-- A call between two functions has been registered, and the calls of the caller have not been forgotten since. -/
def IsCalledBy (changes : List Change) (callee caller : SymbolId) : Prop :=
  ∃ before site after, changes = before ++ .register (.function caller) callee site :: after ∧
    .forget (.function caller) ∉ after

theorem isCalledBy_snoc {changes : List Change} {change : Change} {callee caller : SymbolId} :
    IsCalledBy (changes ++ [change]) callee caller ↔
      (∃ site, change = .register (.function caller) callee site) ∨ IsCalledBy changes callee caller ∧
        change ≠ .forget (.function caller) := by
  constructor
  · rintro ⟨before, site, after, hspl, haf⟩
    rcases List.eq_nil_or_concat after with rfl | ⟨after, last, rfl⟩
    · obtain ⟨rfl, heq⟩ := List.append_inj' hspl rfl
      cases heq
      exact .inl ⟨site, rfl⟩
    · rw [List.concat_eq_append, ← List.cons_append, ← List.append_assoc] at hspl
      obtain ⟨rfl, heq⟩ := List.append_inj' hspl rfl
      cases heq
      rw [List.concat_eq_append, List.mem_append, not_or, List.mem_singleton] at haf
      exact .inr ⟨⟨before, site, after, rfl, haf.1⟩, Ne.symm haf.2⟩
  · rintro (⟨site, rfl⟩ | ⟨⟨before, site, after, rfl, haf⟩, hne⟩)
    · exact ⟨changes, site, [], rfl, nofun⟩
    · exact ⟨before, site, after ++ [change], by simp, by simpa [haf] using Ne.symm hne⟩

/-- The graph holds the calls that have not been forgotten. -/
theorem mem_callsOf_iff (changes : List Change) (callee caller : SymbolId) :
    callee ∈ ((changes.foldl apply ∅).callsOf (.function caller)).keys ↔ IsCalledBy changes callee caller := by
  induction changes using List.reverseRecOn with
  | nil => exact ⟨nofun, fun ⟨before, site, after, hspl, _⟩ => by simp at hspl⟩
  | append_singleton changes change ih =>
    rw [List.foldl_append, List.foldl_cons, List.foldl_nil, isCalledBy_snoc, ← ih]
    generalize changes.foldl apply ∅ = graph
    cases change with
    | register other otherCallee site =>
      by_cases heq : other = .function caller
      · subst heq
        rw [apply, callsOf_register, insertItem, mem_keys_insert]
        simp [or_comm, eq_comm]
      · simp [apply, callsOf, register, get?_insert, heq]
    | forget other =>
      by_cases heq : other = .function caller <;> simp [apply, callsOf, forgetCalls, heq]

theorem mem_edges {graph : CallGraph} {callee caller : SymbolId} :
    (callee, caller) ∈ graph.edges ↔ callee ∈ (graph.callsOf (.function caller)).keys := by
  rw [edges, mem_sortBy, List.mem_flatMap, callsOf]
  constructor
  · rintro ⟨⟨body, callees⟩, he, hmem⟩
    cases body with
    | global => cases hmem
    | function function =>
      obtain ⟨_, hce, heq⟩ := List.mem_map.mp hmem
      cases heq
      rwa [get?_eq_some_iff.mpr he]
  · intro hmem
    cases hget : graph.calls.get? (.function caller) with
    | none =>
      rw [hget] at hmem
      cases hmem
    | some callees =>
      rw [hget] at hmem
      exact ⟨(.function caller, callees), get?_eq_some_iff.mp hget, List.mem_map.mpr ⟨callee, hmem, rfl⟩⟩

variable {edges : List (SymbolId × SymbolId)} {a b : SymbolId}

theorem mem_successors : b ∈ successors edges a ↔ (a, b) ∈ edges := by
  simp [successors]

theorem mem_endpoints : a ∈ endpoints edges ↔ ∃ b, b ∈ successors edges a ∨ a ∈ successors edges b := by
  simp only [endpoints, List.mem_eraseDups, List.mem_flatMap, List.mem_cons, List.not_mem_nil, or_false, mem_successors]
  constructor
  · rintro ⟨⟨callee, caller⟩, hed, rfl | rfl⟩
    · exact ⟨caller, .inl hed⟩
    · exact ⟨callee, .inr hed⟩
  · rintro ⟨b, hed | hed⟩
    · exact ⟨_, hed, .inl rfl⟩
    · exact ⟨_, hed, .inr rfl⟩

/-- One symbol comes before another. -/
def Before (a b : SymbolId) : Prop := a.le b = true ∧ a ≠ b

theorem before_iff : Before a b ↔ a.rank < b.rank := by
  rw [Before, SymbolId.le_iff, lt_iff_le_and_ne, SymbolId.rank_injective.ne_iff]

/-- The functions of some calls, sorted. -/
def functionsOf (edges : List (SymbolId × SymbolId)) : List SymbolId := sortBy SymbolId.le (endpoints edges)

theorem mem_functionsOf : a ∈ functionsOf edges ↔ a ∈ endpoints edges := mem_sortBy

theorem pairwise_functionsOf : (functionsOf edges).Pairwise Before := by
  have hsorted := pairwise_sortBy SymbolId.le_iff (endpoints edges)
  simp only [← SymbolId.le_iff] at hsorted
  exact hsorted.and ((perm_sortBy _ _).nodup_iff.mpr (nodup_eraseDups _))

theorem eq_of_pairwise_before {first second : List SymbolId} (h : first.Pairwise Before) (h' : second.Pairwise Before)
    (hmem : ∀ a, a ∈ first ↔ a ∈ second) : first = second := by
  refine List.Perm.eq_of_pairwise (fun _ _ _ _ hab hba => (lt_asymm (before_iff.mp hab) (before_iff.mp hba)).elim) h h' ?_
  exact (List.perm_ext_iff_of_nodup (h.imp And.right) (h'.imp And.right)).mpr hmem

theorem one_lt_length_iff {α : Type} {items : List α} {a : α} (hndp : items.Nodup) (ha : a ∈ items) :
    1 < items.length ↔ ∃ b ∈ items, b ≠ a := by
  match items with
  | [b] => simp [List.mem_singleton.mp ha]
  | b :: c :: rest =>
    refine iff_of_true (Nat.one_lt_succ_succ _) ?_
    by_cases heq : b = a
    · exact ⟨c, by simp, fun hc => by simp [heq, hc] at hndp⟩
    · exact ⟨b, by simp, heq⟩

/-- The groups of functions that call each other in a circle are the classes of functions that lead to each other, but for those
of one function that does not call itself. -/
theorem mem_groups {group : List SymbolId} :
    let Leads := ReflTransGen (Graph.Edge (successors edges))
    group ∈ Graph.cyclicGroups (successors edges) (functionsOf edges) ↔ group.Pairwise Before ∧
      (∃ a ∈ group, ∀ b, b ∈ group ↔ Leads a b ∧ Leads b a) ∧ (1 < group.length ∨ ∃ a ∈ group, a ∈ successors edges a) := by
  intro Leads
  have hnds : ∀ a b, b ∈ successors edges a → b ∈ functionsOf edges := fun a _ h =>
    mem_functionsOf.mpr (mem_endpoints.mpr ⟨a, .inr h⟩)
  have hclass : ∀ {a}, TransGen (Graph.Edge (successors edges)) a a → ∀ b,
      b ∈ Graph.groupOf (successors edges) (functionsOf edges) a ↔ Leads a b ∧ Leads b a := by
    intro a hcycle b
    rw [Graph.mem_groupOf hnds]
    refine and_iff_right_of_imp fun ⟨hto, _⟩ => ?_
    obtain ⟨c, _, hed⟩ := TransGen.tail'_iff.mp (hcycle.trans_left hto)
    exact hnds c b hed
  have hsorted : ∀ a, (Graph.groupOf (successors edges) (functionsOf edges) a).Pairwise Before := fun a =>
    pairwise_functionsOf.sublist List.filter_sublist
  rw [Graph.mem_cyclicGroups hnds]
  constructor
  · rintro ⟨a, ha, hcycle, rfl⟩
    have hself := (hclass hcycle a).mpr ⟨.refl, .refl⟩
    refine ⟨hsorted a, ⟨a, hself, hclass hcycle⟩, ?_⟩
    obtain ⟨b, hed, hback⟩ := TransGen.head'_iff.mp hcycle
    by_cases heq : b = a
    · exact .inr ⟨a, hself, heq ▸ hed⟩
    · have hoth := (hclass hcycle b).mpr ⟨.single hed, hback⟩
      exact .inl ((one_lt_length_iff ((hsorted a).imp And.right) hself).mpr ⟨b, hoth, heq⟩)
  · rintro ⟨hgroupSorted, ⟨a, ha, hgroup⟩, hcyclic⟩
    have hcycle : TransGen (Graph.Edge (successors edges)) a a := by
      rcases hcyclic with hlen | ⟨b, hb, hed⟩
      · obtain ⟨b, hb, hne⟩ := (one_lt_length_iff (hgroupSorted.imp And.right) ha).mp hlen
        obtain ⟨hto, hback⟩ := (hgroup b).mp hb
        exact ((reflTransGen_iff_eq_or_transGen.mp hto).resolve_left hne).trans_left hback
      · obtain ⟨hto, hback⟩ := (hgroup b).mp hb
        exact .trans_right hto (.head' hed hback)
    obtain ⟨b, _, hed⟩ := TransGen.tail'_iff.mp hcycle
    refine ⟨a, hnds b a hed, hcycle, eq_of_pairwise_before (hsorted a) hgroupSorted fun c => ?_⟩
    exact (hclass hcycle c).trans (hgroup c).symm

/-- What is reported of the calls between functions, after any registering and forgetting, is exact. The groups, each sorted and
all of them sorted, are the classes of functions that lead to each other, but for those of one function that does not call
itself. There is an order if and only if there are calls and no circles, and then it has each function of a call once, every
one before those that call it. -/
theorem recursion_exact (changes : List Change) :
    let report := (changes.foldl apply ∅).recursion
    let called := IsCalledBy changes
    (∀ group, group ∈ report.groups ↔ group.Pairwise Before ∧
        (∃ a ∈ group, ∀ b, b ∈ group ↔ ReflTransGen called a b ∧ ReflTransGen called b a) ∧
        (1 < group.length ∨ ∃ a ∈ group, called a a)) ∧
      report.groups.Pairwise (List.Lex Before) ∧
      (report.order ≠ [] ↔ (∃ callee caller, called callee caller) ∧ ∀ a, ¬ TransGen called a a) ∧
      (report.order ≠ [] → report.order.Nodup ∧ (∀ a, a ∈ report.order ↔ ∃ b, called a b ∨ called b a) ∧
        ∀ callee caller, called callee caller → [callee, caller].Sublist report.order) := by
  intro report called
  have hcalled : called = Graph.Edge (successors (changes.foldl apply ∅).edges) :=
    funext₂ fun callee caller => propext (by rw [Graph.Edge, mem_successors, mem_edges, mem_callsOf_iff])
  clear_value called
  subst hcalled
  revert report
  generalize changes.foldl apply ∅ = graph
  intro report
  have hnds : ∀ a b, b ∈ successors graph.edges a → b ∈ endpoints graph.edges := fun a _ h => mem_endpoints.mpr ⟨a, .inr h⟩
  refine ⟨fun group => mem_groups, ?_, ?_⟩
  · refine Graph.pairwise_cyclicGroups (fun a b h => mem_functionsOf.mpr (hnds a b h)) ?_ ?_ pairwise_functionsOf
    · exact fun _ _ _ hab hbc => before_iff.mpr ((before_iff.mp hab).trans (before_iff.mp hbc))
    · exact fun a h => h.2 rfl
  by_cases hacyclic : ∀ a, ¬ TransGen (Graph.Edge (successors graph.edges)) a a
  · obtain ⟨hndp, hmem, hfwd⟩ := Graph.topological_of_acyclic hnds hacyclic
    simp only [mem_endpoints] at hmem hfwd
    refine ⟨⟨fun hne => ⟨?_, hacyclic⟩, fun ⟨⟨callee, caller, hed⟩, _⟩ => ?_⟩, fun _ =>
      ⟨hndp, hmem, fun callee caller hed => ?_⟩⟩
    · obtain ⟨a, ha⟩ := List.exists_mem_of_ne_nil _ hne
      obtain ⟨b, hed | hed⟩ := (hmem a).mp ha
      · exact ⟨a, b, hed⟩
      · exact ⟨b, a, hed⟩
    · exact List.ne_nil_of_mem ((hmem callee).mpr ⟨caller, .inl hed⟩)
    · exact hfwd callee ⟨caller, .inl hed⟩ caller hed
  · obtain ⟨a, hcycle⟩ := not_forall_not.mp hacyclic
    obtain ⟨b, _, hed⟩ := TransGen.tail'_iff.mp hcycle
    have hnil : report.order = [] := Graph.topological_of_cycle hnds (hnds b a hed) hcycle
    exact ⟨⟨fun hne => absurd hnil hne, fun ⟨_, hno⟩ => absurd hcycle (hno a)⟩, fun hne => absurd hnil hne⟩

end CallGraph

end SoftTyping
