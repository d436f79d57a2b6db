import Mathlib.Data.List.Sort
import Mathlib.Data.Prod.Lex
import Mathlib.Order.WithBot
import SoftTyping.CallGraph
import SoftTyping.Proofs.Graph.Order
import SoftTyping.Proofs.Solver.Judgement

/-!
# Registering calls one map at a time

Registering a call updates three maps, one after the other (`register_eq`). Updates that bodies make may come in any order
as long as those of each body stay in theirs: two graphs that differ in the order of their keys and of their sets are alike
(`Alike`), updates of different bodies commute up to that (`Alike.update_comm`), and graphs that are alike answer every
question alike (`Alike.sameAnswers`). So any way to interleave what some bodies do leaves a graph that answers like the one
that they leave one after another (`alike_of_interleaves`).
-/

namespace SoftTyping

open OrderedMap

variable {α : Type}

/-! ## Orders of handles -/

/-- Where a symbol stands among the others. -/
def SymbolId.rank (id : SymbolId) : ℕ ×ₗ ℕ := toLex (id.generation.toNat, id.index)

theorem SymbolId.rank_injective : Function.Injective rank := by
  rintro ⟨generation, index⟩ ⟨generation', index'⟩ h
  obtain ⟨hgen, hix⟩ := Prod.mk.inj (toLex.injective h)
  exact congrArg₂ mk (UInt32.toNat_inj.mp hgen) hix

theorem SymbolId.le_iff (a b : SymbolId) : a.le b = true ↔ a.rank ≤ b.rank := by
  simp [le, rank, Prod.Lex.toLex_le_toLex, UInt32.lt_iff_toNat_lt, ← UInt32.toNat_inj]

/-- Where a body stands among the others. -/
def BodyId.rank : BodyId → WithBot (ℕ ×ₗ ℕ)
  | .global => ⊥
  | .function id => id.rank

theorem BodyId.rank_injective : Function.Injective rank := by
  rintro (_ | id) (_ | id') h
  · rfl
  · nomatch h
  · nomatch h
  · exact congrArg function (SymbolId.rank_injective (WithBot.coe_injective h))

theorem BodyId.le_iff (a b : BodyId) : a.le b = true ↔ a.rank ≤ b.rank := by
  cases a <;> cases b
  case function.function a b => exact (SymbolId.le_iff a b).trans WithBot.coe_le_coe.symm
  all_goals simp [le, rank]

section

variable {β : Type} [LinearOrder β] {rank : α → β} {le : α → α → Bool} {items items' : List α}

theorem sortBy_eq_insertionSort (items : List α) : sortBy le items = items.insertionSort (le · · = true) := by
  have hinsert (item : α) (sorted : List α) : insertBy le item sorted = sorted.orderedInsert (le · · = true) item := by
    induction sorted with
    | nil => rfl
    | cons other rest ih => rw [insertBy, ih, List.orderedInsert_cons]
  exact congrArg (items.foldr · []) (funext₂ hinsert)

theorem perm_sortBy (le : α → α → Bool) (items : List α) : (sortBy le items).Perm items := by
  rw [sortBy_eq_insertionSort]
  exact List.perm_insertionSort _ _

theorem mem_sortBy {item : α} : item ∈ sortBy le items ↔ item ∈ items := (perm_sortBy le items).mem_iff

variable (hle : ∀ a b, le a b = true ↔ rank a ≤ rank b)

include hle

/-- A list is sorted by the places of its items. -/
theorem pairwise_sortBy (items : List α) : (sortBy le items).Pairwise fun a b => rank a ≤ rank b := by
  have : IsTrans α (le · · = true) := ⟨fun a b c hab hbc => (hle a c).mpr (((hle a b).mp hab).trans ((hle b c).mp hbc))⟩
  have : Std.Total fun a b : α => le a b = true := ⟨fun a b => by
    rw [hle, hle]
    exact le_total _ _⟩
  rw [sortBy_eq_insertionSort]
  exact (List.pairwise_insertionSort _ items).imp fun h => (hle _ _).mp h

/-- Sorting forgets the order of a list. -/
theorem sortBy_eq_of_perm (hinj : Function.Injective rank) (h : items.Perm items') : sortBy le items = sortBy le items' := by
  have hperm : (sortBy le items).Perm (sortBy le items') :=
    (perm_sortBy le items).trans (h.trans (perm_sortBy le items').symm)
  exact hperm.eq_of_pairwise (fun _ _ _ _ hab hba => hinj (le_antisymm hab hba)) (pairwise_sortBy hle items)
    (pairwise_sortBy hle items')

end

/-! ## Maps and sets up to order -/

theorem OrderedMap.perm_entries {κ : Type} [DecidableEq κ] {first second : OrderedMap κ α}
    (h : ∀ key, first.get? key = second.get? key) : first.entries.Perm second.entries := by
  refine (List.perm_ext_iff_of_nodup (List.Nodup.of_map _ first.nodup) (List.Nodup.of_map _ second.nodup)).mpr fun entry => ?_
  rw [← get?_eq_some_iff, ← get?_eq_some_iff, h]

theorem includeOnce_perm [BEq α] [LawfulBEq α] {items items' : List α} (h : items.Perm items') (item : α) :
    (includeOnce items item).Perm (includeOnce items' item) := by
  unfold includeOnce
  rw [h.contains_eq]
  split
  · exact h
  · exact h.append_right [item]

theorem includeOnce_comm [BEq α] [LawfulBEq α] (items : List α) (first second : α) :
    (includeOnce (includeOnce items first) second).Perm (includeOnce (includeOnce items second) first) := by
  by_cases hsm : first = second
  · rw [hsm]
  · -- Whether one is there already does not depend on the other, so at most the order of the two at the end differs.
    unfold includeOnce
    by_cases hfst : items.contains first = true <;> by_cases hsnd : items.contains second = true <;>
      simp_all [List.perm_append_left_iff, List.Perm.swap, Ne.symm]

namespace OrderedMap

variable {κ α : Type} [DecidableEq κ] [BEq α] {map map' : OrderedMap κ (List α)} {key other : κ} {item : α}

/-- The map with one more item in the set of a key. -/
def insertItem (map : OrderedMap κ (List α)) (key : κ) (item : α) : OrderedMap κ (List α) :=
  map.insert key (includeOnce ((map.get? key).getD []) item)

/-- The items of a key. -/
def itemsOf (map : OrderedMap κ (List α)) (key : κ) : List α := (map.get? key).getD []

theorem itemsOf_insertItem : (map.insertItem key item).itemsOf other =
    if key = other then includeOnce (map.itemsOf key) item else map.itemsOf other := by
  unfold itemsOf insertItem
  rw [get?_insert]
  split <;> rfl

theorem mem_itemsOf_insertItem [LawfulBEq α] {item' : α} :
    item' ∈ (map.insertItem key item).itemsOf other ↔ item' ∈ map.itemsOf other ∨ key = other ∧ item' = item := by
  rw [itemsOf_insertItem]
  split
  · next hkey => rw [mem_includeOnce_iff, hkey, and_iff_right rfl]
  · next hkey => rw [or_iff_left fun h => hkey h.1]

theorem insert_of_get? {β : Type} {map : OrderedMap κ β} {value : β} (h : map.get? key = some value) :
    map.insert key value = map := by
  have hes : ∀ entries : List (κ × β), lookupEntry key entries = some value → insertEntry key value entries = entries := by
    intro entries hlookup
    induction entries with
    | nil => nomatch hlookup
    | cons entry rest ih => grind [lookupEntry, insertEntry]
  obtain ⟨entries, nodup⟩ := map
  exact mk.injEq .. ▸ hes entries h

theorem insertItem_of_mem [LawfulBEq α] (h : item ∈ map.itemsOf key) : map.insertItem key item = map := by
  have hso : map.get? key = some (map.itemsOf key) := by
    unfold itemsOf at h ⊢
    cases hget : map.get? key with
    | none => rw [hget] at h; nomatch h
    | some items => rfl
  have hsm : includeOnce (map.itemsOf key) item = map.itemsOf key := if_pos (List.contains_iff_mem.mpr h)
  unfold insertItem
  rw [show (map.get? key).getD [] = map.itemsOf key from rfl, hsm]
  exact insert_of_get? hso

theorem perm_insertItem [LawfulBEq α] (h : ∀ key, (map.itemsOf key).Perm (map'.itemsOf key)) (key : κ) (item : α)
    (other : κ) : ((map.insertItem key item).itemsOf other).Perm ((map'.insertItem key item).itemsOf other) := by
  rw [itemsOf_insertItem, itemsOf_insertItem]
  split
  · exact includeOnce_perm (h key) item
  · exact h other

theorem perm_insertItem_comm [LawfulBEq α] (map : OrderedMap κ (List α)) (key key' : κ) (item item' : α) (other : κ) :
    (((map.insertItem key item).insertItem key' item').itemsOf other).Perm
      (((map.insertItem key' item').insertItem key item).itemsOf other) := by
  simp only [itemsOf_insertItem]
  by_cases hks : key = key'
  · subst hks
    simp only [if_true]
    split
    · exact includeOnce_comm _ item item'
    · exact .refl _
  · rw [if_neg hks, if_neg (Ne.symm hks)]
    split <;> split
    · exact absurd (‹key = other›.trans ‹key' = other›.symm) hks
    all_goals rfl

end OrderedMap

namespace CallGraph

variable {graph first second third : CallGraph} {call : SymbolId × Nat} {change : Update} {changes : List Update}

/-! ## The updates of one registration -/

/-- An update of one of the maps of the graph. -/
inductive Update where
  /-- A function has called a function. -/
  | calls (callee function : SymbolId)
  /-- A body waits for a function. -/
  | waits (callee : SymbolId) (caller : BodyId)
  /-- A body calls a function at a place. -/
  | site (caller : BodyId) (callee : SymbolId) (site : Nat)

/-- The body that makes an update. -/
def Update.caller : Update → BodyId
  | calls _ function => .function function
  | waits _ caller => caller
  | site caller _ _ => caller

/-- The graph with one of its maps updated. -/
def update (graph : CallGraph) : Update → CallGraph
  | .calls callee function => { graph with callers := graph.callers.insertItem callee function }
  | .waits callee caller => { graph with waiting := graph.waiting.insertItem callee caller }
  | .site caller callee site => { graph with
      calls := graph.calls.insert caller ((graph.callsOf caller).insertItem callee site) }

/-- The updates by which a body registers a call, in order. -/
def updatesOf (caller : BodyId) (call : SymbolId × Nat) : List Update :=
  (caller.function?.map (.calls call.1)).toList ++ [.waits call.1 caller, .site caller call.1 call.2]

theorem register_eq (graph : CallGraph) (caller : BodyId) (call : SymbolId × Nat) :
    graph.register caller call.1 call.2 = (updatesOf caller call).foldl update graph := by
  cases caller <;> rfl

theorem registerAll_eq (graph : CallGraph) (caller : BodyId) (calls : List (SymbolId × Nat)) :
    graph.registerAll caller calls = (calls.flatMap (updatesOf caller)).foldl update graph := by
  unfold registerAll
  rw [List.foldl_flatMap]
  simp only [register_eq]

theorem caller_of_mem_updatesOf {caller : BodyId} (h : change ∈ updatesOf caller call) : change.caller = caller := by
  cases caller <;> simp only [updatesOf, BodyId.function?, Option.map_none, Option.map_some, Option.toList_none,
    Option.toList_some, List.nil_append, List.singleton_append, List.mem_cons, List.not_mem_nil, or_false] at h
  · rcases h with rfl | rfl <;> rfl
  · rcases h with rfl | rfl | rfl <;> rfl

/-! ## Registering calls again -/

/-- A call of a body is registered in all three maps. -/
structure Registered (graph : CallGraph) (caller : BodyId) (call : SymbolId × Nat) : Prop where
  calls : ∀ function, caller.function? = some function → function ∈ graph.callers.itemsOf call.1
  waits : caller ∈ graph.waiting.itemsOf call.1
  site : call.2 ∈ (graph.callsOf caller).itemsOf call.1

theorem callers_register (graph : CallGraph) (caller : BodyId) (callee : SymbolId) (site : Nat) :
    (graph.register caller callee site).callers =
      caller.function?.elim graph.callers (graph.callers.insertItem callee) := by
  cases caller <;> rfl

theorem callsOf_register (graph : CallGraph) (caller : BodyId) (callee : SymbolId) (site : Nat) :
    (graph.register caller callee site).callsOf caller = (graph.callsOf caller).insertItem callee site := by
  rw [callsOf, register, get?_insert, if_pos rfl]
  rfl

theorem registered_register (graph : CallGraph) (caller : BodyId) (call : SymbolId × Nat) :
    (graph.register caller call.1 call.2).Registered caller call where
  calls := fun function hfn => by
    rw [callers_register, hfn]
    exact mem_itemsOf_insertItem.mpr (.inr ⟨rfl, rfl⟩)
  waits := mem_itemsOf_insertItem.mpr (.inr ⟨rfl, rfl⟩)
  site := by
    rw [callsOf_register]
    exact mem_itemsOf_insertItem.mpr (.inr ⟨rfl, rfl⟩)

theorem Registered.register {caller : BodyId} (h : graph.Registered caller call)
    (other : SymbolId × Nat) : (graph.register caller other.1 other.2).Registered caller call where
  calls := fun function hfn => by
    rw [callers_register, hfn]
    exact mem_itemsOf_insertItem.mpr (.inl (h.calls function hfn))
  waits := mem_itemsOf_insertItem.mpr (.inl h.waits)
  site := by
    rw [callsOf_register]
    exact mem_itemsOf_insertItem.mpr (.inl h.site)

theorem Registered.register_self {caller : BodyId} (h : graph.Registered caller call) :
    graph.register caller call.1 call.2 = graph := by
  have hcallers : (graph.register caller call.1 call.2).callers = graph.callers := by
    rw [callers_register]
    cases hfn : caller.function? with
    | none => rfl
    | some function => exact insertItem_of_mem (h.calls function hfn)
  have hwt : (graph.register caller call.1 call.2).waiting = graph.waiting := insertItem_of_mem h.waits
  have hcs : (graph.register caller call.1 call.2).calls = graph.calls := by
    have hso : graph.calls.get? caller = some (graph.callsOf caller) := by
      have hsi := h.site
      unfold callsOf at hsi ⊢
      cases hget : graph.calls.get? caller with
      | none => rw [hget] at hsi; nomatch hsi
      | some callees => rfl
    change graph.calls.insert caller ((graph.callsOf caller).insertItem call.1 call.2) = graph.calls
    rw [insertItem_of_mem h.site, insert_of_get? hso]
  calc graph.register caller call.1 call.2
      = ⟨(graph.register caller call.1 call.2).callers, (graph.register caller call.1 call.2).waiting,
          (graph.register caller call.1 call.2).calls⟩ := rfl
    _ = graph := by rw [hcallers, hwt, hcs]

theorem Registered.registerAll_filter {caller : BodyId} (h : graph.Registered caller call) (calls : List (SymbolId × Nat)) :
    graph.registerAll caller (calls.filter fun other => !other == call) = graph.registerAll caller calls := by
  induction calls generalizing graph with
  | nil => rfl
  | cons first rest ih =>
    rw [List.filter_cons]
    split
    · exact ih (h.register first)
    · next hsm =>
      have hsm : first = call := by simpa using hsm
      rw [hsm, ih h]
      exact (congrArg (registerAll · caller rest) h.register_self).symm

theorem registerAll_eraseDups (graph : CallGraph) (caller : BodyId) (calls : List (SymbolId × Nat)) :
    graph.registerAll caller calls.eraseDups = graph.registerAll caller calls := by
  match calls with
  | [] => rfl
  | first :: rest =>
    rw [List.eraseDups_cons]
    have hrs := registerAll_eraseDups (graph.register caller first.1 first.2) caller (rest.filter fun other => !other == first)
    exact hrs.trans ((registered_register graph caller first).registerAll_filter rest)
termination_by calls.length
decreasing_by exact Nat.lt_succ_of_le (List.length_filter_le ..)

/-! ## Graphs that are alike -/

/-- Two graphs hold the same, apart from the order of keys and of sets. -/
structure Alike (first second : CallGraph) : Prop where
  callers : ∀ callee, (first.callers.itemsOf callee).Perm (second.callers.itemsOf callee)
  waiting : ∀ callee, (first.waiting.itemsOf callee).Perm (second.waiting.itemsOf callee)
  calls : ∀ caller, first.calls.get? caller = second.calls.get? caller

theorem Alike.refl (graph : CallGraph) : graph.Alike graph := ⟨fun _ => .refl _, fun _ => .refl _, fun _ => rfl⟩

section

variable (h : first.Alike second)

include h

theorem Alike.symm : second.Alike first :=
  ⟨fun callee => (h.callers callee).symm, fun callee => (h.waiting callee).symm, fun caller => (h.calls caller).symm⟩

theorem Alike.trans (h' : second.Alike third) : first.Alike third :=
  ⟨fun callee => (h.callers callee).trans (h'.callers callee), fun callee => (h.waiting callee).trans (h'.waiting callee),
    fun caller => (h.calls caller).trans (h'.calls caller)⟩

theorem Alike.callsOf (caller : BodyId) : first.callsOf caller = second.callsOf caller := by
  rw [CallGraph.callsOf, h.calls, CallGraph.callsOf]

theorem Alike.update (change : Update) : (first.update change).Alike (second.update change) := by
  obtain ⟨callee, function⟩ | ⟨callee, caller⟩ | ⟨caller, callee, site⟩ := change
  · exact ⟨perm_insertItem h.callers callee function, h.waiting, h.calls⟩
  · exact ⟨h.callers, perm_insertItem h.waiting callee caller, h.calls⟩
  · refine ⟨h.callers, h.waiting, fun other => ?_⟩
    simp only [CallGraph.update, get?_insert, h.callsOf, h.calls]

theorem Alike.foldl_update (changes : List Update) :
    (changes.foldl CallGraph.update first).Alike (changes.foldl CallGraph.update second) := by
  induction changes generalizing first second with
  | nil => exact h
  | cons change rest ih => exact ih (h.update change)

theorem Alike.registerAll (caller : BodyId) (calls : List (SymbolId × Nat)) :
    (first.registerAll caller calls).Alike (second.registerAll caller calls) := by
  rw [registerAll_eq, registerAll_eq]
  exact h.foldl_update _

theorem Alike.forgetCalls (caller : BodyId) : (first.forgetCalls caller).Alike (second.forgetCalls caller) := by
  refine ⟨h.callers, h.waiting, fun other => ?_⟩
  simp only [CallGraph.forgetCalls, get?_erase, h.calls]

theorem Alike.release (callee : SymbolId) : (first.release callee).Alike (second.release callee) := by
  refine ⟨h.callers, fun other => ?_, h.calls⟩
  simp only [CallGraph.release, itemsOf, get?_erase]
  split
  · exact .refl _
  · exact h.waiting other

end

/-! ## What graphs answer -/

/-- Two graphs answer every question alike, also when those who wait for some functions have been released. -/
structure SameAnswers (first second : CallGraph) : Prop where
  callsOf : ∀ caller, first.callsOf caller = second.callsOf caller
  callersOf : ∀ callee, first.callersOf callee = second.callersOf callee
  waitingFor : ∀ (released : List SymbolId) (callee : SymbolId), (released.foldl CallGraph.release first).waitingFor callee =
    (released.foldl CallGraph.release second).waitingFor callee
  recursion : first.recursion = second.recursion

theorem edgeLe_iff (a b : SymbolId × SymbolId) :
    edgeLe a b = true ↔ toLex (a.map SymbolId.rank SymbolId.rank) ≤ toLex (b.map SymbolId.rank SymbolId.rank) := by
  rw [edgeLe, Prod.Lex.toLex_le_toLex]
  split
  · next h => simp [h, SymbolId.le_iff]
  · next h => simp [lt_iff_le_and_ne, SymbolId.rank_injective.ne h, SymbolId.le_iff]

theorem Alike.waitingFor (h : first.Alike second) (callee : SymbolId) :
    first.waitingFor callee = second.waitingFor callee :=
  sortBy_eq_of_perm BodyId.le_iff BodyId.rank_injective (h.waiting callee)

theorem Alike.edges (h : first.Alike second) : first.edges = second.edges :=
  sortBy_eq_of_perm edgeLe_iff (toLex.injective.comp (SymbolId.rank_injective.prodMap SymbolId.rank_injective))
    ((perm_entries h.calls).flatMap_right _)

theorem Alike.recursion (h : first.Alike second) : first.recursion = second.recursion := by
  rw [CallGraph.recursion, h.edges, CallGraph.recursion]

theorem Alike.sameAnswers (h : first.Alike second) : first.SameAnswers second where
  callsOf := h.callsOf
  callersOf := fun callee => sortBy_eq_of_perm SymbolId.le_iff SymbolId.rank_injective (h.callers callee)
  waitingFor := fun released callee => by
    induction released generalizing first second with
    | nil => exact h.waitingFor callee
    | cons id rest ih => exact ih (h.release id)
  recursion := h.recursion

/-! ## Updates in another order -/

theorem alike_update_comm (graph : CallGraph) {other : Update} (hne : change.caller ≠ other.caller) :
    ((graph.update change).update other).Alike ((graph.update other).update change) := by
  obtain ⟨callee, function⟩ | ⟨callee, caller⟩ | ⟨caller, callee, site⟩ := change <;>
    obtain ⟨callee', function'⟩ | ⟨callee', caller'⟩ | ⟨caller', callee', site'⟩ := other
  -- Updates of different maps commute as they are.
  case calls.calls => exact ⟨perm_insertItem_comm _ _ _ _ _, fun _ => .refl _, fun _ => rfl⟩
  case waits.waits => exact ⟨fun _ => .refl _, perm_insertItem_comm _ _ _ _ _, fun _ => rfl⟩
  case site.site =>
    have hne : caller ≠ caller' := hne
    refine ⟨fun _ => .refl _, fun _ => .refl _, fun key => ?_⟩
    simp only [update, callsOf, get?_insert, if_neg hne, if_neg hne.symm]
    split <;> split
    · exact absurd (‹caller' = key›.trans ‹caller = key›.symm).symm hne
    all_goals rfl
  all_goals exact .refl _

theorem alike_update_first (graph : CallGraph) (h : ∀ other ∈ changes, other.caller ≠ change.caller) :
    ((changes.foldl update graph).update change).Alike (changes.foldl update (graph.update change)) := by
  induction changes generalizing graph with
  | nil => exact .refl _
  | cons first rest ih =>
    refine (ih (graph.update first) fun other hoth => h other (List.mem_cons_of_mem _ hoth)).trans ?_
    exact (alike_update_comm graph (h first List.mem_cons_self)).foldl_update rest

theorem alike_append_comm (graph : CallGraph) {changes' : List Update}
    (h : ∀ change ∈ changes, ∀ other ∈ changes', change.caller ≠ other.caller) :
    ((changes ++ changes').foldl update graph).Alike ((changes' ++ changes).foldl update graph) := by
  induction changes' generalizing graph with
  | nil => rw [List.append_nil]; exact .refl _
  | cons first rest ih =>
    have hfst := alike_update_first graph fun change hchg => h change hchg first List.mem_cons_self
    have hrs := ih (graph.update first) fun change hchg other hoth =>
      h change hchg other (List.mem_cons_of_mem _ hoth)
    rw [List.foldl_append, List.foldl_cons]
    refine (hfst.foldl_update rest).trans ?_
    rw [← List.foldl_append]
    exact hrs

/-- Bodies that make their updates one after another may do so in any order. -/
theorem alike_of_perm (program : BodyId → List Update) (hprg : ∀ body, ∀ change ∈ program body, change.caller = body)
    {bodies bodies' : List BodyId} (h : bodies.Perm bodies') (hndp : bodies.Nodup) (graph : CallGraph) :
    ((bodies.flatMap program).foldl update graph).Alike ((bodies'.flatMap program).foldl update graph) := by
  induction h generalizing graph with
  | nil => exact .refl _
  | cons body _ ih =>
    rw [List.flatMap_cons, List.flatMap_cons, List.foldl_append, List.foldl_append]
    exact ih (List.nodup_cons.mp hndp).2 _
  | swap first second rest =>
    have hne : second ≠ first := fun heq => (List.nodup_cons.mp hndp).1 (heq ▸ List.mem_cons_self)
    have hcomm : ((program second ++ program first).foldl update graph).Alike
        ((program first ++ program second).foldl update graph) := by
      refine alike_append_comm graph fun change hchg other hoth => ?_
      rw [hprg second change hchg, hprg first other hoth]
      exact hne
    simp only [List.flatMap_cons, List.foldl_append] at hcomm ⊢
    exact hcomm.foldl_update _
  | trans h _ ih ih' => exact (ih hndp graph).trans (ih' (h.nodup_iff.mp hndp) graph)

/-! ## Updates at the same time -/

end CallGraph

/-- A list is made of others by taking, time and again, the first item of one of them. -/
inductive Interleaves {α : Type} : List (List α) → List α → Prop where
  | done {lists : List (List α)} : (∀ items ∈ lists, items = []) → Interleaves lists []
  | take {before after : List (List α)} {item : α} {rest merged : List α} :
    Interleaves (before ++ rest :: after) merged → Interleaves (before ++ (item :: rest) :: after) (item :: merged)

namespace CallGraph

/-- However the updates of workers that solve different bodies are interleaved, they leave a graph like the one that the
workers leave one after another. -/
theorem alike_of_interleaves {programs : List (List Update)} {merged : List Update} (h : Interleaves programs merged)
    (hap : programs.Pairwise fun first second => ∀ change ∈ first, ∀ other ∈ second, change.caller ≠ other.caller)
    (graph : CallGraph) : (merged.foldl update graph).Alike (programs.flatten.foldl update graph) := by
  induction h generalizing graph with
  | done hem =>
    rw [List.flatten_eq_nil_iff.mpr hem]
    exact .refl _
  | @take before after change rest merged _ ih =>
    obtain ⟨hbef, hoths, hacross⟩ := List.pairwise_append.mp hap
    obtain ⟨hone, haf⟩ := List.pairwise_cons.mp hoths
    have hfst : ∀ other ∈ before.flatten, other.caller ≠ change.caller := by
      intro other hoth
      obtain ⟨program, hprg, hoth⟩ := List.mem_flatten.mp hoth
      exact hacross program hprg _ List.mem_cons_self other hoth change List.mem_cons_self
    have hrs : (before ++ rest :: after).Pairwise
        fun first second => ∀ change ∈ first, ∀ other ∈ second, change.caller ≠ other.caller := by
      refine List.pairwise_append.mpr ⟨hbef, List.pairwise_cons.mpr ⟨fun program hprg change hchg =>
        hone program hprg change (List.mem_cons_of_mem _ hchg), haf⟩, ?_⟩
      intro program hprg program' hprg' change hchg other hoth
      rcases List.mem_cons.mp hprg' with rfl | hprg'
      · exact hacross program hprg _ List.mem_cons_self change hchg other (List.mem_cons_of_mem _ hoth)
      · exact hacross program hprg program' (List.mem_cons_of_mem _ hprg') change hchg other hoth
    refine (ih hrs (graph.update change)).trans ?_
    simp only [List.flatten_append, List.flatten_cons, List.foldl_append, List.foldl_cons]
    exact ((alike_update_first graph hfst).symm.foldl_update rest).foldl_update _

end CallGraph

end SoftTyping
