import Mathlib.Data.Finset.Card
import Mathlib.Data.List.Nodup
import Mathlib.Logic.Relation
import SoftTyping.Graph.Order
import SoftTyping.Proofs.Graph

/-!
# Cycles and orders

A node is found on a cycle exactly if it reaches itself along some edges (`onCycle_iff`), and the cyclic groups are the
classes of such nodes that reach each other (`mem_cyclicGroups`). Without cycles, the search finishes a node behind all that it
leads to (`Finished`), so that the reverse of the order in which nodes are finished is one in which every edge points forward
(`topological_of_acyclic`).
-/

namespace SoftTyping

theorem pairwise_eraseDups {β : Type} [BEq β] [LawfulBEq β] {R : β → β → Prop} {items : List β}
    (h : ∀ before item after, items = before ++ item :: after → item ∉ before → ∀ other ∈ before, R other item) :
    items.eraseDups.Pairwise R := by
  induction items using List.reverseRecOn with
  | nil => exact .nil
  | append_singleton items item ih =>
    have hitems := ih fun before other after hspl => h before other (after ++ [item]) (by simp [hspl])
    rw [List.eraseDups_append]
    by_cases hmem : item ∈ items
    · simpa [List.removeAll, hmem] using hitems
    · have hone : ([item].removeAll items).eraseDups = [item] := by simp [List.removeAll, hmem, List.eraseDups_cons]
      rw [hone]
      refine List.pairwise_append.mpr ⟨hitems, List.pairwise_singleton _ _, fun other hoth last hls => ?_⟩
      rw [List.mem_singleton.mp hls]
      exact h items item [] rfl hmem other (List.mem_eraseDups.mp hoth)

theorem nodup_eraseDups {α : Type} [BEq α] [LawfulBEq α] (items : List α) : items.eraseDups.Nodup :=
  pairwise_eraseDups fun _ _ _ _ hnew _ hoth heq => hnew (heq ▸ hoth)

namespace Graph

open Relation

variable {α : Type} {next : α → List α} {nodes finished : List α} {a b : α}

/-- An edge of a graph. -/
abbrev Edge (next : α → List α) (a b : α) : Prop := b ∈ next a

theorem reflTransGen_iff_path : ReflTransGen (Edge next) a b ↔ ∃ n, Path next n a b := by
  constructor
  · intro h
    induction h with
    | refl => exact ⟨0, .refl a⟩
    | tail _ edge ih => exact ih.imp' (· + 1) fun _ path => path.snoc edge
  · rintro ⟨n, path⟩
    induction path with
    | refl => exact .refl
    | step edge _ ih => exact .head edge ih

/-! ## Finishing nodes -/

/-- Nodes that have been finished, each behind those that it leads to. -/
structure Finished (next : α → List α) (nodes finished : List α) : Prop where
  nodup : finished.Nodup
  subset : finished ⊆ nodes
  behind : ∀ a ∈ finished, ∀ b ∈ next a, [b, a].Sublist finished

theorem Finished.snoc (h : Finished next nodes finished) (ha : a ∈ nodes) (hnew : a ∉ finished) (hnx : next a ⊆ finished) :
    Finished next nodes (finished ++ [a]) where
  nodup := h.nodup.append (List.nodup_singleton a) (by simpa using hnew)
  subset := List.append_subset.mpr ⟨h.subset, by simpa using ha⟩
  behind := by
    intro c hc b hb
    rcases List.mem_append.mp hc with hc | hc
    · exact (h.behind c hc b hb).trans (List.sublist_append_left _ _)
    · obtain rfl := List.mem_singleton.mp hc
      exact (List.singleton_sublist.mpr (hnx hb)).append (.refl [c])

/-- What finishing some nodes does: more nodes are finished, all of a rank below some number. -/
structure Finishes (next : α → List α) (nodes : List α) (rank : α → Nat) (limit : Nat) (before after : List α) : Prop where
  finished : Finished next nodes after
  subset : before ⊆ after
  rank_lt : ∀ a ∈ after, a ∈ before ∨ rank a < limit

theorem finishes_foldl {rank : α → Nat} {limit : Nat} {finish : List α → α → List α} (items : List α)
    (hfinish : ∀ finished, Finished next nodes finished → ∀ a ∈ items,
      Finishes next nodes rank limit finished (finish finished a) ∧ a ∈ finish finished a)
    (h : Finished next nodes finished) :
    Finishes next nodes rank limit finished (items.foldl finish finished) ∧ items ⊆ items.foldl finish finished := by
  induction items generalizing finished with
  | nil => exact ⟨⟨h, List.Subset.refl _, fun _ => .inl⟩, nofun⟩
  | cons a items ih =>
    obtain ⟨hfst, ha⟩ := hfinish finished h a List.mem_cons_self
    obtain ⟨hrs, hitems⟩ := ih (fun finished h b hb => hfinish finished h b (List.mem_cons_of_mem _ hb)) hfst.finished
    refine ⟨⟨hrs.finished, fun b hb => hrs.subset (hfst.subset hb), fun b hb => ?_⟩,
      List.cons_subset.mpr ⟨hrs.subset ha, hitems⟩⟩
    exact (hrs.rank_lt b hb).elim (hfst.rank_lt b) .inr

variable [DecidableEq α]

/-- Where every edge leads to a lower rank, a search that is deeper than the rank of a node finishes it. -/
theorem finishes_finish {rank : α → Nat} {depth limit : Nat} (hnds : ∀ a b, b ∈ next a → b ∈ nodes)
    (hrank : ∀ a b, b ∈ next a → rank b < rank a) (ha : a ∈ nodes) (hdepth : rank a < depth) (hlimit : rank a < limit)
    (h : Finished next nodes finished) :
    Finishes next nodes rank limit finished (finish next depth finished a) ∧ a ∈ finish next depth finished a := by
  induction depth generalizing a limit finished with
  | zero => nomatch hdepth
  | succ depth ih =>
    rw [finish]
    split
    · next hmem => exact ⟨⟨h, List.Subset.refl _, fun _ => .inl⟩, hmem⟩
    · next hmem =>
      -- What is finished on the way has a lower rank than the node, which is thus not among it.
      obtain ⟨hrs, hnx⟩ := finishes_foldl (next a) (fun finished h b hb => ih (hnds a b hb)
        (Nat.lt_of_lt_of_le (hrank a b hb) (Nat.le_of_lt_succ hdepth)) (hrank a b hb) h) h
      have hnew : a ∉ (next a).foldl (finish next depth) finished := fun ha =>
        (hrs.rank_lt a ha).elim hmem (Nat.lt_irrefl _)
      refine ⟨⟨hrs.finished.snoc ha hnew hnx, fun b hb => List.mem_append_left _ (hrs.subset hb), fun b hb => ?_⟩, by simp⟩
      rcases List.mem_append.mp hb with hb | hb
      · exact (hrs.rank_lt b hb).imp_right fun hlt => hlt.trans hlimit
      · exact .inr (List.mem_singleton.mp hb ▸ hlimit)

theorem exists_rank (hnds : ∀ a b, b ∈ next a → b ∈ nodes) (hacyclic : ∀ a, ¬ TransGen (Edge next) a a) :
    ∃ rank : α → Nat, (∀ a b, b ∈ next a → rank b < rank a) ∧ ∀ a ∈ nodes, rank a < nodes.length := by
  classical
  refine ⟨fun a => (nodes.toFinset.filter (TransGen (Edge next) a)).card, fun a b hb => ?_, fun a ha => ?_⟩
  · refine Finset.card_lt_card (Finset.ssubset_iff_of_subset (fun c hc => ?_) |>.mpr ⟨b, ?_, ?_⟩)
    · rw [Finset.mem_filter] at hc ⊢
      exact ⟨hc.1, .head hb hc.2⟩
    · exact Finset.mem_filter.mpr ⟨List.mem_toFinset.mpr (hnds a b hb), .single hb⟩
    · exact fun hmem => hacyclic b (Finset.mem_filter.mp hmem).2
  · refine Nat.lt_of_lt_of_le (Finset.card_lt_card (Finset.filter_ssubset.mpr ⟨a, ?_, hacyclic a⟩))
      (List.toFinset_card_le nodes)
    exact List.mem_toFinset.mpr ha

/-! ## Reaching -/

section

variable (hnds : ∀ a b, b ∈ next a → b ∈ nodes)

include hnds

theorem reaches_iff : reaches next nodes.length a b = true ↔ ReflTransGen (Edge next) a b := by
  rw [reflTransGen_iff_path, reaches, List.any_eq_true]
  constructor
  · rintro ⟨entry, he, heq⟩
    obtain rfl := of_decide_eq_true heq
    exact ⟨_, (mem_distances.mp he).1.1⟩
  · rintro ⟨n, path⟩
    obtain ⟨m, _, hdist⟩ := path.exists_isDistance
    exact ⟨(b, m), mem_distances.mpr ⟨hdist, hdist.le_length hnds⟩, decide_eq_true rfl⟩

theorem onCycle_iff : onCycle next nodes.length a = true ↔ TransGen (Edge next) a a := by
  rw [onCycle, List.any_eq_true, TransGen.head'_iff]
  simp only [reaches_iff hnds]

theorem mem_groupOf : b ∈ groupOf next nodes a ↔
    b ∈ nodes ∧ ReflTransGen (Edge next) a b ∧ ReflTransGen (Edge next) b a := by
  rw [groupOf, List.mem_filter, Bool.and_eq_true, reaches_iff hnds, reaches_iff hnds]

theorem groupOf_eq (h : b ∈ groupOf next nodes a) : groupOf next nodes b = groupOf next nodes a := by
  obtain ⟨_, hab, hba⟩ := (mem_groupOf hnds).mp h
  refine List.filter_congr fun c _ => ?_
  rw [Bool.eq_iff_iff, Bool.and_eq_true, Bool.and_eq_true]
  simp only [reaches_iff hnds]
  exact ⟨fun ⟨h, h'⟩ => ⟨hab.trans h, h'.trans hba⟩, fun ⟨h, h'⟩ => ⟨hba.trans h, h'.trans hab⟩⟩

theorem mem_cyclicGroups {group : List α} : group ∈ cyclicGroups next nodes ↔
    ∃ a ∈ nodes, TransGen (Edge next) a a ∧ groupOf next nodes a = group := by
  rw [cyclicGroups, List.mem_eraseDups, List.mem_map]
  simp only [List.mem_filter, onCycle_iff hnds, and_assoc]

theorem pairwise_cyclicGroups {lt : α → α → Prop} (htrans : ∀ a b c, lt a b → lt b c → lt a c) (hirrefl : ∀ a, ¬ lt a a)
    (hsorted : nodes.Pairwise lt) : (cyclicGroups next nodes).Pairwise (List.Lex lt) := by
  have hgroup : ∀ a, (groupOf next nodes a).Pairwise lt := fun a => hsorted.sublist List.filter_sublist
  refine pairwise_eraseDups fun before group after hspl hnew other hoth => ?_
  obtain ⟨first, rest, hcyclic, rfl, hrs⟩ := List.map_eq_append_iff.mp hspl
  obtain ⟨b, last, rfl, rfl, _⟩ := List.map_eq_cons_iff.mp hrs
  obtain ⟨a, ha, rfl⟩ := List.mem_map.mp hoth
  have hmem : ∀ {c}, c ∈ first ++ b :: last ↔ c ∈ nodes ∧ TransGen (Edge next) c c := fun {c} => by
    rw [← hcyclic, List.mem_filter, onCycle_iff hnds]
  have hpairwise := hsorted.sublist (hcyclic ▸ List.filter_sublist : (first ++ b :: last).Sublist nodes)
  rw [List.pairwise_append, List.pairwise_cons] at hpairwise
  obtain ⟨_, ⟨hls, _⟩, hfst⟩ := hpairwise
  have hcons : ∀ {c}, c ∈ first ++ b :: last → ∃ head tail, groupOf next nodes c = head :: tail ∧ (c = head ∨ lt head c) := by
    intro c hc
    have hself : c ∈ groupOf next nodes c := (mem_groupOf hnds).mpr ⟨(hmem.mp hc).1, .refl, .refl⟩
    obtain ⟨head, tail, hgroupOf⟩ := List.exists_cons_of_ne_nil (List.ne_nil_of_mem hself)
    have hpairs := hgroup c
    rw [hgroupOf] at hself hpairs
    exact ⟨head, tail, hgroupOf, (List.mem_cons.mp hself).imp_right ((List.pairwise_cons.mp hpairs).1 c)⟩
  obtain ⟨head, tail, hgroupOf, hle⟩ := hcons (List.mem_append_left _ ha)
  obtain ⟨least, rest, hgroupOf', hle'⟩ := hcons (List.mem_append_right _ List.mem_cons_self)
  -- The first node of a group that is new is the first of it that was met.
  obtain rfl : b = least := by
    have hleast : least ∈ groupOf next nodes b := hgroupOf' ▸ List.mem_cons_self
    obtain ⟨hnd, hto, hfrom⟩ := (mem_groupOf hnds).mp hleast
    have hcycle := (hmem.mp (List.mem_append_right first List.mem_cons_self)).2
    have hmet := hmem.mpr ⟨hnd, .trans_right hfrom (hcycle.trans_left hto)⟩
    rw [List.mem_append, List.mem_cons] at hmet
    rcases hmet with hmet | heq | hmet
    · exact absurd (List.mem_map.mpr ⟨least, hmet, groupOf_eq hnds hleast⟩) hnew
    · exact heq.symm
    · exact hle'.resolve_right fun hlt => hirrefl b (htrans b least b (hls least hmet) hlt)
  have hlt := hfst a ha b List.mem_cons_self
  rw [hgroupOf, hgroupOf']
  exact .rel (hle.elim (fun heq => heq ▸ hlt) fun hle => htrans head a b hle hlt)

theorem topological_of_cycle (ha : a ∈ nodes) (h : TransGen (Edge next) a a) : topological next nodes = [] :=
  if_pos (List.any_eq_true.mpr ⟨a, ha, (onCycle_iff hnds).mpr h⟩)

/-- In a graph without cycles every node stands before those to which its edges lead. -/
theorem topological_of_acyclic (hacyclic : ∀ a, ¬ TransGen (Edge next) a a) :
    (topological next nodes).Nodup ∧ (∀ a, a ∈ topological next nodes ↔ a ∈ nodes) ∧
      ∀ a ∈ nodes, ∀ b ∈ next a, [a, b].Sublist (topological next nodes) := by
  obtain ⟨rank, hrank, hdepth⟩ := exists_rank hnds hacyclic
  obtain ⟨⟨⟨hndp, hsubset, hbehind⟩, _⟩, hall⟩ := finishes_foldl nodes
    (fun finished h a ha => finishes_finish hnds hrank ha (hdepth a ha) (hdepth a ha) h) (Finished.mk .nil nofun nofun)
  have hno : ¬ nodes.any (onCycle next nodes.length) = true := by
    rw [List.any_eq_true]
    exact fun ⟨a, _, ha⟩ => hacyclic a ((onCycle_iff hnds).mp ha)
  rw [topological, if_neg hno]
  exact ⟨List.nodup_reverse.mpr hndp, fun a => List.mem_reverse.trans ⟨(hsubset ·), (hall ·)⟩, fun a ha b hb =>
    List.reverse_sublist.mpr (hbehind a (hall ha) b hb)⟩

end

end Graph

end SoftTyping
