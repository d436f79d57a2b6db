import Mathlib.Data.Fintype.Card
import Mathlib.Data.Nat.Find
import SoftTyping.Graph.Distance

/-!
# Exploring a graph

Exploring a graph from a node lists each node that lies within the bound with its distance, the least number of edges on a
path to it, and nothing else (`mem_distances`). No distance is larger than the number of nodes there are
(`IsDistance.le_length`), whether or not paths lead back.
-/

namespace SoftTyping.Graph

variable {α : Type} {next : α → List α} {n m : Nat} {a b c start : α}

theorem Path.trans (first : Path next n a b) (second : Path next m b c) : Path next (n + m) a c := by
  induction first with
  | refl a =>
    rw [Nat.zero_add]
    exact second
  | @step n _ _ _ edge _ ih =>
    rw [Nat.add_right_comm]
    exact .step edge (ih second)

theorem Path.snoc (path : Path next n a b) (edge : c ∈ next b) : Path next (n + 1) a c :=
  path.trans (.step edge (.refl c))

theorem Path.exists_last (path : Path next (n + 1) a c) : ∃ b, Path next n a b ∧ c ∈ next b := by
  induction n generalizing a with
  | zero =>
    cases path with
    | step edge rest =>
      cases rest
      exact ⟨a, .refl a, edge⟩
  | succ n ih =>
    cases path with
    | step edge rest =>
      obtain ⟨last, hpth, hed⟩ := ih rest
      exact ⟨last, .step edge hpth, hed⟩

theorem Path.rank_add_le {rank : α → Nat} (hrank : ∀ a b, b ∈ next a → rank b < rank a) (path : Path next n a b) :
    rank b + n ≤ rank a := by
  induction path with
  | refl a => exact Nat.le_refl _
  | step edge _ ih =>
    have := hrank _ _ edge
    omega

/-! ## Distances -/

/-- The least number of edges on a path from one node to another. -/
def IsDistance (next : α → List α) (n : Nat) (a b : α) : Prop := Path next n a b ∧ ∀ m, Path next m a b → n ≤ m

theorem IsDistance.eq (h : IsDistance next n a b) (h' : IsDistance next m a b) : n = m :=
  Nat.le_antisymm (h.2 m h'.1) (h'.2 n h.1)

theorem isDistance_self : IsDistance next 0 a a := ⟨.refl a, fun _ _ => Nat.zero_le _⟩

theorem Path.exists_isDistance (path : Path next n a b) : ∃ m ≤ n, IsDistance next m a b := by
  classical
  have hexists : ∃ m, Path next m a b := ⟨n, path⟩
  exact ⟨Nat.find hexists, Nat.find_min' hexists path, Nat.find_spec hexists, fun m hm => Nat.find_min' hexists hm⟩

theorem IsDistance.exists_last (h : IsDistance next (n + 1) a c) : ∃ b, IsDistance next n a b ∧ c ∈ next b := by
  obtain ⟨b, hpth, hed⟩ := h.1.exists_last
  refine ⟨b, ⟨hpth, fun m hm => ?_⟩, hed⟩
  have := h.2 (m + 1) (hm.snoc hed)
  omega

theorem IsDistance.exists_of_le (h : IsDistance next n a b) (hle : m ≤ n) : ∃ c, IsDistance next m a c := by
  induction n generalizing b with
  | zero => exact ⟨b, Nat.le_zero.mp hle ▸ h⟩
  | succ n ih =>
    obtain ⟨c, hc, _⟩ := h.exists_last
    rcases Nat.le_succ_iff.mp hle with hle | rfl
    · exact ih hc hle
    · exact ⟨b, h⟩

variable [DecidableEq α]

/-- No distance is larger than the number of nodes that edges lead to. -/
theorem IsDistance.le_length {nodes : List α} (hnds : ∀ a b, b ∈ next a → b ∈ nodes) (h : IsDistance next n a b) :
    n ≤ nodes.length := by
  have hexists : ∀ k : Fin n, ∃ c, IsDistance next (k + 1) a c := fun k => h.exists_of_le k.isLt
  choose node hnd using hexists
  have hinjective : Function.Injective node := by
    intro k k' heq
    have := (hnd k).eq (heq ▸ hnd k')
    exact Fin.ext (by omega)
  have hmem : ∀ k ∈ Finset.univ, node k ∈ nodes.toFinset := by
    intro k _
    obtain ⟨_, _, hed⟩ := (hnd k).exists_last
    exact List.mem_toFinset.mpr (hnds _ _ hed)
  calc
    n = (Finset.univ : Finset (Fin n)).card := (Finset.card_fin n).symm
    _ ≤ nodes.toFinset.card := Finset.card_le_card_of_injOn node hmem hinjective.injOn
    _ ≤ nodes.length := List.toFinset_card_le nodes

/-! ## Exploring -/

/-- All nodes up to some distance have been met, those at this distance last. -/
structure Explored (next : α → List α) (start : α) (distance : Nat) (layer : List α) (met : List (α × Nat)) : Prop where
  mem_met : ∀ {entry}, entry ∈ met ↔ IsDistance next entry.2 start entry.1 ∧ entry.2 ≤ distance
  mem_layer : ∀ {a}, a ∈ layer ↔ IsDistance next distance start a

variable {distance : Nat} {layer : List α} {met : List (α × Nat)}

theorem Explored.mem_fresh (h : Explored next start distance layer met) :
    c ∈ freshNeighbours next met layer ↔ IsDistance next (distance + 1) start c := by
  simp only [freshNeighbours, List.mem_filter, List.mem_eraseDups, List.mem_flatMap, Bool.not_eq_true', List.any_eq_false,
    decide_eq_true_eq]
  constructor
  · rintro ⟨⟨b, hb, hed⟩, hnew⟩
    obtain ⟨n, hle, hdist⟩ := ((h.mem_layer.mp hb).1.snoc hed).exists_isDistance
    rcases Nat.le_succ_iff.mp hle with hle | rfl
    · exact absurd rfl (hnew (c, n) (h.mem_met.mpr ⟨hdist, hle⟩))
    · exact hdist
  · intro hdist
    obtain ⟨b, hb, hed⟩ := hdist.exists_last
    refine ⟨⟨b, h.mem_layer.mpr hb, hed⟩, ?_⟩
    rintro ⟨_, n⟩ he rfl
    obtain ⟨hmet, hle⟩ := h.mem_met.mp he
    have := hmet.eq hdist
    omega

theorem Explored.step (h : Explored next start distance layer met) :
    Explored next start (distance + 1) (freshNeighbours next met layer)
      (met ++ (freshNeighbours next met layer).map fun a => (a, distance + 1)) where
  mem_met := by
    rintro ⟨c, n⟩
    simp only [List.mem_append, h.mem_met, List.mem_map, h.mem_fresh, Prod.mk.injEq]
    constructor
    · rintro (⟨hdist, hle⟩ | ⟨_, hdist, rfl, rfl⟩)
      · exact ⟨hdist, hle.trans (Nat.le_succ _)⟩
      · exact ⟨hdist, Nat.le_refl _⟩
    · rintro ⟨hdist, hle⟩
      rcases Nat.le_succ_iff.mp hle with hle | rfl
      · exact .inl ⟨hdist, hle⟩
      · exact .inr ⟨c, hdist, rfl, rfl⟩
  mem_layer := h.mem_fresh

theorem Explored.mem_explore {layers : Nat} {entry : α × Nat} (h : Explored next start distance layer met) :
    entry ∈ explore next layers distance layer met ↔
      IsDistance next entry.2 start entry.1 ∧ entry.2 ≤ distance + layers := by
  induction layers generalizing distance layer met with
  | zero => exact h.mem_met
  | succ layers ih =>
    rw [explore]
    split
    · next hfr =>
      -- No node lies one edge further, so none lies further at all.
      refine h.mem_met.trans (and_congr_right fun hdist => ⟨fun hle => by omega, fun _ => ?_⟩)
      by_contra hfar
      obtain ⟨c, hc⟩ := hdist.exists_of_le (Nat.succ_le_of_lt (Nat.lt_of_not_le hfar))
      rw [← h.mem_fresh, List.isEmpty_iff.mp hfr] at hc
      nomatch hc
    · rw [ih h.step, Nat.add_right_comm, Nat.add_assoc]

/-- Exploring a graph lists the nodes within the bound with their distances. -/
theorem mem_distances {bound : Nat} {entry : α × Nat} :
    entry ∈ distances next bound start ↔ IsDistance next entry.2 start entry.1 ∧ entry.2 ≤ bound := by
  have hzero : ∀ {a}, IsDistance next 0 start a ↔ a = start := by
    refine fun {a} => ⟨fun h => ?_, fun h => h ▸ isDistance_self⟩
    cases h.1
    rfl
  have hst : Explored next start 0 [start] [(start, 0)] := by
    refine ⟨fun {entry} => ?_, fun {a} => by rw [List.mem_singleton, hzero]⟩
    obtain ⟨a, n⟩ := entry
    simp only [List.mem_singleton, Prod.mk.injEq, Nat.le_zero]
    constructor
    · rintro ⟨rfl, rfl⟩
      exact ⟨isDistance_self, rfl⟩
    · rintro ⟨h, rfl⟩
      exact ⟨hzero.mp h, rfl⟩
  rw [distances, hst.mem_explore, Nat.zero_add]

end SoftTyping.Graph
