import Mathlib.Data.List.Forall2
import SoftTyping.Fault

/-!
# Answers that are not refused

A question is answered or refused with a fault. A question that asks others is answered exactly when they are: these are
the two cases in which the library asks several, one after another (`bind_eq_ok`) and one for each element of a list
(`mapM_eq_ok`).
-/

namespace SoftTyping.Refusal

variable {ε α β : Type} {question : α → Except ε β} {items : List α} {R : α → β → Prop} {others : List β}

theorem eq_ok_getD {question : Except Fault α} (spare : α) (h : question.toOption.isSome = true) :
    question = .ok (question.toOption.getD spare) := by
  cases question with
  | ok => rfl
  | error => cases h

/-- A question that follows another is answered when both are. -/
theorem bind_eq_ok {first : Except ε α} {second : α → Except ε β} {b : β} :
    (first >>= second) = .ok b ↔ ∃ a, first = .ok a ∧ second a = .ok b := by
  cases first with
  | error fault => simp [bind, Except.bind]
  | ok a => simp [bind, Except.bind]

/-- Asking for each element of a list is answered with the answers, in order. -/
theorem mapM_eq_ok {answers : List β} :
    items.mapM question = .ok answers ↔ List.Forall₂ (fun item answer => question item = .ok answer) items answers := by
  induction items generalizing answers with
  | nil =>
    rw [List.mapM_nil, List.forall₂_nil_left_iff]
    exact ⟨fun h => (Except.ok.inj h).symm, fun h => h ▸ rfl⟩
  | cons item rest ih =>
    rw [List.mapM_cons, bind_eq_ok, List.forall₂_cons_left_iff]
    constructor
    · rintro ⟨first, hfst, hrs⟩
      obtain ⟨others, hoths, h⟩ := bind_eq_ok.mp hrs
      exact ⟨first, others, hfst, ih.mp hoths, (Except.ok.inj h).symm⟩
    · rintro ⟨first, others, hfst, hoths, rfl⟩
      exact ⟨first, hfst, bind_eq_ok.mpr ⟨others, ih.mpr hoths, rfl⟩⟩

theorem exists_left_of_forall₂ (h : List.Forall₂ R items others) {b : β} (hb : b ∈ others) : ∃ a ∈ items, R a b := by
  induction h with
  | nil => nomatch hb
  | cons hab _ ih =>
    rcases List.mem_cons.mp hb with rfl | hb
    · exact ⟨_, List.mem_cons_self, hab⟩
    · obtain ⟨a, ha, hr⟩ := ih hb
      exact ⟨a, List.mem_cons_of_mem _ ha, hr⟩

theorem exists_right_of_forall₂ (h : List.Forall₂ R items others) {a : α} (ha : a ∈ items) : ∃ b ∈ others, R a b :=
  exists_left_of_forall₂ h.flip ha

theorem mapM_congr {other : α → Except ε β}
    (h : ∀ item ∈ items, question item = other item) : items.mapM question = items.mapM other := by
  induction items with
  | nil => rfl
  | cons item rest ih =>
    rw [List.mapM_cons, List.mapM_cons, h item List.mem_cons_self, ih fun i hi => h i (List.mem_cons_of_mem _ hi)]

end SoftTyping.Refusal
