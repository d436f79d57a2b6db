import SoftTyping.Fault

/-!
# Steps

A step is an operation on a state that may be refused with a fault. What a step has written before it is refused stays
written, so that whoever drives the analysis can look at the state that a refusal leaves behind.
-/

namespace SoftTyping

/-- An operation on a state that may be refused. -/
abbrev Step (σ α : Type) := EStateM Fault σ α

namespace Step

variable {σ τ α β : Type}

/-- Ask the state a question, and be refused when it has no answer. -/
def query (question : σ → Except Fault α) : Step σ α := fun s =>
  match question s with
  | .ok a => .ok a s
  | .error fault => .error fault s

/-- Do a step on one part of the state. -/
def onPart (part : σ → τ) (put : τ → σ → σ) (step : Step τ α) : Step σ α := fun s =>
  match step (part s) with
  | .ok a t => .ok a (put t s)
  | .error fault t => .error fault (put t s)

/-- The state that a step leaves behind, whether it is refused or not. -/
def leaves (step : Step σ α) (s : σ) : σ :=
  match step s with
  | .ok _ s' => s'
  | .error _ s' => s'

/-- What a step answers. -/
def answer (step : Step σ α) (s : σ) : Except Fault α :=
  match step s with
  | .ok a _ => .ok a
  | .error fault _ => .error fault

/-- A question leaves the state as it is. -/
@[simp] theorem leaves_query (question : σ → Except Fault α) (s : σ) : (query question).leaves s = s := by
  simp only [leaves, query]
  cases question s <;> rfl

@[simp] theorem answer_query (question : σ → Except Fault α) (s : σ) : (query question).answer s = question s := by
  simp only [answer, query]
  cases question s <;> rfl

/-! ## Steps that are not refused -/

/-- Two steps in a row are not refused when the first is not and the second is not from where the first ends. -/
theorem bind_eq_ok {first : Step σ α} {second : α → Step σ β} {s s' : σ} {b : β} :
    (first >>= second) s = .ok b s' ↔ ∃ a t, first s = .ok a t ∧ second a t = .ok b s' := by
  show EStateM.bind first second s = .ok b s' ↔ _
  unfold EStateM.bind
  cases first s with
  | ok a t => exact ⟨fun h => ⟨a, t, rfl, h⟩, by rintro ⟨a', t', h, h'⟩; cases h; exact h'⟩
  | error fault t => simp

theorem query_eq_ok {question : σ → Except Fault α} {s s' : σ} {a : α} :
    query question s = .ok a s' ↔ question s = .ok a ∧ s' = s := by
  unfold query
  cases question s <;> simp [eq_comm]

theorem onPart_eq_ok {part : σ → τ} {put : τ → σ → σ} {step : Step τ α} {s s' : σ} {a : α} :
    onPart part put step s = .ok a s' ↔ ∃ t, step (part s) = .ok a t ∧ s' = put t s := by
  unfold onPart
  cases step (part s) with
  | ok a t => exact ⟨fun h => by cases h; exact ⟨t, rfl, rfl⟩, by rintro ⟨t', h, rfl⟩; cases h; rfl⟩
  | error fault t => simp

end Step

end SoftTyping
