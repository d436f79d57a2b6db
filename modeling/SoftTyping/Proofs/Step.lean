import SoftTyping.Step

/-!
# Steps that are not refused

Each lemma says of one kind of step where it leads when it is not refused. Together they take a whole step apart. A step
respects a relation between states when it leads from a state only to related ones (`Respects`).
-/

namespace SoftTyping.Step

variable {σ τ α β : Type} {s s' : σ} {second : α → Step σ β} {question : σ → Except Fault α} {fault : Fault}
  {step first : Step σ α} {change : σ → α × σ} {put : τ → σ → σ} {a : α}

/-- Giving an answer changes nothing. -/
theorem pure_eq_ok {b : α} : (pure a : Step σ α) s = .ok b s' ↔ b = a ∧ s' = s := by
  change EStateM.Result.ok a s = .ok b s' ↔ _
  simp [eq_comm]

/-- Reading the state changes nothing. -/
theorem get_eq_ok {a : σ} : (get : Step σ σ) s = .ok a s' ↔ a = s ∧ s' = s := by
  change EStateM.Result.ok s s = .ok a s' ↔ _
  simp [eq_comm]

/-- A change of the state always succeeds. -/
theorem modify_eq_ok {change : σ → σ} {a : PUnit} : (modify change : Step σ PUnit) s = .ok a s' ↔ s' = change s := by
  change EStateM.Result.ok PUnit.unit (change s) = .ok a s' ↔ _
  simp [eq_comm]

/-- A change of the state that gives an answer always succeeds. -/
theorem modifyGet_eq_ok : (modifyGet change : Step σ α) s = .ok a s' ↔ a = (change s).1 ∧ s' = (change s).2 := by
  change EStateM.Result.ok (change s).1 (change s).2 = .ok a s' ↔ _
  simp [eq_comm]

/-- A refusal gives no answer. -/
theorem throw_ne_ok : (throw fault : Step σ α) s ≠ .ok a s' := nofun

/-- A step whose answer is mapped succeeds where the step does. -/
theorem map_eq_ok {f : α → β} {b : β} : (f <$> step) s = .ok b s' ↔ ∃ a, step s = .ok a s' ∧ b = f a := by
  change EStateM.map f step s = .ok b s' ↔ _
  unfold EStateM.map
  cases step s with
  | ok a t => constructor
              · intro h
                cases h
                exact ⟨a, rfl, rfl⟩
              · rintro ⟨a', h, rfl⟩
                cases h
                rfl
  | error fault t => simp

/-- Steps that are refused unless what they are about is known, and otherwise change the state in a total way: one after
another, they are not refused when all of it is known from the start. -/
theorem forM_eq_ok {ι : Type} {step : ι → Step σ Unit} (Known : σ → ι → Prop) (change : σ → ι → σ)
    (hstp : ∀ {s item u s'}, step item s = .ok u s' ↔ Known s item ∧ s' = change s item)
    (hkp : ∀ {s item other}, Known (change s item) other ↔ Known s other) {items : List ι} {u : Unit} :
    items.forM step s = .ok u s' ↔ (∀ item ∈ items, Known s item) ∧ s' = items.foldl change s := by
  induction items generalizing s with
  | nil =>
    change (pure () : Step σ Unit) s = .ok u s' ↔ _
    simp [pure_eq_ok]
  | cons item rest ih =>
    change (step item >>= fun _ => rest.forM step) s = .ok u s' ↔ _
    simp only [bind_eq_ok, hstp, ih, List.forall_mem_cons, List.foldl_cons]
    constructor
    · rintro ⟨_, _, ⟨hkn, rfl⟩, hrs, rfl⟩
      exact ⟨⟨hkn, fun other hoth => hkp.mp (hrs other hoth)⟩, rfl⟩
    · rintro ⟨⟨hkn, hrs⟩, rfl⟩
      exact ⟨(), _, ⟨hkn, rfl⟩, fun other hoth => hkp.mpr (hrs other hoth), rfl⟩

/-! ## Steps that are refused -/

/-- Two steps are refused if the first is, or if the second is where the first leads. -/
theorem bind_eq_error : (first >>= second) s = .error fault s' ↔
      first s = .error fault s' ∨ ∃ a t, first s = .ok a t ∧ second a t = .error fault s' := by
  change EStateM.bind first second s = .error fault s' ↔ _
  unfold EStateM.bind
  cases first s with
  | ok a t => exact ⟨fun h => .inr ⟨a, t, rfl, h⟩, by rintro (h | ⟨a', t', h, h'⟩) <;> cases h; exact h'⟩
  | error fault t => simp

/-- A step whose answer is mapped is refused where the step is. -/
theorem map_eq_error {f : α → β} : (f <$> step) s = .error fault s' ↔ step s = .error fault s' := by
  change EStateM.map f step s = .error fault s' ↔ _
  unfold EStateM.map
  cases step s <;> simp

/-- A refused question changes nothing. -/
theorem query_eq_error : query question s = .error fault s' ↔ question s = .error fault ∧ s' = s := by
  unfold query
  cases question s <;> simp [eq_comm]

/-- A step on a part is refused where the step is, and what it did to the part stays. -/
theorem onPart_eq_error {part : σ → τ} {step : Step τ α} :
    onPart part put step s = .error fault s' ↔ ∃ t, step (part s) = .error fault t ∧ s' = put t s := by
  unfold onPart
  cases step (part s) with
  | ok a t => simp
  | error fault t => exact ⟨fun h => by cases h; exact ⟨t, rfl, rfl⟩, by rintro ⟨t', h, rfl⟩; cases h; rfl⟩

/-- If a run of steps is refused, one of them is. -/
theorem mapM_eq_error {step : β → Step σ α} {items : List β} (h : items.mapM step s = .error fault s') :
    ∃ item ∈ items, ∃ t t', step item t = .error fault t' := by
  induction items generalizing s with
  | nil => nomatch h
  | cons item rest ih =>
    rw [List.mapM_cons] at h
    rcases bind_eq_error.mp h with h | ⟨a, t, _, h⟩
    · exact ⟨item, List.mem_cons_self, _, _, h⟩
    · rcases bind_eq_error.mp h with h | ⟨_, _, _, h⟩
      · obtain ⟨other, hoth, hrfu⟩ := ih h
        exact ⟨other, List.mem_cons_of_mem _ hoth, hrfu⟩
      · nomatch h

/-! ## What steps leave behind -/

/-- A step that succeeds leaves its last state. -/
theorem leaves_of_eq_ok {s t : σ} (h : step s = .ok a t) : step.leaves s = t := by
  rw [leaves, h]

/-- Two steps leave what the second leaves, or what the first left when it was refused. -/
theorem leaves_bind (first : Step σ α) (second : α → Step σ β) (s : σ) :
    (first >>= second).leaves s = match first s with
      | .ok a t => (second a).leaves t
      | .error _ t => t := by
  unfold leaves
  change (match EStateM.bind first second s with | .ok _ s' => s' | .error _ s' => s') = _
  unfold EStateM.bind
  cases first s <;> rfl

/-- A step on a part leaves the state with what it leaves of the part. -/
theorem leaves_onPart (part : σ → τ) (put : τ → σ → σ) (step : Step τ α) (s : σ) :
    (onPart part put step).leaves s = put (step.leaves (part s)) s := by
  unfold leaves onPart
  cases step (part s) <;> rfl

/-! ## Relations that steps respect -/

/-- Where a step is not refused, it leads from a state to a related one. -/
def Respects (R : σ → σ → Prop) (step : Step σ α) : Prop := ∀ ⦃s a s'⦄, step s = .ok a s' → R s s'

/-- A relation that holds between a state and itself, and along two steps in a row. -/
structure IsOrder (R : σ → σ → Prop) : Prop where
  refl : ∀ s, R s s
  trans : ∀ {s t u}, R s t → R t u → R s u

namespace Respects

variable {R : σ → σ → Prop}

/-- Two steps respect an order that both respect. -/
theorem bind (hR : IsOrder R) (hfst : Respects R first)
    (hsnd : ∀ a, Respects R (second a)) : Respects R (first >>= second) := by
  intro s b s' h
  obtain ⟨a, t, h₁, h₂⟩ := bind_eq_ok.mp h
  exact hR.trans (hfst h₁) (hsnd a h₂)

theorem pure (hR : IsOrder R) (a : α) : Respects R (Pure.pure a : Step σ α) := by
  intro s b s' h
  obtain ⟨_, rfl⟩ := pure_eq_ok.mp h
  exact hR.refl _

theorem get (hR : IsOrder R) : Respects R (MonadState.get : Step σ σ) := by
  intro s b s' h
  obtain ⟨_, rfl⟩ := get_eq_ok.mp h
  exact hR.refl _

theorem query (hR : IsOrder R) (question : σ → Except Fault α) : Respects R (Step.query question) := by
  intro s b s' h
  obtain ⟨_, rfl⟩ := query_eq_ok.mp h
  exact hR.refl _

/-- A question before a step does no harm. -/
theorem ask (hR : IsOrder R) (h : ∀ a, Respects R (second a)) : Respects R (Step.query question >>= second) :=
  bind hR (query hR question) h

theorem throw (fault : Fault) : Respects R (MonadExcept.throw fault : Step σ α) :=
  fun _ _ _ h => absurd h throw_ne_ok

/-- A change respects a relation that it stays in. -/
theorem modifyGet (h : ∀ s, R s (change s).2) : Respects R (MonadStateOf.modifyGet change : Step σ α) := by
  intro s b s' hs
  rw [(modifyGet_eq_ok.mp hs).2]
  exact h s

end Respects

/-! ## Relations along steps that may be refused -/

/-- What a step leaves behind is related to the state that it starts from, also where it is refused. -/
def Leads (R : σ → σ → Prop) (step : Step σ α) (s : σ) : Prop := R s (step.leaves s)

namespace Leads

variable {R : σ → σ → Prop}

/-- A step leads along a relation if it does so both when it succeeds and when it is refused. -/
theorem of_result (hok : ∀ a t, step s = .ok a t → R s t)
    (herror : ∀ fault t, step s = .error fault t → R s t) : Leads R step s := by
  unfold Leads leaves
  cases hs : step s with
  | ok a t => exact hok a t hs
  | error fault t => exact herror fault t hs

/-- Two steps lead along an order that both lead along. -/
theorem bind (hR : IsOrder R) (hfst : Leads R first s)
    (hsnd : ∀ a t, first s = .ok a t → Leads R (second a) t) : Leads R (first >>= second) s := by
  unfold Leads at hfst ⊢
  rw [leaves_bind]
  cases hs : first s with
  | ok a t =>
    rw [leaves_of_eq_ok hs] at hfst
    exact hR.trans hfst (hsnd a t hs)
  | error fault t =>
    rw [leaves, hs] at hfst
    exact hfst

/-- A question changes nothing. -/
theorem query (hR : IsOrder R) (question : σ → Except Fault α) : Leads R (Step.query question) s := by
  rw [Leads, leaves_query]
  exact hR.refl s

/-- A question before a step does no harm. -/
theorem query_bind (hR : IsOrder R)
    (h : ∀ a, question s = .ok a → Leads R (second a) s) : Leads R (Step.query question >>= second) s := by
  refine bind hR (query hR question) fun a t ha => ?_
  obtain ⟨ha, rfl⟩ := query_eq_ok.mp ha
  exact h a ha

theorem pure (hR : IsOrder R) (a : α) : Leads R (Pure.pure a : Step σ α) s := hR.refl s

theorem throw (hR : IsOrder R) (fault : Fault) : Leads R (MonadExcept.throw fault : Step σ α) s := hR.refl s

theorem map (hR : IsOrder R) {f : α → β} (h : Leads R step s) : Leads R (f <$> step) s :=
  bind hR h fun a _ _ => pure hR (f a)

/-- A run of steps leads along an order that each of them leads along. -/
theorem mapM (hR : IsOrder R) {step : β → Step σ α} (h : ∀ item t, Leads R (step item) t) (items : List β) :
    Leads R (items.mapM step) s := by
  induction items generalizing s with
  | nil => exact hR.refl s
  | cons item rest ih =>
    rw [List.mapM_cons]
    exact bind hR (h item s) fun a t _ => bind hR ih fun as _ _ => pure hR (a :: as)

theorem get_bind {second : σ → Step σ β} (h : Leads R (second s) s) : Leads R (MonadState.get >>= second) s := h

/-- A step on a part leads along a relation of the wholes that follows from one of the parts. -/
theorem onPart {R' : τ → τ → Prop} {part : σ → τ} {step : Step τ α} (h : Leads R' step (part s))
    (hput : ∀ t, R' (part s) t → R s (put t s)) : Leads R (Step.onPart part put step) s := by
  rw [Leads, leaves_onPart]
  exact hput _ h

end Leads

end SoftTyping.Step
