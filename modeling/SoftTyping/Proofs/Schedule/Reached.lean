import SoftTyping.Proofs.Schedule.Steady

/-!
# The states of a schedule

A schedule goes from round to round; when nothing is queued it releases the functions that wait for each other, and when
the rounds are used up it ends. `Reached` are the states between these steps, with a history of what each round has
solved. Main statements: `proceed_reached` and `allFinal_proceed` say that the schedule goes through such states only and
ends when every function is final.
-/

namespace SoftTyping

open Refusal SymbolTable OrderedMap

/-! ## The registry before the first round -/

/-- When the entries of a list are inserted as far as they have a value, a key has the value that its entries agree on. -/
theorem OrderedMap.get?_foldl_insert {κ α β : Type} [DecidableEq κ] (value : κ × β → Option α) (entries : List (κ × β))
    (map : OrderedMap κ α) {key : κ} (agreed : Option α) (h : ∀ entry ∈ entries, entry.1 = key → value entry = agreed) :
    (entries.foldl (fun map entry => (value entry).elim map (map.insert entry.1)) map).get? key =
      if key ∈ entries.map Prod.fst then agreed.or (map.get? key) else map.get? key := by
  induction entries generalizing map with
  | nil => simp
  | cons entry rest ih =>
    rw [List.foldl_cons, ih _ fun other hoth => h other (List.mem_cons_of_mem _ hoth)]
    by_cases hkey : entry.1 = key
    · have hvl := h entry List.mem_cons_self hkey
      rw [hvl]
      cases agreed <;> simp [hkey]
    · have hone : ((value entry).elim map (map.insert entry.1)).get? key = map.get? key := by
        cases value entry <;> simp [hkey]
      have hiff : key ∈ (entry :: rest).map Prod.fst ↔ key ∈ rest.map Prod.fst := by
        rw [List.map_cons, List.mem_cons, or_iff_right (Ne.symm hkey)]
      rw [hone, if_congr hiff rfl rfl]

theorem SymbolTable.mem_allSymbols {table : SymbolTable} {id : SymbolId} {symbol : Symbol} :
    (id, symbol) ∈ table.allSymbols ↔ table.symbol? id = some symbol := by
  unfold allSymbols symbol?
  rw [List.mem_map]
  constructor
  · rintro ⟨⟨symbol', index⟩, hmem, heq⟩
    cases heq
    rw [if_pos rfl, ← Array.getElem?_toList]
    exact List.mem_zipIdx_iff_getElem?.mp hmem
  · intro h
    split at h
    · next hgen =>
      rw [← Array.getElem?_toList] at h
      refine ⟨(symbol, id.index), List.mem_zipIdx_iff_getElem?.mpr h, ?_⟩
      rw [← hgen]
    · nomatch h

namespace Problem

variable {problem : Problem} {id : SymbolId} {known : Published}

/-- What is published of a symbol before the first round. -/
def initial (problem : Problem) (id : SymbolId) (symbol : Symbol) : Option Published :=
  match symbol.method? with
  | none => none
  | some data =>
    if data.isBuiltin then none
    else if (problem.flow.body? (.function id)).isSome then some {}
    else some { overloads := [problem.fallback id data.parameters.length], final := true }

theorem isSome_initial {symbol : Symbol} :
    (problem.initial id symbol).isSome ↔ ∃ data, symbol.method? = some data ∧ data.isBuiltin = false := by
  unfold initial
  cases symbol.method? with
  | none => simp
  | some data =>
    cases hblt : data.isBuiltin
    · simp only [hblt, Bool.false_eq_true, if_false, Option.some.injEq, exists_eq_left', iff_true]
      split <;> rfl
    · simp [hblt]

theorem initialRegistry_eq : problem.initialRegistry = problem.table.allSymbols.foldl
    (fun registry entry => (problem.initial entry.1 entry.2).elim registry (registry.insert entry.1)) ∅ := by
  unfold initialRegistry
  congr 1
  funext registry ⟨id, symbol⟩
  unfold initial
  dsimp only
  cases symbol.method? with
  | none => rfl
  | some data =>
    dsimp only
    split
    · rfl
    · split <;> rfl

theorem get?_initialRegistry :
    problem.initialRegistry.get? id = (problem.table.symbol? id).bind (problem.initial id) := by
  rw [initialRegistry_eq, get?_foldl_insert (fun entry => problem.initial entry.1 entry.2) _ _
    ((problem.table.symbol? id).bind (problem.initial id))]
  · split
    · rw [get?_empty, Option.or_none]
    · next hid =>
      cases hsym : problem.table.symbol? id with
      | none => rfl
      | some symbol =>
        exact absurd (List.mem_map.mpr ⟨(id, symbol), mem_allSymbols.mpr hsym, rfl⟩) hid
  · rintro ⟨id', symbol⟩ he rfl
    rw [mem_allSymbols.mp he]
    rfl

end Problem

/-! ## Making functions final -/

theorem Registry.mem_unfinished {registry : Registry} {id : SymbolId} :
    id ∈ registry.unfinished ↔ ∃ known, registry.get? id = some known ∧ known.final = false := by
  unfold Registry.unfinished
  simp [get?_eq_some_iff]

namespace Schedule

variable {problem : Problem} {schedule next : Schedule} {id : SymbolId}

/-- The issue says that the result of a function could not be found. -/
def IsRecursionIssueOf (problem : Problem) (id : SymbolId) (issue : Issue) : Prop :=
  ∃ symbol report now, problem.table.symbol? id = some symbol ∧ recursionIssue? problem report now id symbol = some issue

/-- The functions that are not final are in the table. -/
def KnowsOpen (problem : Problem) (schedule : Schedule) : Prop :=
  ∀ id ∈ schedule.registry.unfinished, (problem.table.symbol? id).isSome

/-- The schedule in which a function has been made final as it is. -/
def forced (problem : Problem) (report : RecursionReport) (schedule : Schedule) (function : SymbolId) : Schedule :=
  { schedule with
    registry := schedule.registry.insert function { overloads := schedule.finalNow problem function, final := true }
    issues := schedule.issues ++
      ((problem.table.symbol? function).bind (schedule.recursionIssue? problem report function)).toList }

/-- The schedule in which all functions have been made final. -/
def allForced (problem : Problem) (schedule : Schedule) : Schedule :=
  schedule.registry.unfinished.foldl (forced problem schedule.calls.recursion) schedule

/-- The schedule in which the functions that wait for each other are final and are queued once more. -/
def released (problem : Problem) (schedule : Schedule) : Schedule :=
  let stuck := schedule.registry.unfinished
  let schedule := stuck.foldl wake (schedule.allForced problem)
  { schedule with queue := stuck.map .function ++ schedule.queue }

/-- The schedule that has ended because the rounds are used up. -/
def exhausted (problem : Problem) (schedule : Schedule) : Schedule :=
  ({ schedule with issues := schedule.issues ++ [limitIssue .origin "rounds" problem.limits.rounds] } : Schedule).allForced
    problem

/-- Making a function final is refused only when it is not in the table. -/
theorem forceFinal_eq_ok {report : RecursionReport} {u : Unit} : forceFinal problem report id schedule = .ok u next ↔
      (problem.table.symbol? id).isSome ∧ next = schedule.forced problem report id := by
  simp only [forceFinal, Step.bind_eq_ok, Step.query_eq_ok, Step.modify_eq_ok, SymbolTable.symbol_eq_ok, forced,
    Option.isSome_iff_exists]
  constructor
  · rintro ⟨symbol, _, ⟨hsym, rfl⟩, rfl⟩
    exact ⟨⟨symbol, hsym⟩, by rw [hsym]; rfl⟩
  · rintro ⟨⟨symbol, hsym⟩, rfl⟩
    exact ⟨symbol, _, ⟨hsym, rfl⟩, by rw [hsym]; rfl⟩

theorem forceAll_eq_ok {u : Unit} : forceAll problem schedule = .ok u next ↔
    schedule.KnowsOpen problem ∧ next = schedule.allForced problem := by
  change schedule.registry.unfinished.forM (forceFinal problem schedule.calls.recursion) schedule = .ok u next ↔ _
  exact Step.forM_eq_ok (fun _ id => (problem.table.symbol? id).isSome) (forced problem schedule.calls.recursion)
    forceFinal_eq_ok Iff.rfl

/-- Releasing functions is refused only when one of them is not in the table. -/
theorem release_eq_ok {u : Unit} : release problem schedule = .ok u next ↔
    schedule.KnowsOpen problem ∧ next = schedule.released problem := by
  simp only [release, Step.bind_eq_ok, Step.get_eq_ok, Step.modify_eq_ok, forceAll_eq_ok]
  constructor
  · rintro ⟨_, _, ⟨rfl, rfl⟩, _, _, ⟨hkn, rfl⟩, rfl⟩
    exact ⟨hkn, rfl⟩
  · rintro ⟨hkn, rfl⟩
    exact ⟨_, _, ⟨rfl, rfl⟩, (), _, ⟨hkn, rfl⟩, rfl⟩

theorem exhaust_eq_ok {u : Unit} : exhaust problem schedule = .ok u next ↔
    schedule.KnowsOpen problem ∧ next = schedule.exhausted problem := by
  simp only [exhaust, Step.bind_eq_ok, Step.modify_eq_ok, forceAll_eq_ok]
  constructor
  · rintro ⟨_, _, rfl, hkn, rfl⟩
    exact ⟨hkn, rfl⟩
  · rintro ⟨hkn, rfl⟩
    exact ⟨(), _, rfl, hkn, rfl⟩

/-- All functions are made final: those that are not get what was found of them, the others stay. -/
structure Forces (problem : Problem) (schedule next : Schedule) : Prop where
  allFinal : ∀ id known, next.registry.get? id = some known → known.final = true
  kept : ∀ id, schedule.registry.IsFinal id → next.registry.get? id = schedule.registry.get? id
  isSome : ∀ id, (next.registry.get? id).isSome = (schedule.registry.get? id).isSome
  outcomes : next.outcomes = schedule.outcomes
  rounds : next.rounds = schedule.rounds
  issues : ∀ issue ∈ next.issues, issue.kind = .unresolvableRecursion →
    issue ∈ schedule.issues ∨ ∃ id ∈ schedule.registry.unfinished, IsRecursionIssueOf problem id issue

theorem get?_foldl_forced (problem : Problem) (report : RecursionReport) (ids : List SymbolId) (schedule : Schedule)
    (h : id ∉ ids) : (ids.foldl (forced problem report) schedule).registry.get? id = schedule.registry.get? id := by
  induction ids generalizing schedule with
  | nil => rfl
  | cons first rest ih =>
    rw [List.mem_cons, not_or] at h
    rw [List.foldl_cons, ih _ h.2, forced]
    dsimp only
    rw [get?_insert, if_neg (Ne.symm h.1)]

theorem isFinal_foldl_forced (problem : Problem) (report : RecursionReport) (ids : List SymbolId) (schedule : Schedule)
    (h : id ∈ ids) : (ids.foldl (forced problem report) schedule).registry.IsFinal id := by
  induction ids generalizing schedule with
  | nil => nomatch h
  | cons first rest ih =>
    rw [List.foldl_cons]
    by_cases hrs : id ∈ rest
    · exact ih _ hrs
    · obtain rfl : id = first := (List.mem_cons.mp h).resolve_right hrs
      unfold Registry.IsFinal
      rw [get?_foldl_forced problem report rest _ hrs, forced]
      exact ⟨_, by rw [get?_insert, if_pos rfl], rfl⟩

theorem foldl_forced_frame (problem : Problem) (report : RecursionReport) (ids : List SymbolId) (schedule : Schedule) :
    let next := ids.foldl (forced problem report) schedule
    next.outcomes = schedule.outcomes ∧ next.rounds = schedule.rounds ∧ next.queue = schedule.queue ∧
      ∀ issue ∈ next.issues, issue ∈ schedule.issues ∨ ∃ id ∈ ids, IsRecursionIssueOf problem id issue := by
  induction ids generalizing schedule with
  | nil => exact ⟨rfl, rfl, rfl, fun issue h => .inl h⟩
  | cons first rest ih =>
    obtain ⟨hocs, hrds, hqu, hiss⟩ := ih (schedule.forced problem report first)
    refine ⟨hocs, hrds, hqu, fun issue his => ?_⟩
    rcases hiss issue his with h | ⟨id, hid, h⟩
    · rcases List.mem_append.mp h with h | h
      · exact .inl h
      · obtain ⟨symbol, hsym, h⟩ := Option.bind_eq_some_iff.mp (Option.mem_toList.mp h)
        exact .inr ⟨first, List.mem_cons_self, symbol, report, schedule, hsym, h⟩
    · exact .inr ⟨id, List.mem_cons_of_mem _ hid, h⟩

theorem forces_allForced (problem : Problem) (schedule : Schedule) : Forces problem schedule (schedule.allForced problem) := by
  unfold allForced
  obtain ⟨hocs, hrds, _, hiss⟩ :=
    foldl_forced_frame problem schedule.calls.recursion schedule.registry.unfinished schedule
  have hop : ∀ id, id ∉ schedule.registry.unfinished → ∀ known, schedule.registry.get? id = some known →
      known.final = true := by
    intro id hid known hkn
    by_contra hfin
    exact hid (Registry.mem_unfinished.mpr ⟨known, hkn, by simpa using hfin⟩)
  refine ⟨fun id known hkn => ?_, fun id hfin => ?_, fun id => ?_, hocs, hrds, fun issue h _ => hiss issue h⟩
  · by_cases hid : id ∈ schedule.registry.unfinished
    · exact (Registry.isFinal_of_get? hkn).mp (isFinal_foldl_forced _ _ _ _ hid)
    · rw [get?_foldl_forced _ _ _ _ hid] at hkn
      exact hop id hid known hkn
  · refine get?_foldl_forced _ _ _ _ fun hid => ?_
    obtain ⟨known, hkn, hop⟩ := Registry.mem_unfinished.mp hid
    rw [Registry.isFinal_of_get? hkn, hop] at hfin
    exact Bool.false_ne_true hfin
  · by_cases hid : id ∈ schedule.registry.unfinished
    · obtain ⟨known, hkn, _⟩ := isFinal_foldl_forced problem schedule.calls.recursion _ schedule hid
      obtain ⟨known', hkn', _⟩ := Registry.mem_unfinished.mp hid
      rw [hkn, hkn']
      rfl
    · rw [get?_foldl_forced _ _ _ _ hid]

theorem foldl_wake_frame (ids : List SymbolId) (schedule : Schedule) :
    let next := ids.foldl wake schedule
    next.registry = schedule.registry ∧ next.outcomes = schedule.outcomes ∧ next.rounds = schedule.rounds ∧
      next.issues = schedule.issues ∧
      ∀ body ∈ next.queue, body ∈ schedule.queue ∨ Registry.isOpen schedule.registry body = true := by
  induction ids generalizing schedule with
  | nil => exact ⟨rfl, rfl, rfl, rfl, fun body h => .inl h⟩
  | cons first rest ih =>
    obtain ⟨hreg, hocs, hrds, hiss, hqu⟩ := ih (schedule.wake first)
    refine ⟨hreg, hocs, hrds, hiss, fun body hbdy => ?_⟩
    rcases hqu body hbdy with h | h
    · rcases List.mem_append.mp h with h | h
      · exact .inl h
      · exact .inr (List.mem_filter.mp h).2
    · exact .inr h

theorem forces_release (problem : Problem) (schedule : Schedule) : Forces problem schedule (schedule.released problem) := by
  have hfcs := forces_allForced problem schedule
  obtain ⟨hreg, hocs, hrds, hiss, _⟩ :=
    foldl_wake_frame schedule.registry.unfinished (schedule.allForced problem)
  unfold released
  dsimp only
  refine ⟨?_, ?_, ?_, hocs.trans hfcs.outcomes, hrds.trans hfcs.rounds, ?_⟩ <;> dsimp only
  · rw [hreg]
    exact hfcs.allFinal
  · rw [hreg]
    exact hfcs.kept
  · rw [hreg]
    exact hfcs.isSome
  · rw [hiss]
    exact hfcs.issues

theorem forces_exhaust (problem : Problem) (schedule : Schedule) : Forces problem schedule (schedule.exhausted problem) := by
  have hfcs := forces_allForced problem
    { schedule with issues := schedule.issues ++ [limitIssue .origin "rounds" problem.limits.rounds] }
  refine ⟨hfcs.allFinal, hfcs.kept, hfcs.isSome, hfcs.outcomes, hfcs.rounds, fun issue h hk => ?_⟩
  refine (hfcs.issues issue h hk).imp_left fun h => ?_
  rcases List.mem_append.mp h with h | h
  · exact h
  · rw [List.mem_singleton.mp h] at hk
    nomatch hk

theorem Forces.wellFormed (h : Forces problem schedule next)
    (hqu : ∀ body ∈ next.queue, ∃ id known, body = .function id ∧ schedule.registry.get? id = some known ∧
      (problem.flow.body? body).isSome) : next.WellFormed problem := by
  refine ⟨fun id known hkn hop => ?_, fun body hbdy => ?_⟩
  · rw [h.allFinal id known hkn] at hop
    nomatch hop
  · obtain ⟨id, known, rfl, hkn, hsolvable⟩ := hqu body hbdy
    have hso := h.isSome id
    rw [hkn, Option.isSome_some, Option.isSome_iff_exists] at hso
    obtain ⟨known', hkn'⟩ := hso
    exact ⟨id, known', rfl, hkn', hsolvable⟩

theorem wellFormed_release (hfm : schedule.WellFormed problem) : (schedule.released problem).WellFormed problem := by
  refine (forces_release problem schedule).wellFormed fun body hbdy => ?_
  rcases List.mem_append.mp hbdy with h | h
  · obtain ⟨id, hid, rfl⟩ := List.mem_map.mp h
    obtain ⟨known, hkn, hop⟩ := Registry.mem_unfinished.mp hid
    exact ⟨id, known, rfl, hkn, hfm.bodies id known hkn hop⟩
  · obtain ⟨_, _, _, _, hqu⟩ := foldl_wake_frame schedule.registry.unfinished (schedule.allForced problem)
    rcases hqu body h with h | h
    · rw [allForced, (foldl_forced_frame problem _ _ _).2.2.1] at h
      exact hfm.queue body h
    · cases body with
      | global => nomatch h
      | function id =>
        obtain ⟨known, hkn, hop⟩ := Registry.isOpen_function.mp h
        rw [(forces_allForced problem schedule).allFinal id known hkn] at hop
        nomatch hop

theorem wellFormed_exhaust (hfm : schedule.WellFormed problem) : (schedule.exhausted problem).WellFormed problem := by
  refine (forces_exhaust problem schedule).wellFormed fun body hbdy => ?_
  rw [exhausted, allForced, (foldl_forced_frame problem _ _ _).2.2.1] at hbdy
  exact hfm.queue body hbdy

/-! ## Reached states -/

/-- What a round has solved, and against what. -/
structure RoundRecord where
  registry : Registry
  bodies : List BodyId

/-- The round in which a body was last solved. -/
def lastSolved (history : List RoundRecord) (body : BodyId) : Option RoundRecord :=
  history.find? (fun record => record.bodies.contains body)

/-- The states in which a schedule is between its steps, and the rounds before, the last one first. -/
inductive Reached (problem : Problem) (calls : CallGraph) : List RoundRecord → Schedule → Prop where
  | start : Reached problem calls [] (.start problem calls)
  | round {history : List RoundRecord} {schedule next : Schedule} :
    Reached problem calls history schedule → schedule.queue ≠ [] → schedule.rounds < problem.limits.rounds →
      Schedule.round problem schedule = .ok () next →
      Reached problem calls ({ registry := schedule.registry, bodies := schedule.batch } :: history) next
  | release {history : List RoundRecord} {schedule next : Schedule} :
    Reached problem calls history schedule → schedule.queue = [] → schedule.registry.unfinished ≠ [] →
      Schedule.release problem schedule = .ok () next → Reached problem calls history next
  | exhaust {history : List RoundRecord} {schedule next : Schedule} :
    Reached problem calls history schedule → schedule.queue ≠ [] → problem.limits.rounds ≤ schedule.rounds →
      Schedule.exhaust problem schedule = .ok () next → Reached problem calls history next

variable {calls : CallGraph} {history : List RoundRecord} {steps : Nat}

/-- Every function of the program is final. -/
def AllFinal (problem : Problem) (schedule : Schedule) : Prop :=
  ∀ id, problem.IsFunction id → schedule.registry.IsFinal id

theorem start_open {known : Published} (h : (start problem calls).registry.get? id = some known) :
    known.final = false ↔ (problem.flow.body? (.function id)).isSome := by
  have h : problem.initialRegistry.get? id = some known := h
  rw [Problem.get?_initialRegistry, Option.bind_eq_some_iff] at h
  obtain ⟨symbol, _, h⟩ := h
  unfold Problem.initial at h
  split at h
  · nomatch h
  · split at h
    · nomatch h
    · split at h
      · next hbdy =>
        cases h
        simpa using hbdy
      · next hbdy =>
        cases h
        simpa using hbdy

section

variable (h : Reached problem calls history schedule)

include h

theorem Reached.wellFormed : schedule.WellFormed problem := by
  induction h with
  | start =>
    refine ⟨fun id known hkn hop => (start_open hkn).mp hop, fun body hbdy => ?_⟩
    obtain ⟨hkey, hop⟩ := List.mem_filter.mp hbdy
    cases body with
    | global => nomatch hop
    | function id =>
      obtain ⟨known, hkn, _⟩ := Registry.isOpen_function.mp hop
      exact ⟨id, known, rfl, hkn, contains_iff_mem_keys.mpr hkey⟩
  | round _ _ _ hrd ih =>
    obtain ⟨outcomes, hrd⟩ := round_eq_ok hrd
    exact hrd.wellFormed ih
  | release _ _ _ hrel ih =>
    obtain ⟨_, rfl⟩ := release_eq_ok.mp hrel
    exact wellFormed_release ih
  | exhaust _ _ _ hex ih =>
    obtain ⟨_, rfl⟩ := exhaust_eq_ok.mp hex
    exact wellFormed_exhaust ih

theorem Reached.isSome_iff : (schedule.registry.get? id).isSome ↔ problem.IsFunction id := by
  induction h with
  | start =>
    change (problem.initialRegistry.get? id).isSome ↔ _
    rw [Problem.get?_initialRegistry]
    unfold Problem.IsFunction
    cases hsym : problem.table.symbol? id with
    | none => simp
    | some symbol => simp [Problem.isSome_initial]
  | round hrch _ _ hrd ih =>
    obtain ⟨outcomes, hrd⟩ := round_eq_ok hrd
    rw [hrd.isSome_get? hrch.wellFormed, ih]
  | release _ _ _ hrel ih =>
    obtain ⟨_, rfl⟩ := release_eq_ok.mp hrel
    rw [(forces_release problem _).isSome, ih]
  | exhaust _ _ _ hex ih =>
    obtain ⟨_, rfl⟩ := exhaust_eq_ok.mp hex
    rw [(forces_exhaust problem _).isSome, ih]

/-- No function is refused to be made final, since all of them are in the table. -/
theorem Reached.knowsOpen : schedule.KnowsOpen problem := by
  intro id hid
  obtain ⟨known, hkn, _⟩ := Registry.mem_unfinished.mp hid
  obtain ⟨symbol, _, hsym, _⟩ := h.isSome_iff.mp (by rw [hkn]; rfl)
  rw [hsym]
  rfl

theorem Reached.released (hqu : schedule.queue = []) (hop : schedule.registry.unfinished ≠ []) :
    Reached problem calls history (schedule.released problem) :=
  .release h hqu hop (release_eq_ok.mpr ⟨h.knowsOpen, rfl⟩)

theorem Reached.exhausted (hqu : schedule.queue ≠ []) (hrds : problem.limits.rounds ≤ schedule.rounds) :
    Reached problem calls history (schedule.exhausted problem) :=
  .exhaust h hqu hrds (exhaust_eq_ok.mpr ⟨h.knowsOpen, rfl⟩)

theorem Reached.open_of_not_isFinal (hid : problem.IsFunction id) (hfin : ¬ schedule.registry.IsFinal id) :
    ∃ known, schedule.registry.get? id = some known ∧ known.final = false := by
  obtain ⟨known, hkn⟩ := Option.isSome_iff_exists.mp (h.isSome_iff.mpr hid)
  rw [Registry.isFinal_of_get? hkn, Bool.not_eq_true] at hfin
  exact ⟨known, hkn, hfin⟩

theorem Reached.allFinal_of_forces (hfcs : Forces problem schedule next) : next.AllFinal problem := by
  intro id hid
  have hso := hfcs.isSome id
  rw [h.isSome_iff.mpr hid, Option.isSome_iff_exists] at hso
  obtain ⟨known, hkn⟩ := hso
  exact ⟨known, hkn, hfcs.allFinal id known hkn⟩

end

/-- Induction along the states of a schedule, in which what it comes to by releasing functions or by using up the rounds
is given. -/
@[elab_as_elim, induction_eliminator]
theorem Reached.induct
    {motive : (history : List RoundRecord) → (schedule : Schedule) → Reached problem calls history schedule → Prop}
    (start : motive [] (.start problem calls) .start)
    (round : ∀ {history schedule next} (h : Reached problem calls history schedule) (hqu : schedule.queue ≠ [])
      (hrds : schedule.rounds < problem.limits.rounds) (hrd : Schedule.round problem schedule = .ok () next),
      motive history schedule h → motive _ next (.round h hqu hrds hrd))
    (release : ∀ {history schedule} (h : Reached problem calls history schedule) (hqu : schedule.queue = [])
      (hop : schedule.registry.unfinished ≠ []), motive history schedule h → motive _ _ (h.released hqu hop))
    (exhaust : ∀ {history schedule} (h : Reached problem calls history schedule) (hqu : schedule.queue ≠ [])
      (hrds : problem.limits.rounds ≤ schedule.rounds), motive history schedule h → motive _ _ (h.exhausted hqu hrds))
    {history : List RoundRecord} {schedule : Schedule} (h : Reached problem calls history schedule) :
    motive history schedule h := by
  induction h using Reached.rec with
  | start => exact start
  | round hrch hqu hrds hrd ih => exact round hrch hqu hrds hrd ih
  | release hrch hqu hop hrel ih =>
    obtain ⟨_, rfl⟩ := release_eq_ok.mp hrel
    exact release hrch hqu hop ih
  | exhaust hrch hqu hrds hex ih =>
    obtain ⟨_, rfl⟩ := exhaust_eq_ok.mp hex
    exact exhaust hrch hqu hrds ih

/-! ## Going through the states -/

/-- How a schedule goes on from a state that it can come to: no step is refused but a round. -/
theorem Reached.proceed_succ (h : Reached problem calls history schedule) (steps : Nat) :
    Schedule.proceed problem (steps + 1) schedule =
      if schedule.queue = [] then
        if schedule.registry.unfinished = [] then .ok () schedule
        else if schedule.rounds < problem.limits.rounds then Schedule.proceed problem steps (schedule.released problem)
        else .ok () (schedule.released problem)
      else if schedule.rounds < problem.limits.rounds then
        (Schedule.round problem >>= fun _ => Schedule.proceed problem steps) schedule
      else .ok () (schedule.exhausted problem) := by
  have hrel : Schedule.release problem schedule = .ok () (schedule.released problem) := release_eq_ok.mpr ⟨h.knowsOpen, rfl⟩
  have hexh : Schedule.exhaust problem schedule = .ok () (schedule.exhausted problem) := exhaust_eq_ok.mpr ⟨h.knowsOpen, rfl⟩
  rw [Schedule.proceed]
  change (if schedule.queue.isEmpty then _ else _ : Step Schedule Unit) schedule = _
  simp only [List.isEmpty_iff]
  split
  · split
    · rfl
    · change EStateM.bind (Schedule.release problem) _ schedule = _
      rw [EStateM.bind, hrel]
      dsimp only
      split <;> rfl
  · split
    · rfl
    · exact hexh

/-- What the schedule does next: it is done, it releases functions and goes on as long as there are rounds left, it goes
through a round and on, or it ends because there are none left. -/
theorem Reached.proceed_succ_eq_ok (h : Reached problem calls history schedule)
    (hprc : Schedule.proceed problem (steps + 1) schedule = .ok () next) :
    (schedule.queue = [] ∧ schedule.registry.unfinished = [] ∧ next = schedule) ∨
    (schedule.queue = [] ∧ schedule.registry.unfinished ≠ [] ∧
      if schedule.rounds < problem.limits.rounds then Schedule.proceed problem steps (schedule.released problem) = .ok () next
      else next = schedule.released problem) ∨
    (schedule.queue ≠ [] ∧ schedule.rounds < problem.limits.rounds ∧
      ∃ mid, Schedule.round problem schedule = .ok () mid ∧ Schedule.proceed problem steps mid = .ok () next) ∨
    (schedule.queue ≠ [] ∧ problem.limits.rounds ≤ schedule.rounds ∧ next = schedule.exhausted problem) := by
  rw [h.proceed_succ] at hprc
  split at hprc
  · next hqu =>
    split at hprc
    · next hunf =>
      cases hprc
      exact .inl ⟨hqu, hunf, rfl⟩
    · next hop =>
      refine .inr (.inl ⟨hqu, hop, ?_⟩)
      split at hprc
      · next hrds => rwa [if_pos hrds]
      · next hrds =>
        rw [if_neg hrds]
        cases hprc
        rfl
  · next hqu =>
    split at hprc
    · next hrds =>
      obtain ⟨_, mid, hrd, hprc⟩ := Step.bind_eq_ok.mp hprc
      exact .inr (.inr (.inl ⟨hqu, hrds, mid, hrd, hprc⟩))
    · next hrds =>
      cases hprc
      exact .inr (.inr (.inr ⟨hqu, Nat.le_of_not_lt hrds, rfl⟩))

theorem Reached.proceed (h : Reached problem calls history schedule)
    (hprc : Schedule.proceed problem steps schedule = .ok () next) :
    ∃ history, Reached problem calls history next := by
  induction steps generalizing history schedule with
  | zero =>
    cases hprc
    exact ⟨history, h⟩
  | succ steps ih =>
    rcases h.proceed_succ_eq_ok hprc with ⟨_, _, rfl⟩ | ⟨hqu, hop, hnx⟩ | ⟨hqu, hrds, mid, hrd, hnx⟩ |
      ⟨hqu, hrds, rfl⟩
    · exact ⟨history, h⟩
    · split at hnx
      · exact ih (h.released hqu hop) hnx
      · exact ⟨history, hnx ▸ h.released hqu hop⟩
    · exact ih (h.round hqu hrds hrd) hnx
    · exact ⟨history, h.exhausted hqu hrds⟩

theorem IsRound.allFinal {outcomes : List Outcome} (h : IsRound problem schedule outcomes next)
    (hfm : schedule.WellFormed problem) (hall : schedule.AllFinal problem) : next.AllFinal problem :=
  fun id hid => h.isFinal hfm (hall id hid)

/-- With more steps than there are rounds left, the schedule goes on until every function is final: a round uses up one
of both, and after a release nothing is left to be made final. -/
theorem Reached.allFinal_proceed (h : Reached problem calls history schedule)
    (hsteps : schedule.AllFinal problem ∨ problem.limits.rounds - schedule.rounds < steps)
    (hprc : Schedule.proceed problem steps schedule = .ok () next) : next.AllFinal problem := by
  induction steps generalizing history schedule with
  | zero =>
    cases hprc
    exact hsteps.resolve_right (Nat.not_lt_zero _)
  | succ steps ih =>
    rcases h.proceed_succ_eq_ok hprc with ⟨_, hno, rfl⟩ | ⟨hqu, hop, hnx⟩ |
      ⟨hqu, hrds, mid, hrd, hnx⟩ | ⟨hqu, hrds, rfl⟩
    · intro id hid
      by_contra hfin
      have hmem := Registry.mem_unfinished.mpr (h.open_of_not_isFinal hid hfin)
      rw [hno] at hmem
      nomatch hmem
    · have hreleased := h.allFinal_of_forces (forces_release problem schedule)
      split at hnx
      · exact ih (h.released hqu hop) (.inl hreleased) hnx
      · exact hnx ▸ hreleased
    · have hrch := h.round hqu hrds hrd
      obtain ⟨outcomes, hrd⟩ := round_eq_ok hrd
      refine ih hrch ?_ hnx
      rw [hrd.rounds_eq h.wellFormed]
      rcases hsteps with hall | hsteps
      · exact .inl (hrd.allFinal h.wellFormed hall)
      · exact .inr (by omega)
    · exact h.allFinal_of_forces (forces_exhaust problem schedule)

end Schedule

end SoftTyping
