import SoftTyping.Proofs.Schedule.Solved

/-!
# A solver that was refused

Whoever drives an analysis edits the tree, attaches reporters and asks for steps of the passes, for the solver and for the
next run, in any order. A solver that is refused in the middle of its work has changed nothing but how far it is. From then on
the passes and the solver are refused without changing anything, until the next run is started. Main statement:
`solve_refused`.
-/

namespace SoftTyping

open Step SymbolTable

namespace Analyser

variable {analyser refused : Analyser} {fault : Fault} {pool : WorkerPool}

/-- What can be asked of an analyser. The tree belongs to whoever drives the analysis and can be edited at any time. -/
inductive Request : Type 1 where
  | edit (change : Tree → Tree)
  | attach
  | inPass {α : Type} (pass : Pass) (step : Step Workspace α)
  | solve (pool : WorkerPool)
  | reset

/-- The analyser that a request leaves behind, whether it is refused or not. -/
def serve (analyser : Analyser) : Request → Analyser
  | .edit change => { analyser with workspace := { analyser.workspace with tree := change analyser.workspace.tree } }
  | .attach => { analyser with workspace := { analyser.workspace with issues := analyser.workspace.issues.attach } }
  | .inPass pass step => (Analyser.inPass pass step).leaves analyser
  | .solve pool => (Analyser.solve pool).leaves analyser
  | .reset => Analyser.reset.leaves analyser

/-- The analyser after requests. -/
def serveAll (analyser : Analyser) (requests : List Request) : Analyser := requests.foldl serve analyser

/-! ## Single requests -/

/-- A step of a pass is done on the workspace while the solver is idle, and refused otherwise. -/
theorem inPass_eq {α : Type} (pass : Pass) (step : Step Workspace α) (analyser : Analyser) :
    inPass pass step analyser =
      if analyser.solver.phase = .idle then onWorkspace step analyser
      else .error (.invalidSolverState pass.operation analyser.solver.phase.render) analyser := by
  change EStateM.bind (query (ensureIdle pass)) (fun _ => onWorkspace step) analyser = _
  unfold EStateM.bind query ensureIdle
  by_cases hidl : analyser.solver.phase = .idle
  · rw [if_pos hidl, if_pos hidl]
  · rw [if_neg hidl, if_neg hidl]

/-- What a solver works on in an analyser. -/
def solving (analyser : Analyser) : Solving := ⟨analyser.solver, analyser.workspace.table, analyser.workspace.issues⟩

theorem solve_eq (pool : WorkerPool) (analyser : Analyser) :
    Analyser.solve pool analyser = onSolving (Solver.solve pool analyser.workspace.flow) analyser := rfl

/-- The analyser of the next run, with its table. -/
def renewed (analyser : Analyser) (table : SymbolTable) : Analyser :=
  { analyser with
    generation := analyser.generation + 1
    workspace := { analyser.workspace with table, flow := .empty, issues := analyser.workspace.issues.reset }
    solver := analyser.solver.reset }

/-- The next run starts when its libraries can be declared. -/
theorem reset_eq (analyser : Analyser) : reset analyser =
    match withLibraries (analyser.generation + 1) analyser.libraries with
    | .ok table => .ok (analyser.generation + 1) (analyser.renewed table)
    | .error fault => .error fault { analyser with generation := analyser.generation + 1 } := by
  change (query (fun _ => withLibraries (analyser.generation + 1) analyser.libraries) >>= _)
    { analyser with generation := analyser.generation + 1 } = _
  change EStateM.bind _ _ _ = _
  unfold EStateM.bind query
  cases withLibraries (analyser.generation + 1) analyser.libraries <;> rfl

/-! ## A solver that is refused -/

/-- What makes an idle solver refuse: it gets no workers, or its schedule is refused. -/
def Refuses (pool : WorkerPool) (fault : Fault) (analyser : Analyser) : Prop :=
  let problem := analyser.solver.problem analyser.workspace.table analyser.workspace.flow
  Solver.engage pool analyser.solver = .error fault ∨
    ∃ last, Schedule.complete problem (.start problem analyser.solver.calls) = .error fault last

/-- An idle solver is never refused to publish what it has found, and before that it has changed nothing but itself. -/
theorem solver_refused {after : Solving} (hidl : analyser.solver.phase = .idle)
    (h : Solver.solve pool analyser.workspace.flow analyser.solving = .error fault after) :
    analyser.Refuses pool fault ∧ after.table = analyser.workspace.table ∧ after.issues = analyser.workspace.issues ∧
      after.solver =
        { analyser.solver with phase := .solving, calls := after.solver.calls, rounds := after.solver.rounds } := by
  unfold Solver.solve solving at h
  rw [Solver.solveBy_of_idle hidl fun _ => Solver.publish_of_complete] at h
  split at h
  · next hno =>
    cases h
    exact ⟨.inl hno, rfl, rfl, rfl⟩
  · split at h
    · next last hrfu =>
      cases h
      exact ⟨.inr ⟨last, hrfu⟩, rfl, rfl, rfl⟩
    · nomatch h

theorem exists_of_solve_refused (h : solve pool analyser = .error fault refused) :
    ∃ after, Solver.solve pool analyser.workspace.flow analyser.solving = .error fault after ∧
      refused = { analyser with
        solver := after.solver
        workspace := { analyser.workspace with table := after.table, issues := after.issues } } := by
  rw [solve_eq] at h
  exact Step.onPart_eq_error.mp h

/-- Requests that a solver in the middle of its work refuses. -/
def Request.NeedsSolver : Request → Prop
  | .inPass _ _ | .solve _ => True
  | .edit _ | .attach | .reset => False

theorem solve_of_solving (h : analyser.solver.phase = .solving) (pool : WorkerPool) :
    solve pool analyser = .error (.invalidSolverState "solve" "solving") analyser := by
  rw [solve_eq]
  exact Step.onPart_eq_error.mpr ⟨analyser.solving, Solver.solveBy_of_solving h, rfl⟩

theorem inPass_of_solving {α : Type} (h : analyser.solver.phase = .solving) (pass : Pass) (step : Step Workspace α) :
    inPass pass step analyser = .error (.invalidSolverState pass.operation "solving") analyser := by
  rw [inPass_eq, h, if_neg SolverPhase.noConfusion]
  rfl

theorem serveAll_of_solving (h : analyser.solver.phase = .solving) {requests : List Request}
    (hrequests : ∀ request ∈ requests, request.NeedsSolver) : analyser.serveAll requests = analyser := by
  induction requests with
  | nil => rfl
  | cons request rest ih =>
    have hserve : analyser.serve request = analyser := by
      cases request with
      | inPass pass step => rw [serve, Step.leaves, inPass_of_solving h]
      | solve pool => rw [serve, Step.leaves, solve_of_solving h]
      | edit _ | attach | reset => exact (hrequests _ List.mem_cons_self).elim
    rw [serveAll, List.foldl_cons, hserve]
    exact ih fun other hoth => hrequests other (List.mem_cons_of_mem _ hoth)

/-- When an idle solver is refused, it has got no workers or its schedule was refused. The tree, the table with all overloads,
the flow, the log and what the solver had found are as before, and the solver is left in the middle of its work. From then on
the solver and every step of every pass are refused for that reason and change nothing, however often they are asked for. The
next run can be started as soon as its libraries can be declared, and then the solver is idle and no pass is refused. When they
cannot, nothing but the generation is new. -/
theorem solve_refused (hidle : analyser.solver.phase = .idle) (hrefused : solve pool analyser = .error fault refused) :
    analyser.Refuses pool fault ∧
      refused.workspace = analyser.workspace ∧
      refused.solver.results = analyser.solver.results ∧
      refused.solver.lattice = analyser.solver.lattice ∧
      refused.solver.phase = .solving ∧
      (∀ again, solve again refused = .error (.invalidSolverState "solve" "solving") refused) ∧
      (∀ {α : Type} (pass : Pass) (step : Step Workspace α),
        inPass pass step refused = .error (.invalidSolverState pass.operation "solving") refused) ∧
      (∀ requests : List Request, (∀ request ∈ requests, request.NeedsSolver) → refused.serveAll requests = refused) ∧
      (∀ table, withLibraries (analyser.generation + 1) analyser.libraries = .ok table →
        ∃ next, reset refused = .ok (analyser.generation + 1) next ∧ next.workspace.table = table ∧ next.solver.phase = .idle ∧
          ∀ {α : Type} (pass : Pass) (step : Step Workspace α), inPass pass step next = onWorkspace step next) ∧
      ∀ fault, withLibraries (analyser.generation + 1) analyser.libraries = .error fault →
        reset refused = .error fault { refused with generation := analyser.generation + 1 } := by
  obtain ⟨after, hsolve, hkept⟩ := exists_of_solve_refused hrefused
  obtain ⟨hwhy, htable, hissues, hsolver⟩ := solver_refused hidle hsolve
  rw [htable, hissues, hsolver] at hkept
  have hphase : refused.solver.phase = .solving := by rw [hkept]
  have hgeneration : refused.generation = analyser.generation := by rw [hkept]
  have hlibraries : refused.libraries = analyser.libraries := by rw [hkept]
  refine ⟨hwhy, by rw [hkept], by rw [hkept], by rw [hkept], hphase, solve_of_solving hphase, inPass_of_solving hphase,
    fun requests => serveAll_of_solving hphase, fun table hdeclared => ?_, fun fault hdeclared => ?_⟩
  · refine ⟨refused.renewed table, by rw [reset_eq, hgeneration, hlibraries, hdeclared], rfl, rfl, fun pass step => ?_⟩
    rw [inPass_eq]
    exact if_pos rfl
  · rw [reset_eq, hgeneration, hlibraries, hdeclared]

/-! ## An analyser whose solver is refused -/

def countingLibraries : List Library :=
  [[.type "int" [], .method .operator "+" ["int, int -> int"], .method .operator echoName ["int -> int"]]]

/-- A sum of two numbers is written out. -/
def countingProgram : List SourceTree :=
  [.node .echoStmt "" ⟨1, 1⟩ [.node .operator "+" ⟨1, 6⟩ [
    .node (.literal .int) "1" ⟨1, 6⟩ [], .node (.literal .int) "2" ⟨1, 10⟩ []]]]

def countingAnalyser : Analyser where
  config := {}
  workspace := {
    tree := .empty
    table := (SymbolTable.withLibraries 0 countingLibraries).toOption.getD default
    flow := .empty
    issues := {} }
  solver := { limits := {} }
  resolvers := Resolver.standard
  libraries := countingLibraries

/-- The program is analysed. In the next run its nodes still have the type variables of the last one, and what is written out
is typed before the sum is. -/
def countingHistory : List Request :=
  [.edit fun _ => .ofProgram countingProgram,
    .inPass .declaring Workspace.declareAll, .inPass .referring (Workspace.referAll countingAnalyser.rules),
    .inPass .constraining Workspace.typeAll,
    .reset,
    .inPass .declaring Workspace.declareAll, .inPass .constraining (Workspace.typeEcho ⟨1⟩)]

theorem solve_refused_counting : ∃ refused, solve .ready (countingAnalyser.serveAll countingHistory) =
      .error (.unknownTypeVariable ⟨2⟩) refused ∧ refused.solver.phase = .solving ∧
      refused.workspace = (countingAnalyser.serveAll countingHistory).workspace ∧
      refused.serveAll [.solve .ready, .inPass .declaring Workspace.declareAll] = refused ∧
      ∃ generation next, reset refused = .ok generation next ∧ next.solver.phase = .idle := by
  have hidle : (countingAnalyser.serveAll countingHistory).solver.phase = .idle := by decide +kernel
  have hanswer : (solve .ready).answer (countingAnalyser.serveAll countingHistory) = .error (.unknownTypeVariable ⟨2⟩) := by
    decide +kernel
  have hlibraries : (withLibraries ((countingAnalyser.serveAll countingHistory).generation + 1)
      (countingAnalyser.serveAll countingHistory).libraries).isOk = true := by decide +kernel
  unfold Step.answer at hanswer
  cases hsolve : solve .ready (countingAnalyser.serveAll countingHistory) with
  | ok => rw [hsolve] at hanswer; nomatch hanswer
  | error fault refused =>
    rw [hsolve] at hanswer
    cases hanswer
    obtain ⟨_, hworkspace, _, _, hphase, _, _, hserve, hreset, _⟩ := solve_refused hidle hsolve
    cases hdeclared : withLibraries ((countingAnalyser.serveAll countingHistory).generation + 1)
      (countingAnalyser.serveAll countingHistory).libraries with
    | error => rw [hdeclared] at hlibraries; nomatch hlibraries
    | ok table =>
      obtain ⟨next, hnext, _, hidle, _⟩ := hreset table hdeclared
      refine ⟨refused, rfl, hphase, hworkspace, hserve _ ?_, _, next, hnext, hidle⟩
      intro request hrequest
      simp only [List.mem_cons, List.not_mem_nil, or_false] at hrequest
      rcases hrequest with rfl | rfl <;> exact trivial

end Analyser

end SoftTyping
