import SoftTyping.Proofs.Analysis.Course
import SoftTyping.Proofs.Analysis.DefiniteAssignment

/-!
# Programs that have been analysed

When all passes have been made over a program, the flow that is left is generated (`Analysed.types`), and the pass that made
the constraints has made moves only (`Analysed.runs`).
-/

namespace SoftTyping.Workspace

open SymbolTable Shape

variable {w : Workspace}

/-- The statements of a program are the children of its root. -/
theorem map_id_statements (hwf : w.tree.WellFormed) : w.statements.map Shape.id = w.tree.children Tree.root := by
  have hsh := Tree.isShape_shape hwf Tree.root
  have hid := Tree.id_shape w.tree Tree.root
  rw [statements]
  cases hroot : w.tree.shape Tree.root with
  | node id kind children =>
    rw [hroot] at hsh hid
    cases hid
    obtain ⟨_, hch, _⟩ := hsh
    exact hch

/-- The passes have been made over a program, one after another, from a table with built-in libraries. -/
structure Analysed (rules : NameRules) (w w₁ w₂ w₃ : Workspace) : Prop where
  libraries : ∃ generation libraries, SymbolTable.withLibraries generation libraries = .ok w.table
  wellFormed : w.tree.WellFormed
  untyped : w.Untyped
  flow : w.flow = .empty
  declared : declareAll w = .ok () w₁
  referred : referAll rules w₁ = .ok () w₂
  constrained : typeAll w₂ = .ok () w₃

namespace Analysed

variable {rules : NameRules} {w₁ w₂ w₃ : Workspace} (h : Analysed rules w w₁ w₂ w₃)

include h

/-- The first pass marks nodes and declares symbols. -/
theorem touches : Touches (fun _ => True) w w₁ := by
  have := (stands_declareAll h.wellFormed h.declared).touches
  exact this.mono fun _ _ => trivial

/-- The tree is well formed after the first pass. -/
theorem wellFormed₁ : w₁.tree.WellFormed := h.touches.tree.wellFormed h.wellFormed

/-- The second pass marks nodes and binds names. -/
theorem refers : Refers (HasAny w₁.statements) w₁ w₂ := refers_referAll h.wellFormed₁ h.referred

/-- The tree is well formed after the second pass. -/
theorem wellFormed₂ : w₂.tree.WellFormed := h.refers.wellFormed h.wellFormed₁

/-- Before the third pass no node has a type variable, so those that there are fit. -/
theorem typed : w₂.Typed := by
  obtain ⟨generation, libraries, hlib⟩ := h.libraries
  have hsd : w₂.table.Sound := h.refers.table.sound (h.touches.table.sound (sound_withLibraries hlib))
  have hflow : w₂.flow = .empty := h.refers.flow.trans (h.touches.flow.trans h.flow)
  have hut : w₂.Untyped := h.refers.untyped fun hnd => by
    obtain ⟨node, hold, htpVar⟩ := h.touches.typeVar hnd
    exact htpVar.trans (h.untyped hold)
  refine ⟨hsd, hflow ▸ Flow.generated_empty _, fun hnd htpVar => ?_⟩
  rw [hut hnd] at htpVar
  nomatch htpVar

/-- The second pass leaves the order of the statements. -/
theorem statements_ids : w₂.statements.map Shape.id = w₁.statements.map Shape.id := by
  have hroot : ¬ Shape.HasAny w₁.statements Tree.root := by
    rintro ⟨shape, hsh, hhas⟩
    have hbel := (apart_statements h.wellFormed₁).isShape shape hsh |>.below_of_has hhas
    have hcd : shape.id ∈ w₁.tree.children Tree.root := by
      rw [← map_id_statements h.wellFormed₁]
      exact List.mem_map_of_mem hsh
    have haf := h.wellFormed₁.after hcd
    have hle := hbel.le h.wellFormed₁
    omega
  cases hget : w₁.tree.get? Tree.root with
  | some node =>
    rw [map_id_statements h.wellFormed₁, map_id_statements h.wellFormed₂, Tree.children_of_get? hget,
      Tree.children_of_get? (h.refers.frame hroot hget)]
  | none =>
    have hno : w₁.statements = [] := by
      rw [← List.map_eq_nil_iff (f := Shape.id), map_id_statements h.wellFormed₁, Tree.children, hget]
    have hrfd := h.referred
    simp only [referAll, Step.bind_eq_ok, Step.get_eq_ok] at hrfd
    obtain ⟨_, _, ⟨rfl, rfl⟩, hrfd⟩ := hrfd
    rw [hno] at hrfd
    rw [(Step.pure_eq_ok.mp hrfd).2]

/-- Before the third pass the statements stand in the default namespace. -/
theorem ready : ∃ lo hi, Ready .statement w.table.defaultNamespace lo hi w₂.statements w₂ := by
  obtain ⟨generation, libraries, hlib⟩ := h.libraries
  have hrdy := ready_statements h.wellFormed (SymbolTable.rooted_withLibraries hlib) h.declared
  have hrdy₂ := hrdy.refers h.refers
  have hap := apart_statements h.wellFormed₂
  refine ⟨_, _, ⟨fun shape hsh => ?_, hap.distinct h.wellFormed₂, h.statements_ids ▸ hrdy₂.stands, hrdy₂.rooted,
    hrdy₂.scope⟩⟩
  exact follows_of_isShape h.wellFormed₂ (hap.isShape shape hsh) (hap.isThere shape hsh)

/-- Before the third pass declarations belong to the scopes in which they were made. -/
theorem owned : w₂.table.Owned := by
  obtain ⟨_, _, hlib⟩ := h.libraries
  have hwn₁ := keeps_of_changes h.touches.declares Declares.owned
    (owned_withLibraries hlib)
  exact keeps_of_changes h.refers.binds Binds.owned hwn₁

/-- The first two passes make no constraints. -/
theorem flow₂ : w₂.flow = .empty := h.refers.flow.trans (h.touches.flow.trans h.flow)

/-- All statements are ahead of the third pass: it has opened no function. -/
theorem ahead : ∃ lo hi, Ahead .statement w.table.defaultNamespace lo hi w₂.statements w₂ := by
  obtain ⟨lo, hi, hrdy⟩ := h.ready
  have hbdys : ∀ body, w₂.flow.HasBody body ↔ BodyId.global = body := by
    intro body
    rw [h.flow₂, Flow.HasBody, Flow.body?, Flow.empty, OrderedMap.get?_insert]
    split
    · next hbdy => simp [hbdy]
    · next hbdy => simp [hbdy]
  refine ⟨lo, hi, h.typed, hrdy, ?_, h.owned.oneScopeEach, (hbdys _).mpr rfl, ?_, ?_⟩
  · rw [h.flow₂]
    intro body symbol id hid
    cases hid
  · intro body hbdy
    obtain ⟨_, hsc⟩ := hrdy.scope
    obtain ⟨entry, path, he, hk⟩ := hrdy.rooted.special 0 (by omega)
    rw [← (scope?_eq_some hsc).1] at he
    rw [hbdy.unique (hrdy.rooted.isBodyOf_namespace he (by rw [Scope.isNamespace, hk]))]
    exact (hbdys _).mpr rfl
  · intro function _ hbdy
    cases (hbdys _).mp hbdy

/-- The third pass types nodes and makes moves only. -/
theorem advances : ∃ opens, Advances (AtLoop .statement none w₂.statements w₂) opens w₂ w₃ := by
  obtain ⟨lo, hi, hahead⟩ := h.ahead
  exact ⟨_, advances_typeAll hahead h.constrained⟩

/-- The third pass types nodes and makes constraints for them. -/
theorem types : Types w₂ w₃ := by
  obtain ⟨_, hadv⟩ := h.advances
  exact hadv.types

/-- The third pass is a run of moves whose loops are those that it comes to. -/
theorem runs : ∃ opens, Runs (AtLoop .statement none w₂.statements w₂) opens w₂ w₃ := by
  obtain ⟨opens, hadv⟩ := h.advances
  exact ⟨opens, hadv.runs⟩

/-- In the end the parameters of each body are listed. -/
theorem listsParameters : w₃.flow.ListsParameters := by
  obtain ⟨_, hruns⟩ := h.runs
  refine hruns.listsParameters ?_
  rw [h.flow₂]
  intro id var hvar
  nomatch hvar

end Analysed

/-! ## A program -/

/-- A function that goes through a loop until it has a value to give back, which it has computed from its parameter. -/
def loopingProgram : List SourceTree :=
  [.node .functionDecl "f" ⟨1, 1⟩ [.node .parameter "$p" ⟨1, 2⟩ [], .node .block "" ⟨1, 3⟩ [
    .node .assign "" ⟨2, 1⟩ [.node .variableRef "$x" ⟨2, 2⟩ [], .node (.literal .null) "null" ⟨2, 3⟩ []],
    .node .assign "" ⟨3, 1⟩ [.node .variableRef "$y" ⟨3, 2⟩ [],
      .node .call "abs" ⟨3, 3⟩ [.node .variableRef "$p" ⟨3, 4⟩ []]],
    .node .whileStmt "" ⟨4, 1⟩ [.node (.literal .bool) "true" ⟨4, 2⟩ [],
      .node .block "" ⟨4, 3⟩ [
        .node .ifStmt "" ⟨5, 1⟩ [.node .variableRef "$x" ⟨5, 2⟩ [],
          .node .block "" ⟨5, 3⟩ [.node .returnStmt "" ⟨6, 1⟩ [.node .variableRef "$x" ⟨6, 2⟩ []]]],
        .node .assign "" ⟨7, 1⟩ [.node .variableRef "$x" ⟨7, 2⟩ [], .node .variableRef "$y" ⟨7, 3⟩ []]]]]]]

/-- The types of literals, and a function that keeps the type of a number. -/
def loopingLibraries : List Library :=
  [Library.standardTypes ++ [.method .function "abs" ["int -> int", "float -> float"]]]

def loopingStart : Workspace where
  tree := .ofProgram loopingProgram
  table := (SymbolTable.withLibraries 0 loopingLibraries).toOption.getD default
  flow := .empty
  issues := {}

def loopingDeclared : Workspace := left (declareAll loopingStart)

def loopingReferred : Workspace := left (referAll ⟨Resolver.standard, true⟩ loopingDeclared)

def loopingTyped : Workspace := left (typeAll loopingReferred)

/-- A program before its analysis, with the standard types. -/
def startOf (program : List SourceTree) : Workspace where
  tree := .ofProgram program
  table := (SymbolTable.withLibraries 0 [Library.standardTypes]).toOption.getD default
  flow := .empty
  issues := {}

/-- The standard types can be registered. -/
theorem withLibraries_startOf (program : List SourceTree) :
    withLibraries 0 [Library.standardTypes] = .ok (startOf program).table := by
  dsimp only [startOf]
  exact Refusal.eq_ok_getD _ (by decide +kernel)

/-- A tree whose nodes have no type variables is untyped. -/
theorem untyped_of_nodes (h : w.tree.nodes.all (fun node => node.typeVar.isNone) = true) : w.Untyped :=
  fun {_ node} hnd => Option.isNone_iff_eq_none.mp (Array.all_eq_true_iff_forall_mem.mp h node (Array.mem_of_getElem? hnd))

/-- The libraries of the program can be registered. -/
theorem withLibraries_looping : withLibraries 0 loopingLibraries = .ok loopingStart.table := by
  dsimp only [loopingStart]
  exact Refusal.eq_ok_getD _ (by decide +kernel)

/-- The program passes all three passes. -/
theorem analysed_looping :
    Analysed ⟨Resolver.standard, true⟩ loopingStart loopingDeclared loopingReferred loopingTyped where
  libraries := ⟨0, loopingLibraries, withLibraries_looping⟩
  wellFormed := Tree.wellFormed_ofProgram loopingProgram
  untyped := untyped_of_nodes (by decide +kernel)
  flow := rfl
  declared := eq_ok_left (by decide +kernel)
  referred := eq_ok_left (by decide +kernel)
  constrained := eq_ok_left (by decide +kernel)

end SoftTyping.Workspace
