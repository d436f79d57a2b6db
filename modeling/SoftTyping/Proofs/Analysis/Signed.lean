import SoftTyping.Proofs.Analysis.Analysed
import SoftTyping.Proofs.SymbolTable.Variables

/-!
# The parameters of the functions of a program

A function is opened once. Its parameters get their type variables then, in order and with the types that they are declared
with, and nothing that the pass does later changes that (`Analysed.signed`).
-/

namespace SoftTyping

open SymbolTable Flow

namespace SymbolTable

variable {table table' table'' : SymbolTable} {id : SymbolId} {entry : Symbol}

/-- The symbols of two tables differ in the versions of variables only. -/
def MatchesSymbols (table table' : SymbolTable) : Prop :=
  ∀ id, (table'.symbol? id).map Symbol.unversioned = (table.symbol? id).map Symbol.unversioned

theorem MatchesSymbols.refl (table : SymbolTable) : table.MatchesSymbols table := fun _ => rfl

theorem MatchesSymbols.trans (h : table.MatchesSymbols table') (h' : table'.MatchesSymbols table'') :
    table.MatchesSymbols table'' := fun id => (h' id).trans (h id)

theorem MatchesSymbols.symbol? (h : table.MatchesSymbols table') (he : table.symbol? id = some entry) :
    ∃ entry', table'.symbol? id = some entry' ∧ entry'.method? = entry.method? ∧ entry'.type? = entry.type? ∧
      entry'.var?.bind (·.declared) = entry.var?.bind (·.declared) := by
  have hid := h id
  rw [he, Option.map_some] at hid
  obtain ⟨entry', he', hsm⟩ := Option.map_eq_some_iff.mp hid
  have hmth : ∀ symbol : Symbol, symbol.unversioned.method? = symbol.method? := by
    rintro ⟨_, _, _, data⟩
    cases data <;> rfl
  have htp : ∀ symbol : Symbol, symbol.unversioned.type? = symbol.type? := by
    rintro ⟨_, _, _, data⟩
    cases data <;> rfl
  have hdec : ∀ symbol : Symbol, symbol.unversioned.var?.bind (·.declared) = symbol.var?.bind (·.declared) := by
    rintro ⟨_, _, _, data⟩
    cases data <;> rfl
  exact ⟨entry', he', by rw [← hmth, hsm, hmth], by rw [← htp, hsm, htp],
    by rw [← hdec, hsm, hdec]⟩

theorem MatchesSymbols.symm (h : table.MatchesSymbols table') : table'.MatchesSymbols table := fun id => (h id).symm

theorem DiffersInVersions.declaresTypes (h : table.DiffersInVersions table') (hwas : table.DeclaresTypes) :
    table'.DeclaresTypes := by
  intro id symbol data hsym hdt type htp
  obtain ⟨old, hold, _, _, hdec⟩ := MatchesSymbols.symbol? (fun id => (h.symbols id).symm) hsym
  rw [hdt, Option.bind_some, htp] at hdec
  obtain ⟨olddata, holddata, htp⟩ := Option.bind_eq_some_iff.mp hdec
  refine (hwas hold holddata type htp).imp (fun herr => ?_) fun ⟨name, entry, typeData, he, htpData, hnm⟩ => ?_
  · rw [herr, erroneousType, erroneousType, h.generation]
  · obtain ⟨entry', he', _, hsm, _⟩ := MatchesSymbols.symbol? h.symbols he
    exact ⟨name, entry', typeData, he', hsm.trans htpData, hnm⟩

end SymbolTable

/-- A type variable is that of the parameter `symbol`, which stands at the place `index`. -/
def Flow.IsParameter (flow : Flow) (table : SymbolTable) (symbol : SymbolId) (index : Nat) (id : TypeVarId) : Prop :=
  ∃ entry var, table.symbol? symbol = some entry ∧ flow.typeVar? id = some var ∧ var.parameterIndex = some index ∧
    var.fixed = entry.var?.bind (·.declared)

/-- Type variables are those of parameters, which are numbered from `index` on. -/
def Flow.AreParameters (flow : Flow) (table : SymbolTable) (index : Nat) (symbols : List SymbolId) (ids : List TypeVarId) :
    Prop :=
  List.Forall₂ (fun entry id => flow.IsParameter table entry.1 entry.2 id) (symbols.zipIdx index) ids

theorem Flow.IsParameter.mono {flow flow' : Flow} {table table' : SymbolTable} {symbol : SymbolId} {index : Nat}
    {id : TypeVarId} (h : flow.IsParameter table symbol index id) (hflow : flow.Extends flow')
    (htb : table.MatchesSymbols table') : flow'.IsParameter table' symbol index id := by
  obtain ⟨entry, var, he, hvar, hix, hfx⟩ := h
  obtain ⟨entry', he', _, _, hdec⟩ := htb.symbol? he
  obtain ⟨var', hvar', hgr⟩ := hflow hvar
  exact ⟨entry', var', he', hvar', hgr.parameterIndex.trans hix, by rw [hgr.fixed, hfx, hdec]⟩

theorem Flow.AreParameters.mono {flow flow' : Flow} {table table' : SymbolTable} {index : Nat} {symbols : List SymbolId}
    {ids : List TypeVarId} (h : flow.AreParameters table index symbols ids) (hflow : flow.Extends flow')
    (htb : table.MatchesSymbols table') : flow'.AreParameters table' index symbols ids :=
  List.Forall₂.imp (fun _ _ hone => hone.mono hflow htb) h

namespace Workspace

variable {w w' : Workspace} {loops : TypeVarId → Prop} {opens : SymbolId → Prop} {body : BodyId} {function : SymbolId}
  {var : TypeVar} {u : Unit}

theorem Adds.matchesSymbols (h : Adds var w w') : w.table.MatchesSymbols w'.table := by
  intro id
  rw [h.symbol?]
  split
  · rw [Option.map_map]
    refine congrArg (fun f => Option.map f _) (funext fun symbol => ?_)
    obtain ⟨_, _, _, data⟩ := symbol
    cases data <;> rfl
  · rfl

/-- The functions that have been met have the type variables of their parameters. -/
def Signed (w : Workspace) : Prop :=
  ∀ ⦃function entry data⦄, w.flow.HasBody (.function function) → w.table.symbol? function = some entry →
    entry.method? = some data → w.flow.AreParameters w.table 0 data.parameters (w.flow.body (.function function)).parameters

section

variable {entry : Symbol} {data : MethodData} (h : w.Signed) (hbdy : w.flow.HasBody (.function function))
  (he : w.table.symbol? function = some entry) (hdt : entry.method? = some data)

include h hbdy he hdt

theorem Signed.length_eq : (w.flow.body (.function function)).parameters.length = data.parameters.length := by
  have hlen := List.Forall₂.length_eq (h hbdy he hdt)
  rw [List.length_zipIdx] at hlen
  exact hlen.symm

theorem Signed.parameter {index : Nat} {id : TypeVarId}
    (hid : (w.flow.body (.function function)).parameters[index]? = some id) :
    ∃ symbol, data.parameters[index]? = some symbol ∧ w.flow.IsParameter w.table symbol index id := by
  obtain ⟨hlt, hget⟩ := List.getElem?_eq_some_iff.mp hid
  have hlen := h.length_eq hbdy he hdt
  have hone := List.Forall₂.get (h hbdy he hdt) (by rw [List.length_zipIdx]; omega) hlt
  rw [List.get_eq_getElem, List.get_eq_getElem, hget, List.getElem_zipIdx, Nat.zero_add] at hone
  exact ⟨_, List.getElem?_eq_getElem (by omega), hone⟩

end

/-- What keeps the parameters of bodies keeps this. -/
theorem Signed.of_same (h : w.Signed) (hbdys : ∀ function, w'.flow.HasBody (.function function) →
      w.flow.HasBody (.function function))
    (hpars : ∀ body, (w'.flow.body body).parameters = (w.flow.body body).parameters)
    (hflow : w.flow.Extends w'.flow) (htb : w.table.MatchesSymbols w'.table) : w'.Signed := by
  intro function entry data hbdy he hdt
  obtain ⟨entry', he', hmth, _⟩ := htb.symm.symbol? he
  rw [hpars]
  exact (h (hbdys function hbdy) he' (hmth.trans hdt)).mono hflow htb

/-- Opening parameters lists their type variables behind those that are listed already. -/
theorem areParameters_openParameters {index : Nat} {symbols : List SymbolId}
    (h : openParameters body index symbols w = .ok u w') :
    w.flow.Extends w'.flow ∧ w.table.MatchesSymbols w'.table ∧ (∃ ids, w'.flow.AreParameters w'.table index symbols ids ∧
      ∀ other, (w'.flow.body other).parameters = (w.flow.body other).parameters ++ if body = other then ids else []) := by
  induction symbols generalizing index w with
  | nil =>
    rw [(Step.pure_eq_ok.mp h).2]
    exact ⟨.refl _, .refl _, [], .nil, by simp⟩
  | cons symbol rest ih =>
    obtain ⟨entry, w₁, he, hads, hpars, hrs⟩ := openParameters_cons h
    obtain ⟨hflow, htb, ids, hids, hmore⟩ := ih hrs
    refine ⟨hads.extends.trans hflow, hads.matchesSymbols.trans htb, ⟨w.flow.typeVars.size⟩ :: ids,
      .cons (IsParameter.mono ?_ hflow htb) hids, fun other => ?_⟩
    · obtain ⟨entry', he', _, _, hdec⟩ := hads.matchesSymbols.symbol? he
      exact ⟨entry', _, he', by rw [hads.flow.typeVar?, if_pos rfl], rfl, hdec.symm⟩
    · rw [hmore, hpars, List.append_assoc]
      split <;> rfl

theorem Moves.matchesSymbols (h : Moves loops opens w w') : w.table.MatchesSymbols w'.table := by
  cases h with
  | annotate | heads => exact .refl _
  | adds _ _ hads _ => exact hads.matchesSymbols
  | source hjn _ h =>
    obtain ⟨_, _, _, _, _, rfl⟩ := addSource_eq_ok hjn h
    exact .refl _
  | function _ hfr hsym h =>
    refine openFunction_keeps (fun v => w.table.MatchesSymbols v.table) hfr hsym ?_ ?_ ?_ h (.refl _)
    · exact fun hv => hv
    · exact fun _ hads hv => hv.trans hads.matchesSymbols
    · exact fun _ hv => hv

theorem Moves.signed (h : Moves loops opens w w') (hsigned : w.Signed) : w'.Signed := by
  have hflow := h.extends
  have htb := h.matchesSymbols
  cases h with
  | annotate | heads => exact hsigned.of_same (fun _ hbdy => hbdy) (fun _ => rfl) hflow htb
  | adds hbdy _ hads hpars =>
    refine hsigned.of_same (fun function hmet => ?_) hpars hflow htb
    exact ((hads.flow.hasBody _).mp hmet).elim (fun heq => heq ▸ hbdy) id
  | source hjn _ h =>
    obtain ⟨_, _, _, _, _, rfl⟩ := addSource_eq_ok hjn h
    exact hsigned.of_same (fun _ hbdy => hbdy) (fun _ => rfl) hflow htb
  | @function _ function body _ _ hfr hsym h =>
    have hmet := hasBody_openFunction hfr hsym h
    obtain ⟨other, _, entry, w₁, w₂, hoth, _, he, rfl, hopn, hret, hsm, rfl⟩ := openFunction_eq_ok h
    obtain rfl : other = function := Except.ok.inj (hoth.symm.trans hsym)
    obtain ⟨_, htb₁, ids, hids, hmore⟩ := areParameters_openParameters hopn
    have hpars : ∀ body, ((w₂.flow.updateBody (.function other) fun entry =>
        { entry with returns := some ⟨w₁.flow.typeVars.size⟩ }).body body).parameters =
          (w.flow.body body).parameters ++ if .function other = body then ids else [] := by
      intro body
      rw [body_updateBody]
      split
      · next hbdy => rw [← hbdy, hsm, hmore, if_pos rfl, body_updateBody, if_pos rfl]
      · next hbdy => rw [hsm, hmore, if_neg hbdy, body_updateBody, if_neg hbdy]
    intro function entry' data hbdy he' hdt
    obtain ⟨old, hold, hmth, _⟩ := htb.symm.symbol? he'
    rw [hpars]
    by_cases hfn : function = other
    · -- The function that is opened has no parameters before.
      subst hfn
      have hno : (w.flow.body (.function function)).parameters = [] := by
        rw [HasBody, Option.not_isSome_iff_eq_none] at hfr
        rw [body, hfr]
        rfl
      rw [hno, if_pos rfl, List.nil_append]
      cases hold.symm.trans he
      rw [hmth, hdt] at hids
      refine hids.mono (hret.extends.trans (extends_of_typeVars rfl)) hret.matchesSymbols
    · rw [if_neg (fun heq => hfn (BodyId.function.inj heq).symm), List.append_nil]
      have hwas := ((hmet _).mp hbdy).resolve_left fun heq => hfn (BodyId.function.inj heq).symm
      exact (hsigned hwas hold (hmth.trans hdt)).mono hflow htb

theorem Runs.signed (h : Runs loops opens w w') (hsigned : w.Signed) : w'.Signed := by
  induction h with
  | refl => exact hsigned
  | tail _ hmove ih => exact hmove.signed ih

/-- The functions of every program that has been analysed have the type variables of their parameters. -/
theorem Analysed.signed {rules : NameRules} {w₁ w₂ w₃ : Workspace} (h : Analysed rules w w₁ w₂ w₃) : w₃.Signed := by
  obtain ⟨opens, hruns⟩ := h.runs
  refine hruns.signed fun function _ _ hbdy => ?_
  rw [h.flow₂, HasBody, body?, empty, OrderedMap.get?_insert] at hbdy
  cases hbdy

theorem Analysed.declaresTypes {rules : NameRules} {w₁ w₂ w₃ : Workspace} (h : Analysed rules w w₁ w₂ w₃) :
    w₃.table.DeclaresTypes := by
  obtain ⟨_, _, hlib⟩ := h.libraries
  have hdec := keeps_of_changes h.touches.declares Declares.declaresTypes
    (declaresTypes_withLibraries hlib)
  exact h.types.table.declaresTypes
    (keeps_of_changes h.refers.binds Binds.declaresTypes hdec)

end Workspace

end SoftTyping
