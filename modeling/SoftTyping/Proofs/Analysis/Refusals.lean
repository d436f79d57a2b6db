import SoftTyping.Proofs.Analysis.Operations

/-!
# What refused declarations leave behind

A declaration of a library that is refused leaves the table as it was, with one exception: a function whose signatures can be
read is declared before their types are looked up, and stays declared without overloads when one of the types is unknown. An
alias that is refused stays in the table in any case, with no block that keeps it. Main statement: `refused_operations`.
-/

namespace SoftTyping

namespace SymbolTable

variable {table table' : SymbolTable} {scope : ScopeId} {symbol : Symbol} {fault : Fault}

/-- The symbol of a function before its overloads are known. -/
def bareMethod (kind : MethodKind) (name : String) : Symbol :=
  { name, position := .origin, data := .method { kind, isBuiltin := true } }

/-- A declaration is refused for the types of its signatures: the function has been declared by then. -/
def RefusedLate (declaration : BuiltinDeclaration) (fault : Fault) (table table' : SymbolTable) : Prop :=
  ∃ kind name texts signatures method, declaration = .method kind name texts ∧ texts.mapM Signature.parse = .ok signatures ∧
    define table.coreScope (bareMethod kind name) table = .ok method table' ∧
    signatures.mapM (table'.builtinOverload method) = .error fault

theorem Rooted.defineMethod_eq_error {kind : MethodKind} {name : String} {texts : List String} (h : table.Rooted)
    (href : defineMethod kind name texts table = .error fault table') :
    table' = table ∨ RefusedLate (.method kind name texts) fault table table' := by
  simp only [defineMethod, Step.bind_eq_error, Step.query_eq_error, Step.query_eq_ok, Step.get_eq_ok] at href
  rcases href with ⟨_, rfl⟩ | ⟨signatures, _, ⟨hparse, rfl⟩, hget | ⟨_, _, ⟨rfl, rfl⟩, hdef | ⟨method, added, hdef, href⟩⟩⟩
  · exact .inl rfl
  · cases hget
  · exact .inl (h.define_eq_error hdef)
  · rcases href with ⟨hov, rfl⟩ | ⟨overloads, _, ⟨_, rfl⟩, hup | ⟨_, _, _, hpure⟩⟩
    · exact .inr ⟨kind, name, texts, signatures, method, rfl, hparse, hdef, hov⟩
    · -- The function is there to take its overloads.
      obtain ⟨_, hsym⟩ := exists_symbol?_define hdef
      rcases Step.bind_eq_error.mp hup with hrfu | ⟨_, _, _, hmodify⟩
      · rw [Step.query_eq_error, SymbolTable.symbol, hsym] at hrfu
        cases hrfu.1
      · cases hmodify
    · cases hpure

/-- What a symbol refers to is looked up before the symbol is declared. -/
theorem Rooted.eq_of_lookup_error {α : Type} {question : SymbolTable → Except Fault α} {place : SymbolTable → ScopeId}
    {made : α → Symbol} (h : table.Rooted)
    (href : (do let a ← Step.query question; SymbolTable.define (place (← get)) (made a)) table = .error fault table') :
    table' = table := by
  simp only [Step.bind_eq_error, Step.query_eq_error, Step.query_eq_ok, Step.get_eq_ok] at href
  rcases href with ⟨_, rfl⟩ | ⟨_, _, ⟨_, rfl⟩, hget | ⟨_, _, ⟨rfl, rfl⟩, hdef⟩⟩
  · rfl
  · cases hget
  · exact h.define_eq_error hdef

theorem Rooted.declare_eq_error {declaration : BuiltinDeclaration} (h : table.Rooted)
    (href : declare declaration table = .error fault table') :
    table' = table ∨ RefusedLate declaration fault table table' := by
  cases declaration with
  | type | const | superGlobal => exact .inl (h.eq_of_lookup_error (Step.map_eq_error.mp href))
  | method kind name texts => exact h.defineMethod_eq_error (Step.map_eq_error.mp href)
  | conversion source target =>
    simp only [declare, defineConversion, Step.bind_eq_error, Step.query_eq_error, Step.query_eq_ok] at href
    rcases href with (⟨_, rfl⟩ | ⟨_, _, ⟨_, rfl⟩, ⟨_, rfl⟩ | ⟨_, _, ⟨_, rfl⟩, hup⟩⟩) | ⟨_, _, _, hpure⟩
    · exact .inl rfl
    · exact .inl rfl
    · exact .inl (updateSymbol_eq_error hup)
    · cases hpure

end SymbolTable

/-- In a table that any operations have built, a declaration of a library that is refused changes the table only if a function
is refused for a type of its signatures: then the function has been declared without overloads, and nothing else has changed.
An alias that is refused has been added to the symbols, and nothing else has changed. -/
theorem refused_operations (generation : Generation) (requests : List OperationRequest) :
    let table := requests.foldl SymbolTable.operate (.new generation)
    (∀ {declaration fault table'}, SymbolTable.declare declaration table = .error fault table' →
      (table' ≠ table ↔ SymbolTable.RefusedLate declaration fault table table')) ∧
      ∀ {block symbol fault table'}, SymbolTable.defineUse block symbol table = .error fault table' →
        table' = (table.pushSymbol { symbol with scope := some block }).2 := by
  intro table
  have hrepresented : table.Represented := SymbolTable.represented_foldl_operate generation requests
  refine ⟨fun href => ⟨(hrepresented.placed.rooted.declare_eq_error href).resolve_left, ?_⟩, SymbolTable.defineUse_eq_error⟩
  rintro ⟨_, _, _, _, _, _, _, hdef, _⟩ rfl
  obtain ⟨_, _, _, _, _, heq⟩ := SymbolTable.define_eq_ok hdef
  simpa using congrArg (·.symbols.size) heq

/-- A function that is refused can be found, and an alias that is refused by a scope of another kind is a new symbol. -/
theorem refused_function_found :
    let table := SymbolTable.new 0
    let refused := SymbolTable.declare (.method .function "f" ["-> nope"])
    let rejected := SymbolTable.defineUse table.coreScope { name := "g", position := .origin, data := .aliasOf "h" none }
    refused.answer table = .error (.unknownBuiltinType "nope") ∧ table.coreMethod? "f" = none ∧
      (refused.leaves table).coreMethod? "f" = some ⟨0, 1⟩ ∧
      rejected.answer table = .error (.unexpectedScope "namespace" "global namespace") ∧
      (rejected.leaves table).symbols.size = table.symbols.size + 1 := by
  decide +kernel

end SoftTyping
