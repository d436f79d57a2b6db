import SoftTyping.Builtin.Signature
import SoftTyping.SymbolTable.Lookup

/-!
# Built-in declarations

A built-in library is a list of declarations: primitive types with their parents and conversions, constants, functions and
operators with their signatures, and super-globals. Declarations name types, so a type is declared before it is used.
-/

namespace SoftTyping

/-- A declaration of a built-in library. -/
inductive BuiltinDeclaration where
  | type (name : String) (parents : List String)
  | conversion (source target : String)
  | const (name type : String)
  | method (kind : MethodKind) (name : String) (signatures : List String)
  | superGlobal (name type : String)
deriving DecidableEq

/-- A built-in library. -/
abbrev Library := List BuiltinDeclaration

namespace SymbolTable

/-- The built-in type of a name, which has to be declared. -/
def builtinType (table : SymbolTable) (name : String) : Except Fault SymbolId :=
  match table.coreType? name with
  | some id => .ok id
  | none => .error (.unknownBuiltinType name)

/-- The union of built-in types, held by their names as they are written. -/
def builtinUnion (table : SymbolTable) (names : List String) : Except Fault Union :=
  names.foldlM (fun union name => do .ok (union.insert name (← table.builtinType name))) ∅

/-- The overload that a signature stands for. -/
def builtinOverload (table : SymbolTable) (method : SymbolId) (signature : Signature) : Except Fault Overload := do
  let parameters ← signature.parameters.mapM fun (name, convertible) => do
    .ok ({ bound := ← table.builtinUnion [name], convertible } : ParameterType)
  .ok { method, parameters, result := ← table.builtinUnion signature.results }

/-- Declare a primitive type. -/
def defineType (name : String) (parents : List String) : Step SymbolTable SymbolId := do
  let parents ← Step.query (fun table => parents.mapM table.builtinType)
  let core := (← get).coreScope
  define core { name, position := .origin, data := .type { kind := .primitive, absoluteName := name, parents } }

/-- Declare that values of one type are implicitly converted into another. -/
def defineConversion (source target : String) : Step SymbolTable Unit := do
  let source ← Step.query (fun table => table.builtinType source)
  let target ← Step.query (fun table => table.builtinType target)
  updateSymbol source fun symbol => symbol.mapType fun data =>
    if target ∈ data.conversions then data else { data with conversions := data.conversions ++ [target] }

/-- Declare a constant. -/
def defineConstant (name type : String) : Step SymbolTable SymbolId := do
  let type ← Step.query (fun table => table.builtinType type)
  let core := (← get).coreScope
  define core { name, position := .origin, data := .const (some type) }

/-- Declare a function or operator. It is declared before the types of its signatures are looked up; when one of them is
not declared, it is left without overloads. -/
def defineMethod (kind : MethodKind) (name : String) (signatures : List String) : Step SymbolTable SymbolId := do
  let signatures ← Step.query (fun _ => signatures.mapM Signature.parse)
  let core := (← get).coreScope
  let method ← define core { name, position := .origin, data := .method { kind, isBuiltin := true } }
  let overloads ← Step.query (fun table => signatures.mapM (table.builtinOverload method))
  updateSymbol method fun symbol => symbol.mapMethod fun data => { data with overloads }
  pure method

/-- Declare a variable that is visible everywhere. -/
def defineSuperGlobal (name type : String) : Step SymbolTable SymbolId := do
  let type ← Step.query (fun table => table.builtinType type)
  let scope := (← get).superGlobalScope
  define scope { name, position := .origin, data := .var { declared := some type, isSuperGlobal := true } }

/-- Make one declaration; a conversion declares no symbol. -/
def declare : BuiltinDeclaration → Step SymbolTable (Option SymbolId)
  | .type name parents => some <$> defineType name parents
  | .conversion source target => do defineConversion source target; pure none
  | .const name type => some <$> defineConstant name type
  | .method kind name signatures => some <$> defineMethod kind name signatures
  | .superGlobal name type => some <$> defineSuperGlobal name type

/-- Make the declarations of a library in order, up to the first that is refused. -/
def declareAll : Library → Step SymbolTable Unit
  | [] => pure ()
  | declaration :: rest => do
    let _ ← declare declaration
    declareAll rest

end SymbolTable

end SoftTyping
