import SoftTyping.Issue
import SoftTyping.Overload

/-!
# Symbols

A symbol is a name that a program or a built-in library declares: a variable, a constant, a function or operator, a type,
or an alias. A name that could not be resolved is bound to an erroneous symbol, which carries the issue and is compatible
with everything.
-/

namespace SoftTyping

/-- What a function declares of its result beyond what it returns. -/
inductive Modifier where
  /-- The result may also be `null`. -/
  | nullable
  /-- The result may also be `false`. -/
  | falseable
deriving DecidableEq, Repr

/-- The modifier that a keyword names, in upper or lower case. -/
def Modifier.ofKeyword? (keyword : String) : Option Modifier :=
  if keyword.toLower = "nullable" then some .nullable
  else if keyword.toLower = "falseable" then some .falseable
  else none

def Modifier.render : Modifier → String
  | .nullable => "Nullable"
  | .falseable => "Falseable"

/-- A variable. -/
structure VariableData where
  /-- The type that a parameter is declared with. -/
  declared : Option SymbolId := none
  /-- The type variables of its versions, oldest first. -/
  versions : List TypeVarId := []
  isParameter : Bool := false
  isSuperGlobal : Bool := false
deriving DecidableEq, Inhabited

/-- A function is called by its name, an operator by an operator node. -/
inductive MethodKind where
  | function | operator
deriving DecidableEq, Repr

/-- A function or operator. -/
structure MethodData where
  kind : MethodKind
  /-- The scope of its parameters and local variables; a built-in has none. -/
  scope : Option ScopeId := none
  parameters : List SymbolId := []
  /-- The modifiers of its result, each once, in the order in which they are written. -/
  modifiers : List Modifier := []
  /-- Given for a built-in, found by the solver for a function of the program. -/
  overloads : List Overload := []
  isBuiltin : Bool

/-- Where a type comes from. -/
inductive TypeKind where
  | primitive | classType
  /-- The type of expressions that have none; it is compatible with everything. -/
  | erroneous
deriving DecidableEq, Repr

def TypeKind.render : TypeKind → String
  | .primitive => "Primitive"
  | .classType => "Class"
  | .erroneous => "Erroneous"

/-- A type. -/
structure TypeData where
  kind : TypeKind
  /-- The name by which unions hold the type. -/
  absoluteName : String
  parents : List SymbolId := []
  /-- The types into which its values are implicitly converted. -/
  conversions : List SymbolId := []
deriving DecidableEq

/-- What a symbol stands for. -/
inductive SymbolData where
  | var (data : VariableData)
  | const (type : Option SymbolId)
  | method (data : MethodData)
  | type (data : TypeData)
  | aliasOf (target : String) (resolved : Option SymbolId)
  | erroneous (issue : Issue)

/-- A declared name. -/
structure Symbol where
  name : String
  position : Position
  /-- The scope in which the symbol was declared. -/
  scope : Option ScopeId := none
  data : SymbolData

namespace Symbol

def var? (symbol : Symbol) : Option VariableData :=
  match symbol.data with
  | .var data => some data
  | _ => none

def method? (symbol : Symbol) : Option MethodData :=
  match symbol.data with
  | .method data => some data
  | _ => none

def type? (symbol : Symbol) : Option TypeData :=
  match symbol.data with
  | .type data => some data
  | _ => none

/-- The name that an alias stands for. -/
def aliasTarget? (symbol : Symbol) : Option String :=
  match symbol.data with
  | .aliasOf target _ => some target
  | _ => none

def isConstant (symbol : Symbol) : Bool :=
  match symbol.data with
  | .const _ => true
  | _ => false

def isErroneous (symbol : Symbol) : Bool :=
  match symbol.data with
  | .erroneous _ => true
  | _ => false

/-- The symbol with its variable changed, if it is one. -/
def mapVariable (symbol : Symbol) (change : VariableData → VariableData) : Symbol :=
  match symbol.data with
  | .var data => { symbol with data := .var (change data) }
  | _ => symbol

/-- The symbol with its function or operator changed, if it is one. -/
def mapMethod (symbol : Symbol) (change : MethodData → MethodData) : Symbol :=
  match symbol.data with
  | .method data => { symbol with data := .method (change data) }
  | _ => symbol

/-- The symbol with its type changed, if it is one. -/
def mapType (symbol : Symbol) (change : TypeData → TypeData) : Symbol :=
  match symbol.data with
  | .type data => { symbol with data := .type (change data) }
  | _ => symbol

/-- Whether the case of the letters of its name does not matter. -/
def isCaseInsensitive (symbol : Symbol) : Bool :=
  match symbol.data with
  | .method _ | .type _ | .aliasOf _ _ => true
  | _ => false

/-- The category by which issues name the symbol. -/
def label (symbol : Symbol) : String :=
  match symbol.data with
  | .var data => if data.isParameter then "parameter" else "variable"
  | .const _ => "constant"
  | .method data => match data.kind with
    | .operator => "operator"
    | .function => "function"
  | .type _ => "type"
  | .aliasOf _ _ => "alias"
  | .erroneous _ => "erroneous"

end Symbol

end SoftTyping
