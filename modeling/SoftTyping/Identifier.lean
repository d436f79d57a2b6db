import SoftTyping.Namespace
import SoftTyping.Position
import SoftTyping.Scope
import SoftTyping.Symbol

/-!
# Identifiers

An identifier is an occurrence of a name together with what the name is expected to stand for, where it occurs and whether
the case of its letters matters.
-/

namespace SoftTyping

/-- What an identifier is expected to name. -/
inductive IdentifierKind where
  | var | const | method | type
deriving DecidableEq, Repr

namespace IdentifierKind

/-- Whether a symbol is of the expected kind. -/
def accepts : IdentifierKind → Symbol → Bool
  | .var, symbol => symbol.var?.isSome
  | .const, symbol => symbol.isConstant
  | .method, symbol => symbol.method?.isSome
  | .type, symbol => symbol.type?.isSome

def label : IdentifierKind → String
  | .var => "variable"
  | .const => "constant"
  | .method => "function"
  | .type => "type"

/-- Every kind of identifier. -/
def all : List IdentifierKind := [var, const, method, type]

end IdentifierKind

/-- An occurrence of a name. -/
structure Identifier where
  name : String
  kind : IdentifierKind
  /-- The scope in which it occurs. -/
  scope : ScopeId
  position : Position
  rule : CaseRule
deriving DecidableEq

namespace Identifier

/-- The identifier that is compared as its kind asks: the case of letters matters for variables and constants, does not
for functions, and matters for types as the configuration says. -/
def ofKind (name : String) (kind : IdentifierKind) (scope : ScopeId) (position : Position)
    (caseInsensitiveTypes : Bool) : Identifier where
  name
  kind
  scope
  position
  rule := match kind with
    | .var | .const => .sensitive
    | .method => .insensitive
    | .type => if caseInsensitiveTypes then .insensitive else .sensitive

def form (identifier : Identifier) : NameForm := .of identifier.name

end Identifier

end SoftTyping
