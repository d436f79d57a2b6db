import SoftTyping.Handle
import SoftTyping.Position

/-!
# Nodes of a syntax tree

A node has a kind, the text it was written with, a position, and links to its parent and children. Three slots are empty
at first and are filled by the analysis: the scope the node stands in, the symbol it declares or refers to, and the type
variable of its value.
-/

namespace SoftTyping

/-- The kinds of literals. -/
inductive LiteralKind where
  | int | float | string | bool | null | array
deriving DecidableEq, Repr

/-- The kinds of nodes.

* A namespace declaration has its path as text and statements as children.
* A use declaration has the name of its target and, if it gives one, an identifier for the alias.
* A constant declaration has its literal, a function declaration the identifiers of its modifiers, its parameters and one
  block, a parameter the name of its type if it has one.
* A conditional has a condition and one or two blocks, a loop a condition and a block.
* An assignment has a variable and an expression; a return, an echo and an expression statement have an expression.
* A call has its arguments, an operator its operands. -/
inductive NodeKind where
  | root | namespaceDecl | useDecl | constantDecl | classDecl | functionDecl | parameter | block
  | ifStmt | whileStmt | returnStmt | echoStmt | exprStmt | assign
  | variableRef | identifier | typeName | call | operator
  | literal (kind : LiteralKind)
deriving DecidableEq, Repr

/-- Whether a node of this kind stands where a statement stands. -/
def NodeKind.isStatement : NodeKind → Bool
  | .namespaceDecl | .useDecl | .constantDecl | .classDecl | .functionDecl | .ifStmt | .whileStmt | .returnStmt
  | .echoStmt | .exprStmt | .assign => true
  | _ => false

/-- Every kind of literal. -/
def LiteralKind.all : List LiteralKind := [.int, .float, .string, .bool, .null, .array]

def LiteralKind.render : LiteralKind → String
  | .int => "Int"
  | .float => "Float"
  | .string => "String"
  | .bool => "Bool"
  | .null => "Null"
  | .array => "Array"

/-- The kind as messages name it. -/
def NodeKind.render : NodeKind → String
  | .root => "Root"
  | .namespaceDecl => "Namespace"
  | .useDecl => "Use"
  | .constantDecl => "Constant"
  | .classDecl => "Class"
  | .functionDecl => "Function"
  | .parameter => "Parameter"
  | .block => "Block"
  | .ifStmt => "If"
  | .whileStmt => "While"
  | .returnStmt => "Return"
  | .echoStmt => "Echo"
  | .exprStmt => "ExpressionStatement"
  | .assign => "Assign"
  | .variableRef => "Variable"
  | .identifier => "Identifier"
  | .typeName => "TypeName"
  | .call => "Call"
  | .operator => "Operator"
  | .literal kind => "Literal(" ++ kind.render ++ ")"

/-- The name of the kind in source trees, where a literal goes by the kind of literal it is. -/
def NodeKind.name : NodeKind → String
  | .literal kind => kind.render
  | kind => kind.render

/-- Every kind of node. -/
def NodeKind.all : List NodeKind :=
  [.root, .namespaceDecl, .useDecl, .constantDecl, .classDecl, .functionDecl, .parameter, .block, .ifStmt, .whileStmt,
   .returnStmt, .echoStmt, .exprStmt, .assign, .variableRef, .identifier, .typeName, .call, .operator] ++
    LiteralKind.all.map .literal

/-- A node of a syntax tree. -/
structure Node where
  kind : NodeKind
  text : String
  position : Position
  parent : Option NodeId := none
  children : List NodeId := []
  /-- The scope in which the node stands. -/
  scope : Option ScopeId := none
  /-- The symbol that the node declares or refers to. -/
  symbol : Option SymbolId := none
  /-- The type variable of the node's value. -/
  typeVar : Option TypeVarId := none
deriving DecidableEq, Repr

end SoftTyping
