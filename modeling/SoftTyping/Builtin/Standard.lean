import SoftTyping.Builtin
import SoftTyping.Node

/-!
# The standard library

The standard library has nine primitive types below `mixed`, the conversions between them, a few constants and functions,
the operators, and three super-globals.
-/

namespace SoftTyping

/-- The name of the type of a literal. -/
def LiteralKind.typeName : LiteralKind → String
  | .int => "int"
  | .float => "float"
  | .string => "string"
  | .bool => "bool"
  | .null => "null"
  | .array => "array"

/-- The name of the type of all values. -/
def mixedName : String := "mixed"

/-- The operator that an echo statement applies. -/
def echoName : String := "echo"

/-- The operator that a minus sign before a single operand applies. -/
def unaryMinusName : String := "unary-"

namespace Library

private def arithmetic : List String := ["int, int -> int", "float, float -> float", "num, num -> num"]

private def comparison : List String := ["num, num -> bool", "string, string -> bool"]

private def equality : List String := ["mixed, mixed -> bool"]

private def logical : List String := ["\x7bas bool\x7d, \x7bas bool\x7d -> bool"]

/-- The primitive types with their parents. -/
def standardTypes : Library := [
  .type mixedName [],
  .type "scalar" [mixedName],
  .type "num" ["scalar"],
  .type "int" ["num"],
  .type "float" ["num"],
  .type "string" ["scalar"],
  .type "bool" ["scalar"],
  .type "null" [mixedName],
  .type "array" [mixedName]]

/-- The implicit conversions. -/
def standardConversions : Library := [
  .conversion "int" "string",
  .conversion "float" "string",
  .conversion "bool" "int",
  .conversion "bool" "string",
  .conversion "null" "bool",
  .conversion "string" "num",
  .conversion "int" "bool"]

def standardConstants : Library := [
  .const "true" "bool",
  .const "false" "bool",
  .const "null" "null",
  .const "PHP_INT_MAX" "int",
  .const "M_PI" "float"]

def standardOperators : Library := [
  .method .operator "+" (arithmetic ++ ["array, array -> array"]),
  .method .operator "-" arithmetic,
  .method .operator "*" arithmetic,
  .method .operator "/" ["num, num -> num"],
  .method .operator "%" ["int, int -> int"],
  .method .operator "." ["\x7bas string\x7d, \x7bas string\x7d -> string"],
  .method .operator "==" equality,
  .method .operator "!=" equality,
  .method .operator "===" equality,
  .method .operator "!==" equality,
  .method .operator "<" comparison,
  .method .operator "<=" comparison,
  .method .operator ">" comparison,
  .method .operator ">=" comparison,
  .method .operator "&&" logical,
  .method .operator "||" logical,
  .method .operator "!" ["\x7bas bool\x7d -> bool"],
  .method .operator unaryMinusName ["int -> int", "float -> float", "num -> num"],
  .method .operator echoName ["\x7bas string\x7d -> null"]]

def standardFunctions : Library := [
  .method .function "strlen" ["string -> int"],
  .method .function "str_repeat" ["string, int -> string"],
  .method .function "abs" ["int -> int", "float -> float"],
  .method .function "count" ["array -> int"],
  .method .function "is_int" ["mixed -> bool"],
  .method .function "intval" ["\x7bas int\x7d -> int"]]

def standardSuperGlobals : Library := [
  .superGlobal "$_GET" "array",
  .superGlobal "$_POST" "array",
  .superGlobal "$_SERVER" "array"]

/-- The declarations of the standard library. -/
def standard : Library :=
  standardTypes ++ standardConversions ++ standardConstants ++ standardOperators ++ standardFunctions ++
    standardSuperGlobals

end Library

end SoftTyping
