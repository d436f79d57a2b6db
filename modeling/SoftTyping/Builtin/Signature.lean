import SoftTyping.Fault
import SoftTyping.Text.Blank
import SoftTyping.Text.Split

/-!
# Signatures of built-ins

A signature is written as its parameter types, an arrow and its result types: `{as string}, int -> string | null`. A
parameter that takes converted arguments stands in braces after the word `as`.
-/

namespace SoftTyping

open Text

/-- The names of the types that a built-in takes and gives. -/
structure Signature where
  /-- The parameter types, each with whether arguments are converted to it. -/
  parameters : List (String × Bool)
  results : List String
deriving DecidableEq, Repr

namespace Signature

/-- What makes a text no signature. -/
inductive Flaw where
  | missingArrow | malformedParameter | missingResult
deriving DecidableEq, Repr

def Flaw.reason : Flaw → String
  | .missingArrow => "missing '->'"
  | .malformedParameter => "convertible parameters are written '\x7bas type\x7d'"
  | .missingResult => "missing return type"

/-- The parts of a text between separators, without the blanks around them and without those that are blank. -/
def parts (sep : Char) (text : List Char) : List (List Char) :=
  ((pieces sep text).map trim).filter (fun part => !part.isEmpty)

/-- What follows the word `as` and a space. -/
def afterAs? : List Char → Option (List Char)
  | 'a' :: 's' :: ' ' :: rest => some rest
  | _ => none

/-- What stands before a closing brace at the end. -/
def beforeBrace? (text : List Char) : Option (List Char) :=
  if text.getLast? = some '\x7d' then some text.dropLast else none

/-- The type that a parameter names, and whether arguments are converted to it. -/
def parseParameter : List Char → Except Flaw (String × Bool)
  | '\x7b' :: rest =>
    match (beforeBrace? rest).bind (fun inner => afterAs? (trim inner)) with
    | some name => .ok (String.ofList (trim name), true)
    | none => .error .malformedParameter
  | name => .ok (String.ofList name, false)

/-- Read a signature. -/
def read (text : List Char) : Except Flaw Signature :=
  match cutArrow text with
  | none => .error .missingArrow
  | some (parameters, results) => do
    let parameters ← (parts ',' parameters).mapM parseParameter
    let results := (parts '|' results).map String.ofList
    if results.isEmpty then .error .missingResult else .ok { parameters, results }

/-- Read a signature; a text that is none is refused with its flaw. -/
def parse (text : String) : Except Fault Signature :=
  match read text.toList with
  | .ok signature => .ok signature
  | .error flaw => .error (.invalidSignature text flaw.reason)

/-- A parameter as it is written. -/
def renderParameter : String × Bool → String
  | (name, true) => "\x7bas " ++ name ++ "\x7d"
  | (name, false) => name

/-- The signature as it is written. -/
def render (signature : Signature) : String :=
  ", ".intercalate (signature.parameters.map renderParameter) ++ " -> " ++ " | ".intercalate signature.results

end Signature

end SoftTyping
