import SoftTyping.Text.Quoted

/-!
# Descriptions of values

How a value is shown to someone who inspects the library: records with their fields by name, lists in brackets, maps and
sets in braces, an optional value as present or absent.
-/

namespace SoftTyping.Text

/-- A record: its name and its fields, each with the description of its value. -/
def describeRecord (name : String) (fields : List (String × String)) : String :=
  name ++ " \x7b " ++ ", ".intercalate (fields.map fun (field, value) => field ++ ": " ++ value) ++ " \x7d"

/-- A list of described values. -/
def describeList (values : List String) : String :=
  "[" ++ ", ".intercalate values ++ "]"

/-- A set of described values. -/
def describeSet (values : List String) : String :=
  "\x7b" ++ ", ".intercalate values ++ "\x7d"

/-- A map of described values. -/
def describeMap (entries : List (String × String)) : String :=
  describeSet (entries.map fun (key, value) => key ++ ": " ++ value)

/-- A value that may be absent. -/
def describeOption : Option String → String
  | some value => "Some(" ++ value ++ ")"
  | none => "None"

end SoftTyping.Text
