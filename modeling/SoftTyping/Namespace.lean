import SoftTyping.Text.Split

/-!
# Names with namespaces

A namespace path is a sequence of segments with separators between them; in its normal form a separator stands before
and behind every segment, and the default namespace is the separator alone. A name is absolute when it begins with a
separator, relative when it holds one further on, and local when it holds none.
-/

namespace SoftTyping

open Text

/-- What stands between the segments of a path. -/
def separator : Char := '\\'

/-- The path of the default namespace. -/
def defaultPath : String := "\\"

/-- The segments of a path. -/
def pathSegments (path : String) : List (List Char) :=
  (pieces separator path.toList).filter (fun segment => !segment.isEmpty)

/-- The normal form of a path: a separator, then each segment with a separator behind it. -/
def normalizePath (path : String) : String :=
  String.ofList (separator :: (pathSegments path).flatMap (fun segment => segment ++ [separator]))

/-- How a name says in which namespace it is to be looked for. -/
inductive NameForm where
  | absolute | relative | unqualified
deriving DecidableEq, Repr

/-- The form of a name. -/
def NameForm.of (name : String) : NameForm :=
  match name.toList with
  | [] => .unqualified
  | c :: rest => if c = separator then .absolute else if separator ∈ rest then .relative else .unqualified

def NameForm.render : NameForm → String
  | .absolute => "Absolute"
  | .relative => "Relative"
  | .unqualified => "Local"

/-- The first segment of a name and the rest behind the separator. -/
def splitHead? (name : String) : Option (String × String) :=
  (cutFirst separator name.toList).map fun (head, rest) => (String.ofList head, String.ofList rest)

/-- The path of a name and its last segment. -/
def splitLast? (name : String) : Option (String × String) :=
  (cutLast separator name.toList).map fun (path, last) => (String.ofList path, String.ofList last)

/-- The last segment of a name. -/
def lastSegment (name : String) : String :=
  match splitLast? name with
  | some (_, last) => last
  | none => name

/-- The name with a separator in front, if it has none there. -/
def makeAbsolute (name : String) : String :=
  if NameForm.of name = .absolute then name else separator.toString ++ name

/-- A local name that is written with a separator in front, such as `\strlen`. -/
def rootedLocal? (name : String) : Option String :=
  match name.toList with
  | c :: rest => if c = separator ∧ separator ∉ rest then some (String.ofList rest) else none
  | [] => none

end SoftTyping
