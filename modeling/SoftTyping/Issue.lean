import SoftTyping.OrderedMap
import SoftTyping.Position
import SoftTyping.Text.Description

/-!
# Issues

An issue is a problem of the analysed program: what is wrong, how severe it is, where, and the named values that a message
about it needs. No message is composed here beyond the key of its kind with those values.
-/

namespace SoftTyping

/-- How severe an issue is. -/
inductive Severity where
  | notice | warning | error | fatalError
deriving DecidableEq, Repr

/-- The part of the analysis that finds an issue. -/
inductive IssueCategory where
  | definition | reference | inference
deriving DecidableEq, Repr

/-- What is wrong with the program. -/
inductive IssueKind where
  | alreadyDefined
  | aliasForwardReference
  | forwardReference
  | variablePartiallyInitialised
  | variableNotInitialised
  | notDefined
  | unknownType
  | aliasTargetNotDefined
  | wrongFunctionCall
  | wrongOperatorUsage
  | unresolvableRecursion
  | iterationCapReached
deriving DecidableEq, Repr

namespace IssueKind

/-- Every kind of issue. -/
def all : List IssueKind :=
  [alreadyDefined, aliasForwardReference, forwardReference, variablePartiallyInitialised, variableNotInitialised,
   notDefined, unknownType, aliasTargetNotDefined, wrongFunctionCall, wrongOperatorUsage, unresolvableRecursion,
   iterationCapReached]

/-- The key under which a message for the kind is kept. -/
def key : IssueKind → String
  | alreadyDefined => "alreadyDefined"
  | aliasForwardReference => "aliasForwardReference"
  | forwardReference => "forwardReference"
  | variablePartiallyInitialised => "variablePartiallyInitialised"
  | variableNotInitialised => "variableNotInitialised"
  | notDefined => "notDefined"
  | unknownType => "unknownType"
  | aliasTargetNotDefined => "aliasTargetNotDefined"
  | wrongFunctionCall => "wrongFunctionCall"
  | wrongOperatorUsage => "wrongOperatorUsage"
  | unresolvableRecursion => "unresolvableRecursion"
  | iterationCapReached => "iterationCapReached"

/-- The name of the kind: its key with a capital. -/
def name (kind : IssueKind) : String :=
  match kind.key.toList with
  | c :: rest => String.ofList (c.toUpper :: rest)
  | [] => ""

/-- The kind with a given key. -/
def ofKey? (key : String) : Option IssueKind :=
  all.find? (fun kind => kind.key == key)

/-- The severity of an issue that is given no other. -/
def severity : IssueKind → Severity
  | variablePartiallyInitialised | iterationCapReached => .warning
  | notDefined | unknownType | aliasTargetNotDefined => .fatalError
  | _ => .error

/-- The part of the analysis that finds issues of the kind. -/
def category : IssueKind → IssueCategory
  | alreadyDefined | aliasForwardReference | forwardReference | variablePartiallyInitialised
  | variableNotInitialised => .definition
  | notDefined | unknownType | aliasTargetNotDefined => .reference
  | wrongFunctionCall | wrongOperatorUsage | unresolvableRecursion | iterationCapReached => .inference

end IssueKind

/-- Every severity, the least first. -/
def Severity.all : List Severity := [.notice, .warning, .error, .fatalError]

def Severity.render : Severity → String
  | .notice => "Notice"
  | .warning => "Warning"
  | .error => "Error"
  | .fatalError => "FatalError"

/-- The level at which a diagnostic of this severity is shown. -/
def Severity.level : Severity → String
  | .notice => "Advice"
  | .warning => "Warning"
  | .error | .fatalError => "Error"

def IssueCategory.render : IssueCategory → String
  | .definition => "Definition"
  | .reference => "Reference"
  | .inference => "Inference"

/-- A problem of the analysed program. -/
structure Issue where
  kind : IssueKind
  severity : Severity
  position : Position
  /-- A second place that the issue is about, such as an earlier declaration. -/
  related : Option Position := none
  /-- Named values for a message, in the order in which they were given. -/
  parameters : OrderedMap String String := ∅
  /-- The stretch of the source text to mark. -/
  span : Option Span := none
deriving DecidableEq

namespace Issue

/-- An issue with the usual severity of its kind. -/
def ofKind (kind : IssueKind) (position : Position) : Issue :=
  { kind, severity := kind.severity, position }

/-- The issue with a second place. -/
def withRelated (issue : Issue) (position : Position) : Issue :=
  { issue with related := some position }

/-- The issue with a named value; a value given again keeps its place. -/
def withParameter (issue : Issue) (name value : String) : Issue :=
  { issue with parameters := issue.parameters.insert name value }

/-- The issue marked in a source text over `length` bytes. -/
def locate (issue : Issue) (source : String) (length : Nat) : Issue :=
  { issue with span := issue.position.span? source length }

/-- The issue in one line: its key, its named values and its place. -/
def render (issue : Issue) : String :=
  let values := issue.parameters.entries.map fun (name, value) => name ++ "=" ++ value
  let details := if values.isEmpty then "" else " (" ++ ", ".intercalate values ++ ")"
  issue.kind.key ++ details ++ " at " ++ issue.position.render

/-- The code of the diagnostic. -/
def code (issue : Issue) : String := "ferrule::" ++ issue.kind.key

/-- The labelled stretches of the diagnostic, none for an issue that is not located. -/
def labels (issue : Issue) : Option (List (String × Span)) :=
  issue.span.map fun span => [(issue.kind.key, span)]

end Issue

/-! ## Descriptions -/

open Text

def Position.describe (p : Position) : String :=
  describeRecord "Position" [("line", toString p.line), ("column", toString p.column)]

def Span.describe (span : Span) : String :=
  describeRecord "SourceSpan" [("offset", s!"SourceOffset({span.offset})"), ("length", toString span.length)]

/-- The issue with all its fields. -/
def Issue.describe (issue : Issue) : String :=
  describeRecord "Issue"
    [("kind", issue.kind.name),
     ("severity", issue.severity.render),
     ("position", issue.position.describe),
     ("related_position", describeOption (issue.related.map Position.describe)),
     ("parameters", describeMap (issue.parameters.entries.map fun (name, value) => (quoted name, quoted value))),
     ("span", describeOption (issue.span.map Span.describe))]

end SoftTyping
