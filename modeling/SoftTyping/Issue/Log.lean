import SoftTyping.Issue

/-!
# The log of issues

The log of a run keeps the issues in the order in which they were reported and remembers which severities it has met.
Reporters that are attached to it are handed every issue; what they were handed outlives a reset of the log.
-/

namespace SoftTyping

/-- The issues of a run. -/
structure IssueLog where
  issues : List Issue := []
  /-- The severities met, in the order in which they were first met. -/
  found : List Severity := []
  /-- How many reporters are attached. -/
  reporters : Nat := 0
  /-- What the reporters were handed, once for each of them. -/
  delivered : List Issue := []

namespace IssueLog

instance : Inhabited IssueLog := ⟨{}⟩

/-- Attach one more reporter. -/
def attach (log : IssueLog) : IssueLog :=
  { log with reporters := log.reporters + 1 }

/-- Report an issue. -/
def report (log : IssueLog) (issue : Issue) : IssueLog :=
  { log with
    issues := log.issues ++ [issue]
    found := if log.found.contains issue.severity then log.found else log.found ++ [issue.severity]
    delivered := log.delivered ++ List.replicate log.reporters issue }

/-- Report issues one after another. -/
def reportAll (log : IssueLog) (issues : List Issue) : IssueLog :=
  issues.foldl report log

/-- Whether an issue of this severity was reported since the last reset. -/
def hasFound (log : IssueLog) (severity : Severity) : Bool :=
  log.found.contains severity

/-- Forget the issues; the reporters stay. -/
def reset (log : IssueLog) : IssueLog :=
  { log with issues := [], found := [] }

/-- The log with all its issues. -/
def describe (log : IssueLog) : String :=
  Text.describeRecord "IssueCollector"
    [("issues", Text.describeList (log.issues.map Issue.describe)),
     ("found", Text.describeSet (log.found.map Severity.render)),
     ("reporters", toString log.reporters)]

/-- Reporting many issues puts them behind the ones already there. -/
@[simp] theorem issues_reportAll (log : IssueLog) (issues : List Issue) :
    (log.reportAll issues).issues = log.issues ++ issues := by
  induction issues generalizing log with
  | nil => simp [reportAll]
  | cons issue rest ih =>
    calc (log.reportAll (issue :: rest)).issues
      _ = ((log.report issue).reportAll rest).issues := rfl
      _ = (log.report issue).issues ++ rest := ih _
      _ = log.issues ++ issue :: rest := by simp [report]

end IssueLog

end SoftTyping
