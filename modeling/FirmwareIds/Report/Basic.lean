import FirmwareIds.Report.Issue

/-!
# Reports

The outcome of a run: what was counted, assigned, moved, removed and written, and the issues in
the order they were found. A run succeeds if none of its issues is fatal.
-/

namespace FirmwareIds

/-- A variant in a foreign language that was removed from a file. -/
structure Removal where
  path : Path
  language : Text
  deriving DecidableEq

/-- The outcome of a run. -/
structure Report where
  /-- The list of codes. -/
  target : Path
  resourceCount : Nat := 0
  formCount : Nat := 0
  /-- The number of definitions known before codes were assigned. -/
  entryCount : Nat := 0
  tokenCount : Nat := 0
  assigned : List Assignment := []
  movedDefinitions : Nat := 0
  removals : List Removal := []
  written : List Path := []
  issues : List Issue := []
  deriving DecidableEq

namespace Report

/-- The report with more issues. -/
def addIssues (r : Report) (issues : List Issue) : Report := { r with issues := r.issues ++ issues }

/-- The report with one more file written. -/
def addWritten (r : Report) (p : Path) : Report := { r with written := r.written ++ [p] }

/-- Whether no issue is fatal. -/
def succeeds (r : Report) : Bool := !r.issues.any Issue.fails

def errors (r : Report) : List Issue := r.issues.filter fun i => i.severity = .error

def warnings (r : Report) : List Issue := r.issues.filter fun i => i.severity = .warning

def ofKind (r : Report) (kind : IssueKind) : List Issue := r.issues.filter fun i => i.kind = kind

/-- More issues do not make a failed run a success. -/
theorem succeeds_addIssues (r : Report) (issues : List Issue) :
    (r.addIssues issues).succeeds = (r.succeeds && !issues.any Issue.fails) := by
  simp [succeeds, addIssues, Bool.not_or]

end Report

end FirmwareIds
