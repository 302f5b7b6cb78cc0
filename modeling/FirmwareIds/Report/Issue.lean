import FirmwareIds.Error
import FirmwareIds.Form.Reference

/-!
# Issues

What a run finds wrong and goes on after. Each issue says what kind it is and whether it fails the
run, names the identifier, code, token or file it is about, and lists the files involved. The
issues that a run makes are written down here one by one, with their words.
-/

namespace FirmwareIds

/-- A code that a string has, and the file that gives it. -/
structure Assignment where
  identifier : Text
  code : UInt16
  path : Path
  deriving DecidableEq

/-- Whether an issue fails the run. -/
inductive Severity where
  | warning
  | error
  deriving DecidableEq

/-- The kinds of issues. -/
inductive IssueKind where
  | duplicateIdentifier
  | duplicateCode
  | missingDefinition
  | conflictingReference
  | missingCode
  | readFailure
  | notSaved
  | codesExhausted
  deriving DecidableEq

/-- One thing found wrong. -/
structure Issue where
  kind : IssueKind
  severity : Severity
  /-- The identifier, code, token or file that the issue is about. -/
  subject : Text
  /-- The files involved. -/
  paths : List Path
  message : Text
  deriving DecidableEq

/-- The word in front of a shown issue. -/
def Severity.label : Severity → Text
  | warning => "WARNING".toList
  | error => "ERROR".toList

namespace Issue

/-- Whether the issue fails the run. -/
def fails (i : Issue) : Bool := i.severity == .error

/-- The issue as it is shown. -/
def line (i : Issue) : Text :=
  i.severity.label ++ ": ".toList ++ i.message ++
    if i.paths.isEmpty then []
    else " (".toList ++ ", ".toList.intercalate (i.paths.map Path.text) ++ [')']

/-! ## The issues of a run -/

/-- A string has a second code. -/
def duplicateIdentifier (first again : Assignment) : Issue where
  kind := .duplicateIdentifier
  severity := .error
  subject := again.identifier
  paths := [first.path, again.path]
  message := "UQI string ".toList ++ again.identifier
    ++ " was assigned more than once and will cause corruption".toList

/-- A second string has the same code. -/
def duplicateCode (first again : Assignment) : Issue where
  kind := .duplicateCode
  severity := .error
  subject := Text.hex4 again.code
  paths := [first.path, again.path]
  message := "UQI value ".toList ++ Text.hex4 again.code
    ++ " was assigned more than once and will cause corruption".toList

/-- A string is referred to and not defined. -/
def missingDefinition (severity : Severity) (r : Reference) : Issue where
  kind := .missingDefinition
  severity := severity
  subject := r.token
  paths := [r.path]
  message := "No definition for ".toList ++ r.token ++ " referred by HII question".toList

/-- A string is referred to and has no code. -/
def missingCode (r : Reference) : Issue where
  kind := .missingCode
  severity := .error
  subject := r.token
  paths := [r.path]
  message := "No UQI for ".toList ++ r.token ++ " referred by HII question".toList

/-- Questions with different bindings, given last, refer to one string. -/
def conflictingReference (severity : Severity) (first again : Reference)
    (firstBinding againBinding : Text) : Issue where
  kind := .conflictingReference
  severity := severity
  subject := again.token
  paths := [first.path, again.path]
  message := again.token ++ " referred by different HII questions(".toList ++ firstBinding
    ++ " and ".toList ++ againBinding ++ [')']

/-- The list of codes cannot be read. -/
def unreadableTarget (p : Path) (e : Error) : Issue where
  kind := .readFailure
  severity := .error
  subject := p.text
  paths := [p]
  message := "Cannot read UQI file: ".toList ++ e.message

/-- A directory below a root cannot be listed. -/
def unlistedDirectory (root : Path) (reason : Text) : Issue where
  kind := .readFailure
  severity := .warning
  subject := root.text
  paths := [root]
  message := "Skipped unreadable entry: ".toList ++ reason

/-- A scanned file cannot be read. -/
def unreadableFile (p : Path) : Issue where
  kind := .readFailure
  severity := .warning
  subject := p.text
  paths := [p]
  message := "Error opening ".toList ++ p.text ++ " for reading".toList

/-- An issue that a file is not as it should be on disk. -/
private def notSaved (p : Path) (message : Text) : Issue where
  kind := .notSaved
  severity := .error
  subject := p.text
  paths := [p]
  message := message

/-- A file cannot be written. -/
def unwritten (p : Path) (e : Error) : Issue :=
  notSaved p ("Error opening ".toList ++ p.text ++ " for writing: ".toList ++ e.message)

/-- The list of codes could not be read and must not be written. -/
def targetLeft (p : Path) : Issue :=
  notSaved p (p.text ++ " was not readable and is left unchanged".toList)

/-- A file is left as it was, since the list of codes did not take the definitions that were moved. -/
def keptBack (p : Path) : Issue :=
  notSaved p (p.text ++ " not rewritten because its UQIs could not be moved".toList)

/-- Codes could not be assigned. The issue is about the token for which there is none left, or whatever
else the error says. -/
def unassigned (target : Path) (e : Error) : Issue where
  kind := .codesExhausted
  severity := .error
  subject :=
    match e with
    | .codesExhausted token => token
    | e => e.message
  paths := [target]
  message := e.message

end Issue

end FirmwareIds
