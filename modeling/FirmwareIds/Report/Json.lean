import FirmwareIds.Json.Basic
import FirmwareIds.Report.Basic

/-!
# Reports as JSON

A report is an object with a field for each of its parts; of the lists only those that are not
empty are written. Reading accepts what `Json.record?` takes as a record and insists on the ranges
of the numbers: counts have sixty-four bits and codes sixteen.
-/

namespace FirmwareIds

/-- A path as a value. -/
def Path.ofJson? (j : Json) : Option Path := j.text?.map Path.mk

/-- A field that is left out if its list is empty. -/
def Json.unlessEmpty {α : Type} (name : String) (write : α → Json) (items : List α) :
    List (Text × Json) :=
  if items.isEmpty then [] else [(name.toList, .array (items.map write))]

namespace Assignment

def toJson (a : Assignment) : Json :=
  .object [("identifier".toList, .string a.identifier), ("code".toList, .ofNat a.code.toNat),
    ("path".toList, .string a.path.text)]

def ofJson? (j : Json) : Option Assignment := do
  let field? ← j.record? ["identifier".toList, "code".toList, "path".toList]
  let identifier ← Json.required field? "identifier" Json.text?
  let code ← Json.required field? "code" (Json.natBelow? 65536)
  let path ← Json.required field? "path" Path.ofJson?
  return ⟨identifier, code.toUInt16, path⟩

end Assignment

namespace Removal

def toJson (r : Removal) : Json :=
  .object [("path".toList, .string r.path.text), ("language".toList, .string r.language)]

def ofJson? (j : Json) : Option Removal := do
  let field? ← j.record? ["path".toList, "language".toList]
  let path ← Json.required field? "path" Path.ofJson?
  let language ← Json.required field? "language" Json.text?
  return ⟨path, language⟩

end Removal

namespace Severity

/-- The word for the severity. -/
def word : Severity → Text
  | warning => "warning".toList
  | error => "error".toList

def ofJson? (j : Json) : Option Severity := do
  let word ← j.word?
  [warning, error].find? (·.word = word)

end Severity

namespace IssueKind

/-- The word for the kind. -/
def word : IssueKind → Text
  | duplicateIdentifier => "duplicate_identifier".toList
  | duplicateCode => "duplicate_code".toList
  | missingDefinition => "missing_definition".toList
  | conflictingReference => "conflicting_reference".toList
  | missingCode => "missing_code".toList
  | readFailure => "file_read_failure".toList
  | notSaved => "file_write_failure".toList
  | codesExhausted => "code_space_exhausted".toList

/-- All kinds. -/
def all : List IssueKind :=
  [duplicateIdentifier, duplicateCode, missingDefinition, conflictingReference, missingCode,
    readFailure, notSaved, codesExhausted]

def ofWord? (word : Text) : Option IssueKind := all.find? (·.word = word)

def ofJson? (j : Json) : Option IssueKind := j.word?.bind ofWord?

end IssueKind

namespace Issue

def toJson (i : Issue) : Json :=
  .object ([("kind".toList, .string i.kind.word), ("severity".toList, .string i.severity.word),
      ("subject".toList, .string i.subject)]
    ++ Json.unlessEmpty "paths" (fun p : Path => .string p.text) i.paths
    ++ [("message".toList, .string i.message)])

def ofJson? (j : Json) : Option Issue := do
  let field? ← j.record?
    ["kind".toList, "severity".toList, "subject".toList, "paths".toList, "message".toList]
  let kind ← Json.required field? "kind" IssueKind.ofJson?
  let severity ← Json.required field? "severity" Severity.ofJson?
  let subject ← Json.required field? "subject" Json.text?
  let paths ← Json.listOrEmpty field? "paths" Path.ofJson?
  let message ← Json.required field? "message" Json.text?
  return ⟨kind, severity, subject, paths, message⟩

end Issue

namespace Report

/-- The fields of a report, in order. -/
def fieldNames : List Text :=
  ["target".toList, "resource_files".toList, "form_files".toList, "existing_entries".toList,
    "referenced_tokens".toList, "allocated".toList, "relocated_definitions".toList,
    "removed_languages".toList, "rewritten".toList, "issues".toList]

def toJson (r : Report) : Json :=
  .object ([("target".toList, .string r.target.text),
      ("resource_files".toList, .ofNat r.resourceCount),
      ("form_files".toList, .ofNat r.formCount),
      ("existing_entries".toList, .ofNat r.entryCount),
      ("referenced_tokens".toList, .ofNat r.tokenCount)]
    ++ Json.unlessEmpty "allocated" Assignment.toJson r.assigned
    ++ [("relocated_definitions".toList, .ofNat r.movedDefinitions)]
    ++ Json.unlessEmpty "removed_languages" Removal.toJson r.removals
    ++ Json.unlessEmpty "rewritten" (fun p : Path => .string p.text) r.written
    ++ Json.unlessEmpty "issues" Issue.toJson r.issues)

/-- Reads a count. -/
def count? (j : Json) : Option Nat := j.natBelow? (Nat.pow 2 64)

def ofJson? (j : Json) : Option Report := do
  let field? ← j.record? fieldNames
  let target ← Json.required field? "target" Path.ofJson?
  let resourceCount ← Json.required field? "resource_files" count?
  let formCount ← Json.required field? "form_files" count?
  let entryCount ← Json.required field? "existing_entries" count?
  let tokenCount ← Json.required field? "referenced_tokens" count?
  let assigned ← Json.listOrEmpty field? "allocated" Assignment.ofJson?
  let movedDefinitions ← Json.required field? "relocated_definitions" count?
  let removals ← Json.listOrEmpty field? "removed_languages" Removal.ofJson?
  let written ← Json.listOrEmpty field? "rewritten" Path.ofJson?
  let issues ← Json.listOrEmpty field? "issues" Issue.ofJson?
  return ⟨target, resourceCount, formCount, entryCount, tokenCount, assigned,
    movedDefinitions, removals, written, issues⟩

end Report

end FirmwareIds
