import FirmwareIds.Resource.Block
import FirmwareIds.Session.Basic

/-!
# Indexing and validation

Indexing collects the codes and the defined strings from the texts in memory. Validation then
finds the codes and identifiers that are given more than once, and the references that lack a
definition or a code. When codes are to be assigned, a reference that lacks one waits for it
instead of being an issue, and a missing definition is only a warning.
-/

namespace FirmwareIds.Session

/-- The codes that a resource file gives. -/
def assignments (f : OpenFile) : List Assignment :=
  (Definition.all f.content.text).map fun d => ⟨d.identifier, d.code, f.path⟩

/-- Collects codes and defined strings. What the list of codes defines does not count as a
definition. -/
def index (s : Session) : Session :=
  let entries := s.resources.flatMap assignments ++ assignments s.target
  { s with
    entries := entries
    defined := s.resources.flatMap fun f => Resource.identifiers f.content.text
    report := { s.report with
      resourceCount := s.resources.length + if s.targetKey?.isSome then 1 else 0
      formCount := s.formCount
      entryCount := entries.length
      tokenCount := s.references.length } }

/-- The issues of entries that repeat the identifier or the code of an earlier one; `seen` are the
entries before them. -/
def repeats (seen : List Assignment) : List Assignment → List Issue
  | [] => []
  | e :: rest =>
    ((seen.find? (·.identifier = e.identifier)).map (.duplicateIdentifier · e)).toList
      ++ ((seen.find? (·.code = e.code)).map (.duplicateCode · e)).toList
      ++ repeats (seen ++ [e]) rest

/-- Whether a string has a code. -/
def hasCode (s : Session) (token : Text) : Bool := s.entries.any (·.identifier = token)

/-- What a reference lacks. -/
def lacks (s : Session) (update : Bool) (r : Reference) : List Issue :=
  (if s.defined.contains r.token then []
    else [.missingDefinition (if update then .warning else .error) r])
  ++ (if update || s.hasCode r.token then [] else [.missingCode r])

/-- Checks the entries and references; with `update`, queues the tokens that lack a code. -/
def validate (s : Session) (update : Bool) : Session :=
  let tokens := (s.references.map Reference.token).filter fun token => !s.hasCode token
  { s.addIssues (repeats [] s.entries ++ s.references.flatMap (s.lacks update)) with
    queue := if update then tokens else [] }

end FirmwareIds.Session
