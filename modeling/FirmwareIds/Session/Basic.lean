import FirmwareIds.FileTree.Replace
import FirmwareIds.Report.Basic
import FirmwareIds.Resource.Definition
import FirmwareIds.Session.Options
import FirmwareIds.Session.References

/-!
# Sessions

The state of a run between its steps: the list of codes, the resource files as they were read and
changed, the codes and references known so far, and the report. The steps are the modules beside
this one. Each of them is a function on the session, and only the last of them, `Session.flush`,
changes files.
-/

namespace FirmwareIds

/-- A resource file in memory. -/
structure OpenFile where
  path : Path
  content : TextContent
  /-- Whether the content is not what was read. -/
  dirty : Bool := false
  deriving DecidableEq

/-- The file with text put behind its own. -/
def OpenFile.append (f : OpenFile) (lines : List Text) : OpenFile :=
  if lines.isEmpty then f
  else { f with
    content := { f.content with text := lines.foldl Definition.append f.content.text }
    dirty := true }

@[simp] theorem OpenFile.append_nil (f : OpenFile) : f.append [] = f := rfl

@[simp] theorem OpenFile.path_append (f : OpenFile) (lines : List Text) :
    (f.append lines).path = f.path := by
  unfold append
  split <;> rfl

/-- A file keeps its encoding, whatever is put behind its text. -/
@[simp] theorem OpenFile.encoding_append (f : OpenFile) (lines : List Text) :
    (f.append lines).content.encoding = f.content.encoding := by
  unfold append
  split <;> rfl

theorem OpenFile.text_append (f : OpenFile) (lines : List Text) :
    (f.append lines).content.text = lines.foldl Definition.append f.content.text := by
  cases lines <;> rfl

/-- A file is dirty once something was put behind its text. -/
@[simp] theorem OpenFile.dirty_append (f : OpenFile) (lines : List Text) :
    (f.append lines).dirty = (f.dirty || !lines.isEmpty) := by
  cases lines <;> simp [append]

/-- Lines are put behind a file at once or one after the other. -/
theorem OpenFile.append_append (f : OpenFile) (lines more : List Text) :
    (f.append lines).append more = f.append (lines ++ more) := by
  cases lines with
  | nil => rfl
  | cons line lines => cases more <;> simp [append]

/-- The state of a run. -/
structure Session where
  strictness : Strictness
  /-- The list of codes; empty if it does not exist or cannot be read. -/
  target : OpenFile
  /-- The key of the list of codes, if it existed when the session was opened. -/
  targetKey? : Option Key
  /-- Whether the list of codes may be written: not if it exists and cannot be read. -/
  mayWrite : Bool := true
  /-- The other resource files, in the order of the scan. -/
  resources : List OpenFile := []
  formCount : Nat := 0
  /-- The codes known, in the order of the scan, those of the list of codes last. -/
  entries : List Assignment := []
  /-- The strings that the resource files other than the list of codes define. -/
  defined : List Text := []
  /-- The first reference to each token, with its place. -/
  table : ReferenceTable := .empty
  /-- The tokens that wait for a code. -/
  queue : List Text := []
  report : Report
  deriving DecidableEq

namespace Session

/-- The session before any step: the list of codes is read if it exists. -/
def start (t : FileTree) (o : Options) : Session :=
  let path := o.target t
  let key? := (t.locate path).toOption
  let fresh : Session := ⟨o.strictness, ⟨path, {}, false⟩, key?, true, [], 0, [], [], .empty, [],
    { target := path }⟩
  match key?.map fun _ => t.loadText path with
  | none => fresh
  | some (.ok content) => { fresh with target := ⟨path, content, false⟩ }
  | some (.error e) =>
    { fresh with
      mayWrite := false
      report := fresh.report.addIssues [.unreadableTarget path e] }

/-- The session with more issues in its report. -/
def addIssues (s : Session) (issues : List Issue) : Session :=
  { s with report := s.report.addIssues issues }

/-- Whether a fatal issue has been found. -/
def hasFatal (s : Session) : Bool := !s.report.succeeds

/-- The first reference to each token, in the order they were met. -/
def references (s : Session) : List Reference := s.table.references

/-- The stored reference to a token. -/
def reference? (s : Session) (token : Text) : Option Reference := s.table.first? token

/-- The reference that is looked up is the one that a search would find. -/
theorem reference?_eq_find? (s : Session) (token : Text) :
    s.reference? token = s.references.find? (·.token = token) :=
  s.table.first?_eq_find? token

end Session

end FirmwareIds
