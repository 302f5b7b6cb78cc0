import FirmwareIds.Session.Basic

/-!
# Writing the files back

Every file whose content changed is written as a whole. The list of codes comes first: if the
definition lines moved to it cannot be saved, the files they come from keep them, and no other
resource file is written either.

How a text is saved is a parameter. It says which tree a save leaves and whether it failed; the
order of the saves and what depends on a failure are the matter of this module. Each save of a row
may be made in another way, since what fails once need not fail again.
-/

namespace FirmwareIds

/-- A way to save a text file: the tree afterwards, and the error if it was not saved. -/
abbrev Saving := FileTree → Path → TextContent → FileTree × Option Error

namespace Session

/-- The session after a file was saved or not. -/
def saved (s : Session) (p : Path) : Option Error → Session
  | none => { s with report := s.report.addWritten p }
  | some e => s.addIssues [.unwritten p e]

/-- Saves a file and takes down how it went. -/
def save (saving : Saving) (t : FileTree) (s : Session) (f : OpenFile) :
    FileTree × Session :=
  let (t, e?) := saving t f.path f.content
  (t, s.saved f.path e?)

/-- Saves the list of codes if it changed; says also whether it is as it should be now. -/
def saveTarget (saving : Saving) (t : FileTree) (s : Session) : FileTree × Session × Bool :=
  if !s.target.dirty then (t, s, true)
  else if !s.mayWrite then (t, s.addIssues [.targetLeft s.target.path], false)
  else
    let (t, e?) := saving t s.target.path s.target.content
    (t, s.saved s.target.path e?, e?.isNone)

/-- Writes every changed file. The saves are made in the ways `savings`, counted from the one of the
list of codes. -/
def flushEach (savings : Nat → Saving) (t : FileTree) (s : Session) : FileTree × Session :=
  let (t, s, saved) := s.saveTarget (savings 0) t
  let changed := s.resources.filter OpenFile.dirty
  if !saved && s.report.movedDefinitions ≠ 0 then
    (t, s.addIssues (changed.map fun f => .keptBack f.path))
  else (changed.zipIdx 1).foldl (fun (t, s) (f, i) => s.save (savings i) t f) (t, s)

/-- Writes every changed file in one way. -/
def flush (saving : Saving) : FileTree → Session → FileTree × Session := flushEach fun _ => saving

end Session

end FirmwareIds
