import FirmwareIds.Resource.Block
import FirmwareIds.Session.Basic

/-!
# Stripping resource files

The definition lines of all resource files move to the list of codes, file by file in the order of
the scan, and then every block with a foreign language goes.
-/

namespace FirmwareIds

/-- A resource file without its definition lines and foreign blocks. -/
structure StrippedFile where
  file : OpenFile
  /-- The definition lines that were in the file. -/
  lines : List Text
  /-- The foreign languages that were in the file, one for each variant. -/
  languages : List Text

/-- Strips a resource file. -/
def OpenFile.strip (f : OpenFile) : StrippedFile :=
  let (lines, kept) := Definition.takeLines f.content.text
  let (languages, kept) := Resource.stripForeign kept
  let content := { f.content with text := kept }
  let dirty := f.dirty || !lines.isEmpty || !languages.isEmpty
  ⟨{ f with content := content, dirty := dirty }, lines, languages⟩

namespace Session

/-- Strips the resource files, and puts their definition lines behind the list of codes. -/
def strip (s : Session) : Session :=
  let stripped := s.resources.map OpenFile.strip
  let lines := stripped.flatMap StrippedFile.lines
  let removals := stripped.flatMap fun f => f.languages.map (Removal.mk f.file.path)
  { s with
    resources := stripped.map StrippedFile.file
    target := s.target.append lines
    report := { s.report with
      movedDefinitions := s.report.movedDefinitions + lines.length
      removals := s.report.removals ++ removals } }

end Session

end FirmwareIds
