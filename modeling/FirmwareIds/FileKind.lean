import FirmwareIds.Path
import FirmwareIds.Text.Cutting

/-!
# Kinds of files

A scan reads two kinds of files, told apart by their names alone.
-/

namespace FirmwareIds

/-- What a file contributes to a scan. -/
inductive FileKind where
  /-- String resources. -/
  | resource
  /-- A form source. -/
  | form
  deriving DecidableEq

namespace FileKind

/-- Whether `part` occurs in a text. -/
def occursIn (part s : Text) : Bool := ((Pattern.word part).first? .anywhere s).isSome

/-- The kind of a file with this name. Resources have one ending; form sources have one of three,
or hold `.vf` anywhere in their name. -/
def ofName? (name : Text) : Option FileKind :=
  if ".uni".toList.isSuffixOf name then some .resource
  else if occursIn ".vf".toList name
      || [".hfr".toList, ".sd".toList, ".sdi".toList].any (·.isSuffixOf name) then some .form
  else none

/-- The kind of the file at a path; the directories on the way do not count. -/
def ofPath? (p : Path) : Option FileKind := p.fileName?.bind ofName?

end FileKind

end FirmwareIds
