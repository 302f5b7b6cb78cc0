import FirmwareIds.Error
import FirmwareIds.FileTree.Locate
import FirmwareIds.Text.White

/-!
# Options of a run
-/

namespace FirmwareIds

/-- What is made of one string that questions with different bindings refer to. -/
inductive Strictness where
  | off
  | warn
  | error
  deriving DecidableEq

namespace Strictness

/-- The name of a strictness. -/
def name : Strictness → Text
  | off => "off".toList
  | warn => "warn".toList
  | error => "error".toList

/-- The words that stand for a strictness. -/
def words : List (Text × Strictness) :=
  [("off".toList, off), ("none".toList, off), ("w".toList, warn), ("warn".toList, warn),
    ("warning".toList, warn), ("e".toList, error), ("error".toList, error)]

/-- Reads a word in either case, with white space around it or not. -/
def parse (s : Text) : Except Error Strictness :=
  let word := s.trim.lower
  match words.lookup word with
  | some strictness => .ok strictness
  | none => .error (.unknownStrictness word)

end Strictness

/-- What a run is asked to do. -/
structure Options where
  /-- The list of codes, or a directory that holds it under its usual name. -/
  output : Path
  /-- The directories to scan. -/
  roots : List Path := []
  /-- What to leave out under every root. -/
  excluded : List Path := []
  /-- Assign codes to the strings that need one. -/
  update : Bool := false
  /-- Move definitions to the list of codes, and drop foreign languages elsewhere. -/
  strip : Bool := false
  strictness : Strictness := .off
  /-- The lead of new codes if the list of codes shows none. -/
  lead : Option Text := none
  deriving DecidableEq

namespace Options

/-- The usual name of the list of codes. -/
def targetName : Path := ⟨"UqiList.uni".toList⟩

/-- The list of codes. -/
def target (o : Options) (t : FileTree) : Path :=
  if t.isDirectory o.output then o.output.join targetName else o.output

/-- Every excluded directory under every root. -/
def exclusions (o : Options) : Except Error (List Path) :=
  match o.excluded.find? fun dir => o.roots.any (dir.same ·) with
  | some dir => .error (.excludedRoot dir)
  | none => .ok (o.excluded.flatMap fun dir => o.roots.map (·.join dir))

end Options

end FirmwareIds
