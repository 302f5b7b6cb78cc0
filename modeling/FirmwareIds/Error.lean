import FirmwareIds.BiosId.Problem
import FirmwareIds.FileTree.Fault
import FirmwareIds.Path

/-!
# Errors

The causes that end an operation without a result. What is wrong with the files of a tree does
not end a run and is no error in this sense: it is an issue of the report.
-/

namespace FirmwareIds

/-- Why an operation has no result. -/
inductive Error where
  /-- A file could not be read or written. -/
  | file (path : Path) (fault : Fault)
  /-- A root cannot be found. -/
  | root (path : Path) (fault : Fault)
  /-- A root is something else than a directory. -/
  | rootNotDirectory (path : Path)
  | noRoot
  /-- A directory to exclude is a root. -/
  | excludedRoot (path : Path)
  | unknownStrictness (word : Text)
  | unknownStamp (word : Text)
  /-- There is no code left for a token. -/
  | codesExhausted (token : Text)
  | biosId (problem : BiosId.Problem)
  deriving DecidableEq

namespace Error

/-- The words for a root that cannot be walked. -/
private def rootMessage (path : Path) (reason : Text) : Text :=
  "cannot read root directory `".toList ++ path.text ++ "`: ".toList ++ reason

/-- The words for options that make no sense. -/
private def settingMessage (reason : Text) : Text := "invalid configuration: ".toList ++ reason

/-- The words for the error. -/
def message : Error → Text
  | file path fault => "I/O error on `".toList ++ path.text ++ "`: ".toList ++ fault.message
  | root path fault => rootMessage path fault.message
  | rootNotDirectory path => rootMessage path "not a directory".toList
  | noRoot => settingMessage "at least one root directory is required".toList
  | excludedRoot path => settingMessage
      ("excluded directory `".toList ++ path.text ++ "` is the same as a root directory".toList)
  | unknownStrictness word => settingMessage
      ("unknown strictness `".toList ++ word ++ "`, expected off, warn or error".toList)
  | unknownStamp word => settingMessage
      ("unknown stamp `".toList ++ word ++ "`, expected year, date or time".toList)
  | codesExhausted token =>
    "UQI code space exhausted: cannot assign a code to `".toList ++ token
      ++ "` above 0xFFFF".toList
  | biosId problem => "BIOS ID config error: ".toList ++ problem.message

end Error

end FirmwareIds
