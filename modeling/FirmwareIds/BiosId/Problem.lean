import FirmwareIds.Text.Numeral

/-!
# What can be wrong with the settings of a BIOS ID
-/

namespace FirmwareIds.BiosId

/-- Why a settings text gives no BIOS ID. -/
inductive Problem where
  /-- There is no section with the settings. -/
  | noSection
  /-- An entry stands before the first section; its line counts from one. -/
  | entryOutside (line : Nat)
  /-- A line of the section has no separator. -/
  | noSeparator (line : Nat)
  | duplicated (key : Text)
  | unknown (key : Text)
  | wrongLength (key : Text)
  | missing (key : Text)
  /-- The settings file does not exist; its path is as given. -/
  | noFile (path : Text)
  deriving DecidableEq

/-- The words for the problem. -/
def Problem.message : Problem → Text
  | noSection => "Not support the config file format, need config section".toList
  | entryOutside line =>
    "line ".toList ++ Text.decimal line ++ ": entry before any section header".toList
  | noSeparator line =>
    "line ".toList ++ Text.decimal line ++ ": expected `key = value`".toList
  | duplicated key => "Item ".toList ++ key ++ " is duplicated".toList
  | unknown key => "Item ".toList ++ key ++ " is invalid".toList
  | wrongLength key => "Config item ".toList ++ key ++ " length is invalid".toList
  | missing key => "Item ".toList ++ key ++ " is missing".toList
  | noFile path => "Input file not found: ".toList ++ path

end FirmwareIds.BiosId
