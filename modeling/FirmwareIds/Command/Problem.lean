import FirmwareIds.Error

/-!
# What can make a command fail
-/

namespace FirmwareIds.Command

/-- Why a command failed. -/
inductive Problem where
  /-- A settings file cannot be read. -/
  | settingsUnread (path : Path) (fault : Fault)
  /-- A settings file is not written as it should be. -/
  | settingsMalformed (path : Path)
  | outputTwice
  | noRoot
  | noOutput
  /-- The operation itself failed. -/
  | failed (e : Error)
  /-- The report cannot be written to its file. -/
  | reportUnwritten (path : Path) (fault : Fault)
  /-- The run found something fatal. -/
  | issuesLeft
  deriving DecidableEq

/-- A path between apostrophes. -/
private def quoted (path : Path) : Text := '\x27' :: path.text ++ ['\x27']

/-- The words for the problem. -/
def Problem.message : Problem → Text
  | settingsUnread path fault =>
    "Failed to read config ".toList ++ quoted path ++ ": ".toList ++ fault.message
  | settingsMalformed path => "Failed to parse config ".toList ++ quoted path
  | outputTwice => "UQI file given both with --output and as a positional argument".toList
  | noRoot => "No root directory given; use -d DIR or pass ROOT UQI_FILE".toList
  | noOutput => "No UQI file given; use -o FILE".toList
  | failed e => e.message
  | reportUnwritten path fault =>
    "Failed to write report JSON ".toList ++ quoted path ++ ": ".toList ++ fault.message
  | issuesLeft => "Please fix UQI ERROR(s) above before proceeding.".toList

end FirmwareIds.Command
