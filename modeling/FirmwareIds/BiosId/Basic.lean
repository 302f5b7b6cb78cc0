import FirmwareIds.BiosId.Section
import FirmwareIds.Clock.Moment

/-!
# BIOS IDs

A BIOS ID joins six items of the settings and the time of the build to 32 characters:

    KBLRVP11.000.0001.D01.1907081530

Every item has a fixed number of characters; the parts of the version may be left out.
-/

namespace FirmwareIds.BiosId

/-- The items of the settings. -/
inductive Item where
  | boardId
  | boardRev
  | boardExt
  | buildType
  | versionMajor
  | versionMinor
  deriving DecidableEq

namespace Item

/-- The items, in the order in which a missing one is reported. -/
def all : List Item := [boardId, boardRev, boardExt, buildType, versionMajor, versionMinor]

/-- The key of the item. -/
def key : Item → Text
  | boardId => "BOARD_ID".toList
  | boardRev => "BOARD_REV".toList
  | boardExt => "BOARD_EXT".toList
  | buildType => "BUILD_TYPE".toList
  | versionMajor => "VERSION_MAJOR".toList
  | versionMinor => "VERSION_MINOR".toList

/-- The number of characters of the item. -/
def width : Item → Nat
  | boardId => 7
  | boardRev => 1
  | boardExt => 3
  | buildType => 1
  | versionMajor => 4
  | versionMinor => 2

/-- What the item is if it is left out; `none` for an item that must be there. -/
def default? : Item → Option Text
  | versionMajor => some "0000".toList
  | versionMinor => some "00".toList
  | _ => none

/-- The item with a key. -/
def ofKey? (key : Text) : Option Item := all.find? (·.key = key)

end Item

/-- The settings of a BIOS ID. -/
structure Settings where
  boardId : Text
  boardRev : Text
  boardExt : Text
  buildType : Text
  versionMajor : Text
  versionMinor : Text
  deriving DecidableEq

namespace Settings

/-- Checks the key and the length of a pair. -/
def check (pair : Text × Text) : Except Problem Unit :=
  match Item.ofKey? pair.1 with
  | none => .error (.unknown pair.1)
  | some item => if pair.2.length = item.width then .ok () else .error (.wrongLength pair.1)

/-- The value of an item. -/
def value (pairs : List (Text × Text)) (item : Item) : Except Problem Text :=
  match (pairs.lookup item.key).or item.default? with
  | some value => .ok value
  | none => .error (.missing item.key)

/-- The settings with these keys and values. -/
def ofPairs (pairs : List (Text × Text)) : Except Problem Settings := do
  pairs.forM check
  let boardId ← value pairs .boardId
  let boardRev ← value pairs .boardRev
  let boardExt ← value pairs .boardExt
  let buildType ← value pairs .buildType
  let versionMajor ← value pairs .versionMajor
  let versionMinor ← value pairs .versionMinor
  return ⟨boardId, boardRev, boardExt, buildType, versionMajor, versionMinor⟩

/-- The section that holds the settings. -/
def sectionName : Text := "config".toList

/-- Reads the settings from a text. -/
def parse (s : Text) : Except Problem Settings := do
  match ← readSection sectionName s with
  | none => .error .noSection
  | some pairs => ofPairs pairs

/-- The BIOS ID of a build at a moment. -/
def id (s : Settings) (m : Moment) : Text :=
  s.boardId ++ s.boardRev ++ '.' :: s.boardExt ++ '.' :: s.versionMajor ++ '.' :: s.buildType
    ++ s.versionMinor ++ '.' :: m.shortYear ++ m.monthDay ++ m.hourMinute

end Settings

end FirmwareIds.BiosId
