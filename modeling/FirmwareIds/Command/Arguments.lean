import FirmwareIds.Command.Request
import FirmwareIds.Command.Switch

/-!
# The commands and their arguments

There are three commands:

    uqi        look after the question codes of a firmware tree
    bios-id    write a BIOS ID
    utc-stamp  print a stamp of the current moment

A command line that names none of them, or gives a command something it does not know, is refused
as a whole.
-/

namespace FirmwareIds

/-- What is to be done. -/
inductive Command where
  | codes (request : Command.Request)
  | biosId (settings output : Path) (batch : Option Path)
  | stamp (part : Text)
  deriving DecidableEq

namespace Command

/-- Spellings of old, and those of today. -/
def oldSpellings : List (Text × Text) :=
  [("-ob".toList, "--batch".toList), ("--int".toList, "--input".toList),
    ("--out".toList, "--output".toList), ("--updata".toList, "--update".toList)]

/-- The words of a command line in the spellings of today. -/
def modernize (words : List Text) : List Text :=
  words.map fun word => (oldSpellings.lookup word).getD word

/-- How a command line is understood. -/
inductive Reading where
  | command (c : Command)
  /-- Help or the version is asked for, and nothing else. -/
  | notice
  | refused
  deriving DecidableEq

/-- A switch without a value. -/
def flag (long : String) (letter : Char) : Switch :=
  { long := long.toList, letter := some letter }

/-- A switch with a value. -/
def valued (long : String) (letter : Option Char) (operand : Operand) : Switch :=
  { long := long.toList, letter, operand := some operand }

/-- Every command can be told to say more, and asked for help. -/
def shared : List Switch := [flag "verbose" 'v', { flag "help" 'h' with notice := true }]

def codesSwitches : Switches where
  known := shared ++
    [{ valued "dir" (some 'd') .path with repeats := true }, valued "output" (some 'o') .path,
      { valued "exclude" (some 'x') .path with repeats := true }, flag "build" 'b',
      flag "update" 'u', flag "lang" 'l', valued "question" (some 'q') .strictness,
      valued "prefix" none .text, valued "config" (some 'c') .path,
      valued "report-json" none .path]
  positions := none

def biosIdSwitches : Switches where
  known := shared ++ [valued "input" (some 'i') .path, valued "output" (some 'o') .path,
    valued "batch" none .path]

def stampSwitches : Switches where
  known := shared
  operand := .text
  positions := some 1
  freePosition := true

/-- The value of a switch that is given once or not at all. -/
def value? (given : List Given) (long : String) : Option Text :=
  (valuesOf given long.toList).head?

def isGiven (given : List Given) (long : String) : Bool := (value? given long).isSome

def path? (given : List Given) (long : String) : Option Path := (value? given long).map Path.mk

/-- The request for the upkeep of question codes. Checking alone is what it does anyway, so the
flag for that changes nothing. -/
def codesOf (given : List Given) : Command :=
  .codes {
    roots := (valuesOf given "dir".toList).map Path.mk
    output := path? given "output"
    excluded := (valuesOf given "exclude".toList).map Path.mk
    update := isGiven given "update"
    strip := isGiven given "lang"
    strictness := (value? given "question").bind fun word => (Strictness.parse word).toOption
    lead := value? given "prefix"
    settings := path? given "config"
    report := path? given "report-json"
    positions := (positionsOf given).map Path.mk }

/-- The command for a BIOS ID, which needs its input and its output. -/
def biosId? (given : List Given) : Option Command := do
  let settings ← path? given "input"
  let output ← path? given "output"
  return .biosId settings output (path? given "batch")

/-- The command for a stamp, which needs the name of one part. -/
def stamp? (given : List Given) : Option Command := (positionsOf given).head?.map .stamp

/-- Reads the arguments of a command. -/
def readArguments (s : Switches) (build : List Given → Option Command) (words : List Text) :
    Reading :=
  match s.parse words with
  | none => .refused
  | some given =>
    if s.asksNotice given then .notice
    else
      match build given with
      | some c => .command c
      | none => .refused

/-- The names that may stand first. -/
def names : List Text :=
  ["uqi".toList, "bios-id".toList, "utc-stamp".toList, "help".toList]

/-- Reads what help is asked for by name: for all commands or for one. -/
def readHelp : List Text → Reading
  | [] => .notice
  | [name] => if names.contains name then .notice else .refused
  | _ => .refused

/-- Reads a command by its name. -/
def readNamed? (name : Text) : Option (List Text → Reading) :=
  if name = "uqi".toList then some (readArguments codesSwitches fun given => codesOf given)
  else if name = "bios-id".toList then some (readArguments biosIdSwitches biosId?)
  else if name = "utc-stamp".toList then some (readArguments stampSwitches stamp?)
  else if name = "help".toList then some readHelp
  else none

/-- The switches before the name of the command. -/
def leadingSwitches : Switches where
  known := shared ++ [{ flag "version" 'V' with notice := true }]

/-- Reads a command line from its first word. `given` are the switches before it. -/
def readFrom (given : List Given) : List Text → Reading
  | [] => .refused
  | word :: rest =>
    match readNamed? word with
    | some read => read rest
    | none =>
      match leadingSwitches.read false word with
      | some (.switches more none) =>
        let given := given ++ more
        if !leadingSwitches.allows given then .refused
        else if leadingSwitches.asksNotice given then .notice
        else readFrom given rest
      | _ => .refused

/-- Reads a command line without the name of the program. -/
def read (words : List Text) : Reading := readFrom [] (modernize words)

end Command

end FirmwareIds
