import FirmwareIds.BiosId.Basic
import FirmwareIds.Error
import FirmwareIds.FileTree.Change
import FirmwareIds.Text.Utf16
import FirmwareIds.Text.Utf8

/-!
# What a BIOS ID is written to

The blob that goes into the firmware is a signature and the BIOS ID in sixteen-bit units, low byte
first, with a nought behind. For the build there is a shell line that exports it.
-/

namespace FirmwareIds.BiosId

/-- The eight bytes before the BIOS ID. -/
def signature : List UInt8 := Utf8.encode "$IBIOSI$".toList

/-- The blob for a BIOS ID. -/
def blob (id : Text) : List UInt8 := signature ++ Utf16.encode .little id ++ [0, 0]

/-- The shell line for a BIOS ID. -/
def exportLine (id : Text) : Text := "export BIOS_ID=".toList ++ id

/-- Writes a file. -/
def write (t : FileTree) (p : Path) (bytes : List UInt8) : FileTree × Option Error :=
  match t.writeFile p bytes with
  | .ok t => (t, none)
  | .error fault => (t, some (.file p fault))

/-- Reads the settings from a file. -/
def readSettings (t : FileTree) (p : Path) : Except Error Settings :=
  if !t.hasEntry p then .error (.biosId (.noFile p.text))
  else
    match t.readFile p with
    | .error fault => .error (.file p fault)
    | .ok bytes =>
      match Utf8.decode? bytes with
      | none => .error (.file p .notText)
      | some s => (Settings.parse s).mapError .biosId

/-- Reads the settings and writes the blob, and the shell line if a file is given for it: the tree
that is left and the BIOS ID. -/
def generate (t : FileTree) (settings output : Path) (batch? : Option Path) (m : Moment) :
    FileTree × Except Error Text :=
  match readSettings t settings with
  | .error e => (t, .error e)
  | .ok s =>
    let id := s.id m
    match write t output (blob id) with
    | (t, some e) => (t, .error e)
    | (t, none) =>
      match batch?.map fun batch => write t batch (Utf8.encode (exportLine id)) with
      | some (t, some e) => (t, .error e)
      | some (t, none) => (t, .ok id)
      | none => (t, .ok id)

end FirmwareIds.BiosId
