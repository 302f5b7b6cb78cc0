import FirmwareIds.Clock.Calendar
import FirmwareIds.Command.Perform
import FirmwareIds.Disk
import Std.Time.DateTime.Timestamp

/-!
# The command line

Reads the files that a command needs, lets the command do its work on them, and writes back and
prints what comes of it.
-/

namespace FirmwareIds

/-- How the program is called. -/
def usage : String := "\n".intercalate
  ["Usage: firmware-ids [-v] uqi [OPTIONS] [ROOT UQI_FILE [EXCLUDED...]]",
    "       firmware-ids [-v] bios-id --input FILE --output FILE [--batch FILE]",
    "       firmware-ids [-v] utc-stamp year|date|time"]

/-- The files that a command needs. -/
def Command.readFiles (t : FileTree) : Command → IO FileTree
  | .codes request => do
    let t ← (request.settings.toList ++ request.report.toList).foldlM Disk.readPath t
    match request.options t with
    | .error _ => return t
    | .ok o =>
      let t ← [o.output, o.output.join Options.targetName].foldlM Disk.readPath t
      o.roots.foldlM Disk.readRoot t
  | .biosId settings output batch =>
    (settings :: output :: batch.toList).foldlM Disk.readPath t
  | .stamp _ => return t

/-- The current moment. -/
def currentMoment : IO Moment := do
  let now ← Std.Time.Timestamp.now
  return Calendar.momentAt now.toSecondsSinceUnixEpoch.val.toNat

/-- Carries a command out. -/
def Command.execute (c : Command) : IO UInt32 := do
  let mark := Text.decimal (← IO.monoNanosNow)
  let before ← c.readFiles (← Disk.readHere)
  let saving : Saving := fun t p content => t.replaceText mark p content
  let outcome := c.perform saving before (← currentMoment)
  Disk.write mark before outcome.tree
  IO.print (String.ofList outcome.text)
  if let some problem := outcome.problem then
    IO.eprintln ("Error: " ++ String.ofList problem.message)
  return outcome.exitCode

end FirmwareIds

open FirmwareIds in
/-- The program. -/
def main (words : List String) : IO UInt32 := do
  match Command.read (words.map String.toList) with
  | .command c => c.execute
  | .notice =>
    IO.println usage
    return 0
  | .refused =>
    IO.eprintln usage
    return 2
