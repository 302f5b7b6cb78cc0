import FirmwareIds.Command.Defaults

/-!
# Requests

What the command line asks the upkeep of question codes to do, and the options of the run that
come of it. A flag wins over a position, and a position over the settings file. Roots and excluded
directories may be given in both ways on the command line; the output may not.
-/

namespace FirmwareIds.Command

/-- What the command line says. -/
structure Request where
  roots : List Path := []
  output : Option Path := none
  excluded : List Path := []
  update : Bool := false
  strip : Bool := false
  strictness : Option Strictness := none
  lead : Option Text := none
  /-- The settings file. -/
  settings : Option Path := none
  /-- The file that the report is written to. -/
  report : Option Path := none
  /-- What is given by position: a root, the output, and excluded directories. -/
  positions : List Path := []
  deriving DecidableEq

namespace Request

/-- The first list, or the second if the first is empty. -/
def orIfEmpty (given settings : List Path) : List Path :=
  if given.isEmpty then settings else given

/-- The settings that a request refers to. -/
def defaults (r : Request) (t : FileTree) : Except Problem Defaults :=
  match r.settings with
  | none => .ok {}
  | some p => Defaults.load t p

/-- The options of a request under some settings. -/
def optionsUnder (r : Request) (d : Defaults) : Except Problem Options := do
  let placedOutput := r.positions[1]?
  if r.output.isSome && placedOutput.isSome then throw .outputTwice
  let roots := orIfEmpty (r.roots ++ r.positions.take 1) d.roots
  if roots.isEmpty then throw .noRoot
  match (r.output.or placedOutput).or d.output with
  | none => throw .noOutput
  | some output =>
    return {
      output
      roots
      excluded := orIfEmpty (r.excluded ++ r.positions.drop 2) d.excluded
      update := r.update
      strip := r.strip
      strictness := (r.strictness.or d.strictness).getD .off
      lead := r.lead.or d.lead }

/-- The options of a request. -/
def options (r : Request) (t : FileTree) : Except Problem Options := do
  r.optionsUnder (← r.defaults t)

end Request

end FirmwareIds.Command
