import FirmwareIds.BiosId.Output
import FirmwareIds.Clock.Stamp
import FirmwareIds.Command.Arguments
import FirmwareIds.Json.Printer
import FirmwareIds.Report.Json
import FirmwareIds.Session.Run

/-!
# Doing what a command says

A command leaves a tree, prints lines, and may fail after that.
-/

namespace FirmwareIds.Command

/-- What a command comes to. -/
structure Outcome where
  /-- The files afterwards. -/
  tree : FileTree
  /-- The lines printed. -/
  printed : List Text
  problem : Option Problem := none

namespace Outcome

/-- All that is printed. -/
def text (o : Outcome) : Text := o.printed.flatMap (· ++ ['\n'])

/-- What the program answers to its caller. -/
def exitCode (o : Outcome) : UInt32 := if o.problem.isSome then 1 else 0

end Outcome

/-- The lines that tell of a run. -/
def reportLines (r : Report) : List Text :=
  r.removals.map (fun removal =>
      "Removed language ".toList ++ removal.language ++ " from ".toList ++ removal.path.text)
    ++ (if r.movedDefinitions = 0 then [] else
        ["Moved ".toList ++ Text.decimal r.movedDefinitions
          ++ " UQI definition(s) into ".toList ++ r.target.text])
    ++ r.issues.map Issue.line
    ++ r.assigned.map (fun a =>
      a.identifier ++ " assigned UQI ".toList ++ Text.hex4 a.code)
    ++ r.written.map fun p => "Updated ".toList ++ p.text

/-- The numbers of a report. -/
def summary (r : Report) : Json :=
  .object [("resource_files".toList, .ofNat r.resourceCount),
    ("form_files".toList, .ofNat r.formCount),
    ("existing_entries".toList, .ofNat r.entryCount),
    ("referenced_tokens".toList, .ofNat r.tokenCount),
    ("allocated".toList, .ofNat r.assigned.length),
    ("relocated_definitions".toList, .ofNat r.movedDefinitions),
    ("errors".toList, .ofNat r.errors.length),
    ("warnings".toList, .ofNat r.warnings.length)]

/-- The report file: the options of the run, the numbers, and the lists of the report. -/
def reportFile (o : Options) (r : Report) : Json :=
  .object [("roots".toList, .ofTexts (o.roots.map Path.text)),
    ("output".toList, .string r.target.text),
    ("excluded".toList, .ofTexts (o.excluded.map Path.text)),
    ("update".toList, .bool o.update),
    ("strip_languages".toList, .bool o.strip),
    ("strictness".toList, .string o.strictness.name),
    ("success".toList, .bool r.succeeds),
    ("summary".toList, summary r),
    ("allocated".toList, .array (r.assigned.map Assignment.toJson)),
    ("removed_languages".toList, .array (r.removals.map Removal.toJson)),
    ("rewritten".toList, .ofTexts (r.written.map Path.text)),
    ("issues".toList, .array (r.issues.map Issue.toJson))]

/-- Writes the report file if one is asked for, and says so. -/
def saveReport (t : FileTree) (file? : Option Path) (o : Options) (r : Report) :
    FileTree × List Text × Option Problem :=
  match file? with
  | none => (t, [], none)
  | some p =>
    match t.writeFile p (Utf8.encode (reportFile o r).pretty) with
    | .error fault => (t, [], some (.reportUnwritten p fault))
    | .ok t => (t, ["Report JSON written: ".toList ++ p.text], none)

/-- Looks after question codes. -/
def performCodes (saving : Saving) (t : FileTree) (request : Request) : Outcome :=
  match request.options t with
  | .error problem => ⟨t, [], some problem⟩
  | .ok o =>
    let first := "UQI file: ".toList ++ (o.target t).text
    match Session.run saving t o with
    | .error e => ⟨t, [first], some (.failed e)⟩
    | .ok (t, r) =>
      let (t, written, problem?) := saveReport t request.report o r
      let printed := first :: reportLines r ++ written
      match problem? with
      | some problem => ⟨t, printed, some problem⟩
      | none =>
        if r.succeeds then ⟨t, printed ++ ["No UQI issues detected".toList], none⟩
        else ⟨t, printed, some .issuesLeft⟩

/-- Writes a BIOS ID. -/
def performBiosId (t : FileTree) (m : Moment) (settings output : Path) (batch : Option Path) :
    Outcome :=
  match BiosId.generate t settings output batch m with
  | (t, .error e) => ⟨t, [], some (.failed e)⟩
  | (t, .ok id) =>
    ⟨t, ["BIOS ID: ".toList ++ id, "Written: ".toList ++ output.text]
      ++ (batch.map fun p => "Batch file written: ".toList ++ p.text).toList, none⟩

/-- Prints a stamp. -/
def performStamp (t : FileTree) (m : Moment) (part : Text) : Outcome :=
  match Stamp.parse part with
  | .error e => ⟨t, [], some (.failed e)⟩
  | .ok shown => ⟨t, [shown.render m], none⟩

/-- Does what a command says at a moment. -/
def perform (saving : Saving) (t : FileTree) (m : Moment) : Command → Outcome
  | codes request => performCodes saving t request
  | biosId settings output batch => performBiosId t m settings output batch
  | stamp part => performStamp t m part

end FirmwareIds.Command
