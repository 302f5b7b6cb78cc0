import FirmwareIds.Session.Allocate
import FirmwareIds.Session.Flush
import FirmwareIds.Session.Scan
import FirmwareIds.Session.Strip
import FirmwareIds.Session.Validate

/-!
# Runs

A run takes a session through its steps: scan every root, strip if asked to, index, validate,
assign codes if asked to and nothing fatal was found, and write. It ends early, with every file as
it was, if the options make no sense or a root cannot be walked; whatever else goes wrong is in the
report.
-/

namespace FirmwareIds.Session

/-- Scans the roots in order. -/
def scanAll (t : FileTree) (excluded : List Path) (s : Session) (roots : List Path) :
    Except Error Session :=
  roots.foldlM (fun s root => s.scan t root excluded) s

/-- Assigns codes; if that fails, it is an issue. -/
def allocateOrReport (s : Session) (lead? : Option Text) : Session :=
  match s.assignQueue lead? with
  | (s, none) => s
  | (s, some e) => s.addIssues [.unassigned s.target.path e]

/-- The steps between scanning and writing. -/
def settle (o : Options) (s : Session) : Session :=
  let s := if o.strip then s.strip else s
  let s := s.index.validate o.update
  if o.update && !s.hasFatal then s.allocateOrReport o.lead else s

/-- The session of a run after all roots are scanned. -/
def scanned (t : FileTree) (o : Options) : Except Error Session := do
  if o.roots.isEmpty then throw .noRoot
  let excluded ← o.exclusions
  (start t o).scanAll t excluded o.roots

/-- A run whose saves are made in the ways `savings`: the tree that it leaves and its report. -/
def runEach (savings : Nat → Saving) (t : FileTree) (o : Options) :
    Except Error (FileTree × Report) := do
  let s ← scanned t o
  let (t, s) := (s.settle o).flushEach savings t
  return (t, s.report)

/-- A run: the tree that it leaves and its report. -/
def run (saving : Saving) : FileTree → Options → Except Error (FileTree × Report) :=
  runEach fun _ => saving

end FirmwareIds.Session
