import FirmwareIds.Command.Problem
import FirmwareIds.FileTree.Change
import FirmwareIds.Session.Options
import FirmwareIds.Text.Utf8
import FirmwareIds.Toml.Document

/-!
# Settings files

A settings file gives values to the options that the command line leaves out:

    [uqi]
    roots = ["Platform", "Silicon"]
    output = "Platform/Strings/UqiList.uni"
    exclude = ["Build"]
    strictness = "warn"
    prefix = "x"

Every setting may be missing, and no other is allowed. The roots and the output lie in the
directory of the file; the excluded directories lie under the roots. The five settings may also be
given as an array, in this order and all of them, and what follows them there does not count.
-/

namespace FirmwareIds.Command

/-- What a settings file says. -/
structure Defaults where
  roots : List Path := []
  output : Option Path := none
  excluded : List Path := []
  strictness : Option Strictness := none
  lead : Option Text := none
  deriving DecidableEq

namespace Defaults

open Toml

def text? : Value → Option Text
  | .string s => some s
  | _ => none

def path? (v : Value) : Option Path := (text? v).map Path.mk

def paths? : Value → Option (List Path)
  | .array items => items.mapM path?
  | _ => none

/-- A value that holds nothing. -/
def isEmpty : Value → Bool
  | .array [] | .table _ [] => true
  | _ => false

/-- The word of a value that is one of several words: a string, or a table whose one key is the
word and whose value holds nothing. -/
def word? : Value → Option Text
  | .string s => some s
  | .table _ [(s, v)] => if isEmpty v then some s else none
  | _ => none

/-- Settings name a strictness in one way only. -/
def strictness? (v : Value) : Option Strictness := do
  let word ← word? v
  [Strictness.off, .warn, .error].find? (·.name = word)

/-- Takes in one setting. -/
def set (d : Defaults) (key : Text) (v : Value) : Option Defaults :=
  if key = "roots".toList then (paths? v).map fun roots => { d with roots }
  else if key = "output".toList then (path? v).map fun output => { d with output }
  else if key = "exclude".toList then (paths? v).map fun excluded => { d with excluded }
  else if key = "strictness".toList then
    (strictness? v).map fun strictness => { d with strictness }
  else if key = "prefix".toList then (text? v).map fun lead => { d with lead }
  else none

/-- The settings as a table or as an array. -/
def ofValue? : Value → Option Defaults
  | .table _ fields => fields.foldlM (fun d field => d.set field.1 field.2) {}
  | .array (roots :: output :: excluded :: strictness :: lead :: _) => do
    return ⟨← paths? roots, ← path? output, ← paths? excluded, ← strictness? strictness,
      ← text? lead⟩
  | _ => none

/-- The settings of a text, which holds no other table. -/
def parse? (s : Text) : Option Defaults := do
  match ← read? s with
  | [] => return {}
  | [(name, v)] => if name = "uqi".toList then ofValue? v else none
  | _ => none

/-- The settings with their roots and their output taken from a directory. -/
def relativeTo (d : Defaults) (dir : Path) : Defaults :=
  { d with roots := d.roots.map dir.join, output := d.output.map dir.join }

/-- Reads a settings file. -/
def load (t : FileTree) (p : Path) : Except Problem Defaults :=
  match t.readFile p with
  | .error fault => .error (.settingsUnread p fault)
  | .ok bytes =>
    match Utf8.decode? bytes with
    | none => .error (.settingsUnread p .notText)
    | some s =>
      match parse? s with
      | none => .error (.settingsMalformed p)
      | some d => .ok (d.relativeTo (p.parent?.getD ⟨[]⟩))

end Defaults

end FirmwareIds.Command
