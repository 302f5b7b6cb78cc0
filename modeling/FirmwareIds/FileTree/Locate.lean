import FirmwareIds.FileTree.Basic
import FirmwareIds.FileTree.Fault

/-!
# Finding the entry that a path leads to

A path is followed step by step from a directory. A dot stays, two dots go up, a name goes on to
the entry of that name, and at a link the steps of its target come first. A separator at the end
is a step too, the empty one: it stays, but only in a directory. So `follow` needs one rule for
all of them, that a step can only be taken from a directory.

A chain of links may turn in a circle, therefore the number of links on one way is bounded. Each
step either uses up a link or shortens what is left, and that is why following ends: `follow` counts
the links down, and between two of them `followToLink` goes through the steps.
-/

namespace FirmwareIds

namespace Path

/-- The steps of a path. The empty step stands for a separator at the end. -/
def steps (p : Path) : List Text := p.pieces ++ if p.endsWithSeparator then [[]] else []

/-- Whether a step stays where it is. -/
def isStay (step : Text) : Bool := step == [] || step == ['.']

/-- The step to the directory above. -/
def upStep : Text := ['.', '.']

/-- What a path may not be before its steps count: a path holds no NUL, is not empty and is
shorter than 4096 bytes. -/
def fault? (p : Path) : Option Fault :=
  if p.text.contains '\x00' then some .nulInPath
  else if p.text.isEmpty then some .notFound
  else if 4096 ≤ p.text.byteLength then some .nameTooLong
  else none

/-- The longest name, in bytes. -/
def nameLimit : Nat := 255

end Path

namespace FileTree

/-- Where a path leads. -/
inductive Place where
  /-- To the entry at a key. It is no link, unless the key was not stepped to. -/
  | there (k : Key)
  /-- To a name that is free in a directory. -/
  | vacant (dir : Key) (name : Text)
  deriving DecidableEq

/-- The number of links that may lie on one way. -/
def linkLimit : Nat := 40

/-- The directory from which the steps of a path are taken, met in the directory `dir`. -/
def startFrom (dir : Key) (p : Path) : Key := if p.isAbsolute then [] else dir

/-- Takes the steps from the directory `dir` up to the first link, where `jump` goes on. With
`creating` the way is to a file that may have to be made, and a separator behind its name is
refused whatever the name leads to. -/
def followToLink (t : FileTree) (creating : Bool)
    (jump : (dir : Key) → (target : Path) → (rest : List Text) → Except Fault Place) :
    (dir : Key) → List Text → Except Fault Place
  | dir, [] => .ok (.there dir)
  | dir, step :: rest =>
    if t.get? dir ≠ some .directory then .error .notDirectory
    else if Path.isStay step then t.followToLink creating jump dir rest
    else if step = Path.upStep then t.followToLink creating jump dir.dropLast rest
    else if creating ∧ rest = [[]] then .error .isDirectory
    else if Path.nameLimit < step.byteLength then .error .nameTooLong
    else
      match t.get? (dir ++ [step]) with
      | none => if rest = [] then .ok (.vacant dir step) else .error .notFound
      | some (.link target) => jump dir target rest
      | some _ => t.followToLink creating jump (dir ++ [step]) rest

/-- Takes the steps from a directory with at most `links` links on the way. At a link the steps of
its target come first. -/
def follow (t : FileTree) (creating : Bool) :
    (links : Nat) → (dir : Key) → List Text → Except Fault Place
  | 0 => t.followToLink creating fun _ _ _ => .error .tooManyLinks
  | links + 1 => t.followToLink creating fun dir target rest =>
      t.follow creating links (startFrom dir target) (target.steps ++ rest)

/-- Where the path leads. -/
def resolve (t : FileTree) (creating : Bool) (p : Path) : Except Fault Place :=
  match p.fault? with
  | some fault => .error fault
  | none => t.follow creating linkLimit (startFrom t.here p) p.steps

/-- The key of the entry that the path leads to, with all links followed. -/
def locate (t : FileTree) (p : Path) : Except Fault Key :=
  match t.resolve false p with
  | .ok (.there k) => .ok k
  | .ok (.vacant ..) => .error .notFound
  | .error fault => .error fault

/-- Whether the path leads to an entry. -/
def hasEntry (t : FileTree) (p : Path) : Bool :=
  match t.locate p with
  | .ok k => (t.get? k).isSome
  | .error _ => false

/-- Whether the path leads to a directory. -/
def isDirectory (t : FileTree) (p : Path) : Bool :=
  match t.locate p with
  | .ok k => t.get? k == some .directory
  | .error _ => false

/-- The directory that holds the last name of the path, and this name: what is needed to make,
rename or remove an entry, which never follows a link at the name itself. There is no name where
the path ends in dots or is the root. -/
def site (t : FileTree) (p : Path) : Except Fault (Key × Option Text) :=
  match p.fault? with
  | some fault => .error fault
  | none =>
    match t.follow false linkLimit (startFrom t.here p) (p.pieces.dropLast ++ [[]]) with
    | .ok (.there dir) =>
      .ok (dir, p.pieces.getLast?.filter fun step => step ≠ ['.'] ∧ step ≠ Path.upStep)
    | .ok (.vacant ..) => .error .notFound
    | .error fault => .error fault

end FileTree

end FirmwareIds
