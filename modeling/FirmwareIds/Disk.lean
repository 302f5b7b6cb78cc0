import FirmwareIds.FileKind
import FirmwareIds.FileTree.Replace

/-!
# The files on disk

A command works on a file tree. This module reads the tree that a command needs from the disk, and
writes what has changed in it back. It decides nothing about the files: which way a path goes, and
what becomes of a file, is said by the tree.

Of the files below a root only those that a scan reads are read here; the others are in the tree
with no content.
-/

namespace FirmwareIds.Disk

/-- A key as the absolute name of a file. -/
def nameOf (k : Key) : String := String.ofList (k.flatMap ('/' :: ·))

/-- The key of an absolute name. -/
def keyOf (name : String) : Key := Path.pieces ⟨name.toList⟩

/-- Reads the entry at a key. The content of a file is read if it is wanted. -/
def readEntry (t : FileTree) (k : Key) (wanted : Bool) : IO FileTree := do
  let file := (← IO.currentDir) / nameOf k
  match ← file.symlinkMetadata.toBaseIO with
  | .error _ => return t
  | .ok found =>
    match found.type with
    | .dir => return t.put k .directory
    | .symlink =>
      match ← (IO.FS.realPath file).toBaseIO with
      | .ok target => return t.put k (.link ⟨target.toString.toList⟩)
      | .error _ => return t.put k (.link ⟨[]⟩)
    | .file =>
      let bytes ← if wanted then IO.FS.readBinFile file else pure .empty
      return t.put k (.file bytes.toList)
    | .other => return t

/-- Reads the entries on the way that the steps of a path take from a directory. -/
partial def readWay (t : FileTree) (links : Nat) (dir : Key) : List Text → IO FileTree
  | [] => return t
  | step :: rest => do
    if Path.isStay step then readWay t links dir rest
    else if step = Path.upStep then readWay t links dir.dropLast rest
    else
      let k := dir ++ [step]
      let t ← readEntry t k true
      match t.get? k, links with
      | some (.link target), links + 1 =>
        readWay t links (FileTree.startFrom dir target) (target.steps ++ rest)
      | some .directory, links => readWay t links k rest
      | _, _ => return t

/-- Reads the entries on the way of a path. -/
def readPath (t : FileTree) (p : Path) : IO FileTree :=
  readWay t FileTree.linkLimit (FileTree.startFrom t.here p) p.steps

/-- Reads everything below a directory. -/
partial def readBelow (t : FileTree) (k : Key) : IO FileTree := do
  let mut t := t
  match ← ((← IO.currentDir) / nameOf k).readDir.toBaseIO with
  | .error _ => return t
  | .ok children =>
    for child in children do
      let name := child.fileName.toList
      t ← readEntry t (k ++ [name]) (FileKind.ofName? name).isSome
      if t.get? (k ++ [name]) = some .directory then t ← readBelow t (k ++ [name])
    return t

/-- Reads a root and everything below it. -/
def readRoot (t : FileTree) (root : Path) : IO FileTree := do
  let t ← readPath t root
  match t.locate root with
  | .ok k => readBelow t k
  | .error _ => return t

/-- The directories down to the working directory. -/
def readHere : IO FileTree := do
  return .bare (keyOf (← IO.currentDir).toString)

/-- Writes one entry as it is in the tree; a file is written beside its place and moved there. -/
def writeEntry (mark : Text) (k : Key) : Entry → IO Unit
  | .directory => do IO.FS.createDirAll ((← IO.currentDir) / nameOf k)
  | .file bytes => do
    let name := nameOf k
    let temporary := String.ofList (FileTree.temporary mark ⟨name.toList⟩).text
    IO.FS.writeBinFile temporary ⟨bytes.toArray⟩
    IO.FS.rename temporary name
  | .link _ => return

/-- Writes what is in the tree `after` and was not in the tree `before`, a directory before what
it holds, and removes what is no longer there. -/
def write (mark : Text) (before after : FileTree) : IO Unit := do
  let changed := after.entries.filter fun (k, e) => before.get? k ≠ some e
  for (k, e) in changed.mergeSort fun a b => a.1.length ≤ b.1.length do
    writeEntry mark k e
  for (k, _) in before.entries do
    if (after.get? k).isNone then IO.FS.removeFile (nameOf k)

end FirmwareIds.Disk
