import FirmwareIds.FileTree.Locate

/-!
# Reading and changing files

The operations on files that a run uses, each with the faults it can be refused with. An operation
that is refused has changed nothing; `makeDirectories` alone, which makes several directories, may
leave those that it has made.
-/

namespace FirmwareIds.FileTree

/-- The bytes of the file that the path leads to. -/
def readFile (t : FileTree) (p : Path) : Except Fault (List UInt8) :=
  match t.locate p with
  | .error fault => .error fault
  | .ok k =>
    match t.get? k with
    | some (.file bytes) => .ok bytes
    | some .directory => .error .isDirectory
    | _ => .error .notFound

theorem readFile_eq_ok_iff {t : FileTree} {p : Path} {bytes : List UInt8} :
    t.readFile p = .ok bytes ↔ ∃ k, t.locate p = .ok k ∧ t.get? k = some (.file bytes) := by
  unfold readFile
  cases t.locate p with
  | error fault => simp
  | ok k =>
    simp only [Except.ok.injEq, exists_eq_left']
    cases t.get? k with
    | none => simp
    | some e => cases e <;> simp

/-- The key at which a file written at the path lies. -/
def fileKey (t : FileTree) (p : Path) : Except Fault Key :=
  match t.resolve true p with
  | .error fault => .error fault
  | .ok (.vacant dir name) => .ok (dir ++ [name])
  | .ok (.there k) => if t.get? k = some .directory then .error .isDirectory else .ok k

/-- Writes a file as a whole, making it if need be. A link is followed. -/
def writeFile (t : FileTree) (p : Path) (bytes : List UInt8) : Except Fault FileTree :=
  (t.fileKey p).map fun k => t.put k (.file bytes)

theorem writeFile_eq_ok_iff {t u : FileTree} {p : Path} {bytes : List UInt8} :
    t.writeFile p bytes = .ok u ↔ ∃ k, t.fileKey p = .ok k ∧ u = t.put k (.file bytes) := by
  unfold writeFile
  cases t.fileKey p with
  | error fault => simp [Except.map]
  | ok k => simp [Except.map, eq_comm]

/-- The key of the last name of the path, for an operation that refuses a path without one. -/
def nameKey (t : FileTree) (p : Path) (noName : Fault) : Except Fault Key :=
  match t.site p with
  | .error fault => .error fault
  | .ok (_, none) => .error noName
  | .ok (dir, some name) =>
    if Path.nameLimit < name.byteLength then .error .nameTooLong else .ok (dir ++ [name])

/-- Makes an entry where there is none. -/
def make (t : FileTree) (p : Path) (e : Entry) : Except Fault FileTree :=
  match t.nameKey p .alreadyExists with
  | .error fault => .error fault
  | .ok k => if (t.get? k).isSome then .error .alreadyExists else .ok (t.put k e)

/-- What is made lies where nothing was. -/
theorem make_eq_ok_iff {t u : FileTree} {p : Path} {e : Entry} :
    t.make p e = .ok u ↔
      ∃ k, t.nameKey p .alreadyExists = .ok k ∧ t.get? k = none ∧ u = t.put k e := by
  unfold make
  cases t.nameKey p .alreadyExists with
  | error fault => simp
  | ok k =>
    simp only [Except.ok.injEq, exists_eq_left']
    cases t.get? k <;> simp [eq_comm]

/-- Makes a directory. -/
def makeDirectory (t : FileTree) (p : Path) : Except Fault FileTree := t.make p .directory

/-- Makes a directory; one that is there already will do. -/
def ensureDirectory (t : FileTree) (p : Path) : FileTree × Option Fault :=
  match t.makeDirectory p with
  | .ok t => (t, none)
  | .error fault => (t, if t.isDirectory p then none else some fault)

/-- Makes a directory and the missing ones above it. The tree is the one after the last step,
also when that was refused. -/
def makeDirectories (t : FileTree) (p : Path) : FileTree × Option Fault :=
  if p.text.isEmpty then (t, none)
  else
    match t.ensureDirectory p with
    | (t, some .notFound) =>
      match _h : p.parent? with
      | none => (t, some .notFound)
      | some dir =>
        match t.makeDirectories dir with
        | (t, some fault) => (t, some fault)
        | (t, none) => t.ensureDirectory p
    | done => done
termination_by p.text.length
decreasing_by exact Path.length_parent?_lt (by assumption)

/-- Moves a file or a link to another name, over a file or a link that bears it. -/
def move (t : FileTree) (source target : Path) : Except Fault FileTree := do
  let k ← t.nameKey source .busy
  let k' ← t.nameKey target .busy
  match t.get? k with
  | none => .error .notFound
  | some .directory => .error .isDirectory
  | some e =>
    if source.endsWithSeparator || target.endsWithSeparator then .error .notDirectory
    else if t.get? k' = some .directory then .error .isDirectory
    else .ok ((t.erase k).put k' e)

/-- Removes a file or a link. -/
def removeFile (t : FileTree) (p : Path) : Except Fault FileTree := do
  let k ← t.nameKey p .isDirectory
  match t.get? k with
  | none => .error .notFound
  | some .directory => .error .isDirectory
  | some _ => if p.endsWithSeparator then .error .notDirectory else .ok (t.erase k)

/-- Removes an entry and everything below it. -/
def removeAll (t : FileTree) (p : Path) : Except Fault FileTree :=
  (t.nameKey p .busy).map fun k => t.without (k.isPrefixOf ·)

end FirmwareIds.FileTree
