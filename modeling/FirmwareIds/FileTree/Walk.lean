import FirmwareIds.Error
import FirmwareIds.FileTree.Locate

/-!
# Walking a root

A walk lists the files below a root, directory by directory, each directory in the order of its
names and what is below it right after it. Links are neither listed nor followed; the root alone
may be reached by one. Excluded paths are left out with all that is below them. They are compared
by their parts with the paths that the walk forms, so an excluded path excludes only if it is the
root joined with names.

A key has a finite number of names and every step down adds one, which is why the walk ends.
-/

namespace FirmwareIds

/-- One thing met on a walk. -/
inductive Found where
  /-- A file, at the root joined with the names below it. -/
  | file (path : Path)
  /-- A directory that could not be listed. -/
  | unlisted (dir : Path) (fault : Fault)
  deriving DecidableEq

/-- Why a directory was not listed. It is named twice, as what was walked and as what was read. -/
def Found.reason (dir : Path) (fault : Fault) : Text :=
  dir.text ++ ": IO error for operation on ".toList ++ dir.text ++ ": ".toList ++ fault.message

namespace FileTree

/-- The number of names in the longest key. -/
def depth (t : FileTree) : Nat := t.entries.foldr (fun e n => max e.1.length n) 0

theorem length_le_depth {t : FileTree} {k : Key} {e : Entry} (h : (k, e) ∈ t.entries) :
    k.length ≤ t.depth := by
  unfold depth
  generalize t.entries = es at h
  induction es with
  | nil => cases h
  | cons x xs ih =>
    have hx : x.1.length ≤ max x.1.length (xs.foldr (fun e n => max e.1.length n) 0) :=
      Nat.le_max_left ..
    rcases List.mem_cons.mp h with rfl | h
    · exact hx
    · exact Nat.le_trans (ih h) (Nat.le_max_right ..)

/-- A child lies one level below its directory, and not below the deepest one. -/
theorem length_lt_depth {t : FileTree} {k : Key} {n : Text} {e : Entry}
    (h : (n, e) ∈ t.children k) : k.length < t.depth := by
  have := length_le_depth (mem_children.mp h)
  rw [List.length_append] at this
  exact this

/-- The walk below the directory `dir`, whose key is `k`. -/
def walkBelow (t : FileTree) (excluded : List Path) (dir : Path) (k : Key) : List Found :=
  match dir.fault? with
  | some fault => [.unlisted dir fault]
  | none =>
    (t.children k).attach.flatMap fun ⟨(name, e), _h⟩ =>
      let p := dir.join ⟨name⟩
      if excluded.any (p.same ·) then []
      else
        match e with
        | .file _ => [.file p]
        | .link _ => []
        | .directory => t.walkBelow excluded p (k ++ [name])
termination_by t.depth - k.length
decreasing_by
  have := length_lt_depth _h
  rw [List.length_append, List.length_singleton]
  omega

/-- The root that names no directory: a walk of it finds nothing. -/
def standardInput : Path := ⟨['-']⟩

/-- The walk of a root. -/
def walk (t : FileTree) (root : Path) (excluded : List Path) : Except Error (List Found) :=
  match t.locate root with
  | .error fault => .error (.root root fault)
  | .ok k =>
    if t.get? k ≠ some .directory then .error (.rootNotDirectory root)
    else if root.same standardInput then .ok []
    else .ok (t.walkBelow excluded root k)

end FileTree

end FirmwareIds
