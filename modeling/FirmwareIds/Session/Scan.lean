import FirmwareIds.FileKind
import FirmwareIds.FileTree.Walk
import FirmwareIds.Session.Basic

/-!
# Scanning a root

A scan reads the resource files and form sources that a walk of the root finds. A file that cannot
be read is an issue and no more. The list of codes is passed over, by whatever path the walk comes
to it.
-/

namespace FirmwareIds.Session

/-- Whether the path leads to the list of codes. -/
def leadsToTarget (s : Session) (t : FileTree) (p : Path) : Bool :=
  match s.targetKey? with
  | some k => (t.locate p).toOption == some k
  | none => p.same s.target.path

/-- The issue that two references to one token make, if they make one. -/
def conflict? (strictness : Strictness) (first again : Reference) : Option Issue :=
  match first.binding, again.binding with
  | some v, some w =>
    if v = w then none
    else
      match strictness with
      | .off => none
      | .warn => some (.conflictingReference .warning first again v w)
      | .error => some (.conflictingReference .error first again v w)
  | _, _ => none

/-- Takes down a reference. The first one to a token is stored, later ones are compared with it. -/
def record (s : Session) (r : Reference) : Session :=
  match hfirst : s.reference? r.token with
  | none => { s with table := s.table.add r hfirst }
  | some first => s.addIssues (conflict? s.strictness first r).toList

/-- The first reference to a token is stored. -/
theorem record_of_none {s : Session} {r : Reference} (hfirst : s.reference? r.token = none) :
    s.record r = { s with table := s.table.add r hfirst } := by
  unfold record
  split
  · rfl
  · next first hsome => exact nomatch hfirst.symm.trans hsome

/-- A later one is compared with it. -/
theorem record_of_some {s : Session} {r first : Reference}
    (hfirst : s.reference? r.token = some first) :
    s.record r = s.addIssues (conflict? s.strictness first r).toList := by
  unfold record
  split
  · next hnone => exact nomatch hfirst.symm.trans hnone
  · next first' hsome => rw [Option.some.inj (hfirst.symm.trans hsome)]

theorem record_cases (s : Session) (r : Reference) :
    (∃ hfirst : s.reference? r.token = none,
        s.record r = { s with table := s.table.add r hfirst }) ∨
      ∃ first, s.reference? r.token = some first ∧
        s.record r = s.addIssues (conflict? s.strictness first r).toList := by
  rcases Option.eq_none_or_eq_some (s.reference? r.token) with hfirst | ⟨first, hfirst⟩
  · exact Or.inl ⟨hfirst, record_of_none hfirst⟩
  · exact Or.inr ⟨first, hfirst, record_of_some hfirst⟩

/-- Reads a resource file. -/
def takeResource (s : Session) (t : FileTree) (p : Path) : Session :=
  if s.leadsToTarget t p then s
  else
    match t.loadText p with
    | .ok content => { s with resources := s.resources ++ [⟨p, content, false⟩] }
    | .error _ => s.addIssues [.unreadableFile p]

/-- Reads a form source and takes down its references. -/
def takeForm (s : Session) (t : FileTree) (p : Path) : Session :=
  match t.loadText p with
  | .ok content =>
    (Reference.all content.text p).foldl record { s with formCount := s.formCount + 1 }
  | .error _ => s.addIssues [.unreadableFile p]

/-- Takes in one thing met on the walk of a root. -/
def visit (t : FileTree) (root : Path) (s : Session) : Found → Session
  | .unlisted dir fault => s.addIssues [.unlistedDirectory root (Found.reason dir fault)]
  | .file p =>
    match FileKind.ofPath? p with
    | some .resource => s.takeResource t p
    | some .form => s.takeForm t p
    | none => s

/-- Scans a root. It fails only if the root itself cannot be walked. -/
def scan (s : Session) (t : FileTree) (root : Path) (excluded : List Path) :
    Except Error Session :=
  (t.walk root excluded).map fun walked => walked.foldl (visit t root) s

end FirmwareIds.Session
