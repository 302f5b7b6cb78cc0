import FirmwareIds.Proofs.Form.References
import FirmwareIds.Proofs.Session.Recording
import FirmwareIds.Proofs.Session.Scanning

/-!
# What a scan collects

A scan meets the references of the form sources under its root, in the order of the walk
(`FileTree.references`), and takes them down (`Recorded.scan`). What it collects besides is issues and
resource files as they are on disk (`Collected`).
-/

namespace FirmwareIds

/-- The references of a file, if it is a form source that can be read. -/
def FileTree.referencesAt (t : FileTree) (p : Path) : List Reference :=
  match FileKind.ofPath? p, t.loadText p with
  | some .form, .ok content => Reference.all content.text p
  | _, _ => []

/-- The references of what is met on a walk. -/
def Found.references (t : FileTree) : Found → List Reference
  | .unlisted .. => []
  | .file p => t.referencesAt p

/-- The references under a root, in the order of the walk. -/
def FileTree.references (t : FileTree) (excluded : List Path) (root : Path) : List Reference :=
  match t.walk root excluded with
  | .ok found => found.flatMap (Found.references t)
  | .error _ => []

namespace Session

variable {t : FileTree} {o : Options} {s s' : Session} {rs : List Reference}

/-! ## References on a walk -/

theorem Recorded.addIssues (h : s.Recorded rs) {issues : List Issue}
    (hkinds : ∀ i ∈ issues, i.kind ≠ .conflictingReference) : (s.addIssues issues).Recorded rs :=
  h.of_same rfl rfl rfl hkinds

/-- A scan takes down the references of what it meets. -/
theorem Recorded.visit (h : s.Recorded rs) (t : FileTree) (root : Path) (x : Found) :
    (s.visit t root x).Recorded (rs ++ x.references t) := by
  have hread : ∀ i : Issue, i.kind = .readFailure → (s.addIssues [i]).Recorded (rs ++ []) := by
    intro i hi
    rw [List.append_nil]
    apply h.addIssues
    intro j hj
    rw [List.mem_singleton.mp hj, hi]
    decide
  have hsame : ∀ s' : Session, s'.references = s.references → s'.strictness = s.strictness →
      s'.report = s.report → s'.Recorded (rs ++ []) := by
    intro s' hreferences hstrictness hreport
    rw [List.append_nil]
    exact h.of_same hreferences hstrictness (by rw [hreport, List.append_nil])
      (List.forall_mem_nil _)
  unfold Session.visit Found.references
  cases x with
  | unlisted dir fault => exact hread _ rfl
  | file p =>
    unfold FileTree.referencesAt
    dsimp only
    cases FileKind.ofPath? p with
    | none => exact hsame s rfl rfl rfl
    | some kind =>
      cases kind with
      | resource =>
        dsimp only
        unfold Session.takeResource
        split
        · exact hsame s rfl rfl rfl
        · split
          · exact hsame _ rfl rfl rfl
          · exact hread _ rfl
      | form =>
        dsimp only
        unfold Session.takeForm
        cases t.loadText p with
        | error e => exact hread _ rfl
        | ok content =>
          have hcounted := hsame { s with formCount := s.formCount + 1 } rfl rfl rfl
          rw [List.append_nil] at hcounted
          exact hcounted.foldl _

theorem Recorded.foldl_visit (h : s.Recorded rs) (t : FileTree) (root : Path) (found : List Found) :
    (found.foldl (Session.visit t root) s).Recorded
      (rs ++ found.flatMap (Found.references t)) := by
  induction found generalizing s rs with
  | nil => rwa [List.flatMap_nil, List.append_nil]
  | cons x found ih =>
    rw [List.flatMap_cons, ← List.append_assoc]
    exact ih (h.visit t root x)

theorem Recorded.scan (h : s.Recorded rs) {root : Path} {excluded : List Path}
    (hscan : s.scan t root excluded = .ok s') :
    s'.Recorded (rs ++ t.references excluded root) := by
  obtain ⟨found, hwalk, rfl⟩ := scan_eq_ok_iff.mp hscan
  unfold FileTree.references
  rw [hwalk]
  exact h.foldl_visit t root found

/-- The roots are scanned in order. -/
theorem Recorded.scanAll (h : s.Recorded rs) {excluded roots : List Path}
    (hscan : s.scanAll t excluded roots = .ok s') :
    s'.Recorded (rs ++ roots.flatMap (t.references excluded)) := by
  induction roots generalizing s rs with
  | nil =>
    obtain rfl := Except.ok.inj hscan
    rwa [List.flatMap_nil, List.append_nil]
  | cons root roots ih =>
    obtain ⟨s₁, hroot, hscan⟩ := scanAll_cons_eq_ok_iff.mp hscan
    rw [List.flatMap_cons, ← List.append_assoc]
    exact ih (h.scan hroot) hscan

theorem recorded_scanned (h : scanned t o = .ok s) : ∃ excluded, o.exclusions = .ok excluded ∧
    s.Recorded (o.roots.flatMap (t.references excluded)) := by
  obtain ⟨-, excluded, hexcluded, hall⟩ := scanned_eq_ok_iff.mp h
  exact ⟨excluded, hexcluded, (recorded_start t o).scanAll hall⟩

/-! ## What is collected -/

/-- What a session has collected when nothing but scanning was done: references to strings that can be
defined, resource files as they are on disk, and issues about reading and about conflicts. -/
structure Collected (s : Session) : Prop where
  identifiers : ∀ r ∈ s.references, Definition.IsIdentifier r.token
  target : s.target.dirty = false
  clean : ∀ f ∈ s.resources, f.dirty = false
  assigned : s.report.assigned = []
  written : s.report.written = []
  kinds : ∀ i ∈ s.report.issues, i.kind = .readFailure ∨ i.kind = .conflictingReference

theorem Collected.addIssues (h : s.Collected) {issues : List Issue}
    (hi : ∀ i ∈ issues, i.kind = .readFailure ∨ i.kind = .conflictingReference) :
    (s.addIssues issues).Collected := by
  refine ⟨h.identifiers, h.target, h.clean, h.assigned, h.written, ?_⟩
  intro i hmem
  exact (List.mem_append.mp hmem).elim (h.kinds i) (hi i)

theorem Collected.record (h : s.Collected) {r : Reference}
    (hr : Definition.IsIdentifier r.token) : (s.record r).Collected := by
  rcases record_cases s r with ⟨hfirst, heq⟩ | ⟨first, -, heq⟩
  · rw [heq]
    refine ⟨?_, h.target, h.clean, h.assigned, h.written, h.kinds⟩
    intro r' hr'
    rcases List.mem_append.mp hr' with hr' | hr'
    · exact h.identifiers r' hr'
    · exact List.mem_singleton.mp hr' ▸ hr
  · rw [heq]
    refine h.addIssues fun i hi => Or.inr ?_
    obtain ⟨_, _, _, -, -, -, -, rfl⟩ := conflict?_eq_some_iff.mp (Option.mem_toList.mp hi)
    rfl

theorem Collected.takeResource (h : s.Collected) (t : FileTree) (p : Path) :
    (s.takeResource t p).Collected := by
  unfold Session.takeResource
  split
  · exact h
  · split
    · refine ⟨h.identifiers, h.target, ?_, h.assigned, h.written, h.kinds⟩
      intro f hf
      rcases List.mem_append.mp hf with hf | hf
      · exact h.clean f hf
      · exact List.mem_singleton.mp hf ▸ rfl
    · exact h.addIssues fun i hi => Or.inl (List.mem_singleton.mp hi ▸ rfl)

theorem Collected.takeForm (h : s.Collected) (t : FileTree) (p : Path) :
    (s.takeForm t p).Collected := by
  unfold Session.takeForm
  split
  · next content _ =>
    have hcounted : Collected { s with formCount := s.formCount + 1 } :=
      ⟨h.identifiers, h.target, h.clean, h.assigned, h.written, h.kinds⟩
    refine List.foldlRecOn _ _ hcounted ?_
    intro a ha r hr
    exact Collected.record ha (Reference.isIdentifier_of_mem_all hr)
  · exact h.addIssues fun i hi => Or.inl (List.mem_singleton.mp hi ▸ rfl)

theorem Collected.visit (h : s.Collected) (t : FileTree) (root : Path) (x : Found) :
    (s.visit t root x).Collected := by
  unfold Session.visit
  cases x with
  | unlisted dir fault => exact h.addIssues fun i hi => Or.inl (List.mem_singleton.mp hi ▸ rfl)
  | file p =>
    dsimp only
    split
    · exact h.takeResource t p
    · exact h.takeForm t p
    · exact h

theorem collected_start (t : FileTree) (o : Options) : (start t o).Collected := by
  unfold start
  dsimp only
  split
  · exact ⟨nofun, rfl, nofun, rfl, rfl, nofun⟩
  · exact ⟨nofun, rfl, nofun, rfl, rfl, nofun⟩
  · exact ⟨nofun, rfl, nofun, rfl, rfl, fun i hi => Or.inl (List.mem_singleton.mp hi ▸ rfl)⟩

theorem collected_scanned (h : scanned t o = .ok s) : s.Collected :=
  scanned_induction (collected_start t o) (fun x _ _ hs => hs.visit t _ x) h

end Session

end FirmwareIds
