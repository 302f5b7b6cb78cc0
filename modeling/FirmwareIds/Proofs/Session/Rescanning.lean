import FirmwareIds.Proofs.FileTree.Widening
import FirmwareIds.Proofs.Form.References
import FirmwareIds.Proofs.Session.Scanning

/-!
# Scanning once more

When the list of codes was written, the same roots are scanned again. The second scan takes in the same
resource files and references as the first one, and no issue of its own fails the run
(`scanned_again`): what it finds besides is the list of codes, which it passes over by whatever path it
comes to it, or reads as a form source that refers to no more strings than before.

Both scans are followed step by step. `Alike` is what relates their sessions.
-/

namespace FirmwareIds.Session

open FileTree

variable {t u : FileTree} {place : Key} {s s' s₁ s₁' : Session} {p : Path} {dir : Key} {name : Text}

/-! ## Reading what was found -/

theorem loadText_of_fault {fault : Fault} (hp : p.fault? = some fault) :
    t.loadText p = .error (.file p fault) := by
  unfold loadText readFile
  rw [locate_of_fault hp]

theorem loadText_of_foundAt (h : t.FoundAt p dir name) (hp : p.fault? = none) {bytes : List UInt8}
    (hfile : t.get? (dir ++ [name]) = some (.file bytes)) :
    t.loadText p = match TextContent.decode? bytes with
      | some content => .ok content
      | none => .error (.file p .notText) := by
  have hread : t.readFile p = .ok bytes := readFile_eq_ok_iff.mpr ⟨_, h.locate_eq hp, hfile⟩
  unfold loadText
  cases hdecode : TextContent.decode? bytes with
  | none => simp [hread, hdecode]
  | some content => simp [hread, hdecode]

/-- From `t` to `u` the list of codes was written at `place`, and as a form source it refers to the
same strings as before. -/
structure Refreshed (t u : FileTree) (place : Key) : Prop where
  sound : t.Sound
  placed : t.Placed u place
  text : ∃ bytes content, u.get? place = some (.file bytes) ∧
    TextContent.decode? bytes = some content ∧
    (t.get? place = none ∧ (∀ p, Reference.all content.text p = []) ∨
      ∃ bytes' content', t.get? place = some (.file bytes') ∧
        TextContent.decode? bytes' = some content' ∧
        ∀ p, Reference.all content.text p = Reference.all content'.text p)

/-- A path that does not lead to the list of codes is read as before. -/
theorem Refreshed.loadText_eq (h : Refreshed t u place) (hfound : t.FoundAt p dir name)
    (hother : ¬ (p.fault? = none ∧ dir ++ [name] = place)) : u.loadText p = t.loadText p := by
  cases hp : p.fault? with
  | some fault => rw [loadText_of_fault hp, loadText_of_fault hp]
  | none =>
    obtain ⟨bytes, hfile⟩ := hfound.file
    rcases h.placed.kept hfile with hsame | ⟨hplace, -⟩
    · rw [loadText_of_foundAt hfound hp hfile,
        loadText_of_foundAt (h.placed.foundAt hfound) hp hsame]
    · exact absurd ⟨hp, hplace⟩ hother

/-- A form source is read in both trees with the same references, or in neither. -/
theorem Refreshed.references_eq (h : Refreshed t u place) (hfound : t.FoundAt p dir name) :
    (∃ e e', t.loadText p = .error e ∧ u.loadText p = .error e') ∨
      ∃ content content', t.loadText p = .ok content ∧ u.loadText p = .ok content' ∧
        Reference.all content'.text p = Reference.all content.text p := by
  by_cases hleads : p.fault? = none ∧ dir ++ [name] = place
  · obtain ⟨hp, rfl⟩ := hleads
    obtain ⟨bytes, content, hfile, hdecode, ⟨hnone, -⟩ | ⟨bytes', content', hfile', hdecode', hall⟩⟩ :=
      h.text
    · obtain ⟨bytes', hfile'⟩ := hfound.file
      rw [hnone] at hfile'
      cases hfile'
    · refine Or.inr ⟨content', content, ?_, ?_, hall p⟩
      · rw [loadText_of_foundAt hfound hp hfile', hdecode']
      · rw [loadText_of_foundAt (h.placed.foundAt hfound) hp hfile, hdecode]
  · rw [h.loadText_eq hfound hleads]
    cases hload : t.loadText p with
    | error e => exact Or.inl ⟨e, e, rfl, rfl⟩
    | ok content => exact Or.inr ⟨content, content, rfl, rfl, rfl⟩

/-! ## Sessions that have scanned the same -/

/-- The session `s'` has scanned in `u` what `s` has scanned in `t`, and knows as `s` does which paths
lead to the list of codes. -/
structure Alike (t u : FileTree) (place : Key) (s s' : Session) : Prop where
  strictness : s'.strictness = s.strictness
  resources : s'.resources = s.resources
  references : s'.references = s.references
  issues : ∀ i ∈ s'.report.issues, i ∈ s.report.issues ∨ i.fails = false
  leads : ∀ p dir name, t.FoundAt p dir name →
    (s.leadsToTarget t p = true ↔ p.fault? = none ∧ dir ++ [name] = place)
  leads' : ∀ p dir name, u.FoundAt p dir name →
    (s'.leadsToTarget u p = true ↔ p.fault? = none ∧ dir ++ [name] = place)

/-- Steps of a scan change no more than what they gather. -/
theorem Alike.gather (h : Alike t u place s s') (hs : Gathers t s s₁) (hs' : Gathers u s' s₁')
    (hresources : s₁'.resources = s₁.resources) (hreferences : s₁'.references = s₁.references)
    (hissues : ∀ i ∈ s₁'.report.issues, i ∈ s₁.report.issues ∨ i.fails = false) :
    Alike t u place s₁ s₁' where
  strictness := by rw [hs'.strictness, hs.strictness, h.strictness]
  resources := hresources
  references := hreferences
  issues := hissues
  leads p dir name hp := by rw [hs.leadsToTarget, h.leads p dir name hp]
  leads' p dir name hp := by rw [hs'.leadsToTarget, h.leads' p dir name hp]

theorem Alike.addIssues (h : Alike t u place s s') (issues : List Issue) :
    Alike t u place (s.addIssues issues) (s'.addIssues issues) := by
  refine h.gather (gathers_addIssues ..) (gathers_addIssues ..) h.resources h.references ?_
  intro i hi
  rcases List.mem_append.mp hi with hi | hi
  · exact (h.issues i hi).imp_left (List.mem_append_left _)
  · exact Or.inl (List.mem_append_right _ hi)

/-- The second scan may have warnings of its own. -/
theorem Alike.addWarning (h : Alike t u place s s') {i : Issue} (hi : i.fails = false) :
    Alike t u place s (s'.addIssues [i]) := by
  refine h.gather (.refl t s) (gathers_addIssues ..) h.resources h.references ?_
  intro j hj
  rcases List.mem_append.mp hj with hj | hj
  · exact h.issues j hj
  · exact Or.inr (List.mem_singleton.mp hj ▸ hi)

theorem Alike.record (h : Alike t u place s s') (r : Reference) :
    Alike t u place (s.record r) (s'.record r) := by
  have hsame : s'.reference? r.token = s.reference? r.token := by
    rw [reference?_eq_find?, reference?_eq_find?, h.references]
  rcases record_cases s r with ⟨hfirst, heq⟩ | ⟨first, hfirst, heq⟩
  · rw [heq, record_of_none (hsame.trans hfirst)]
    refine h.gather ⟨rfl, rfl, rfl, rfl, rfl, fun _ => Or.inl⟩
      ⟨rfl, rfl, rfl, rfl, rfl, fun _ => Or.inl⟩ h.resources ?_ h.issues
    exact congrArg (· ++ [r]) h.references
  · rw [heq, record_of_some (hsame.trans hfirst), h.strictness]
    exact h.addIssues _

theorem Alike.takeForm (h : Alike t u place s s') (hr : Refreshed t u place)
    (hfound : t.FoundAt p dir name) : Alike t u place (s.takeForm t p) (s'.takeForm u p) := by
  unfold Session.takeForm
  rcases hr.references_eq hfound with ⟨e, e', ht, hu⟩ | ⟨content, content', ht, hu, hall⟩
  · rw [ht, hu]
    exact h.addIssues _
  · rw [ht, hu]
    dsimp only
    rw [hall]
    have hcount : Alike t u place { s with formCount := s.formCount + 1 }
        { s' with formCount := s'.formCount + 1 } :=
      h.gather ⟨rfl, rfl, rfl, rfl, rfl, fun _ => Or.inl⟩
        ⟨rfl, rfl, rfl, rfl, rfl, fun _ => Or.inl⟩ h.resources h.references h.issues
    generalize { s with formCount := s.formCount + 1 } = a at hcount
    generalize { s' with formCount := s'.formCount + 1 } = b at hcount
    induction Reference.all content.text p generalizing a b with
    | nil => exact hcount
    | cons r refs ih => exact ih _ _ (hcount.record r)

theorem Alike.takeResource (h : Alike t u place s s') (hr : Refreshed t u place)
    (hkind : FileKind.ofPath? p = some .resource) (hfound : t.FoundAt p dir name) :
    Alike t u place (s.takeResource t p) (s'.takeResource u p) := by
  have hleads := h.leads p dir name hfound
  have hleads' := h.leads' p dir name (hr.placed.foundAt hfound)
  by_cases hother : p.fault? = none ∧ dir ++ [name] = place
  · -- this is the list of codes, for both
    unfold Session.takeResource
    rw [if_pos (hleads.mpr hother), if_pos (hleads'.mpr hother)]
    exact h
  · have hgather := gathers_takeResource hkind ⟨dir, name, hfound⟩ s
    have hgather' := gathers_takeResource hkind ⟨dir, name, hr.placed.foundAt hfound⟩ s'
    unfold Session.takeResource at hgather hgather' ⊢
    rw [if_neg fun hl => hother (hleads.mp hl)] at hgather ⊢
    rw [if_neg fun hl => hother (hleads'.mp hl)] at hgather' ⊢
    rw [hr.loadText_eq hfound hother] at hgather' ⊢
    cases hload : t.loadText p with
    | error e => exact h.addIssues _
    | ok content =>
      rw [hload] at hgather hgather'
      refine h.gather hgather hgather' ?_ h.references h.issues
      show s'.resources ++ _ = s.resources ++ _
      rw [h.resources]

/-- Both scans take in what both walks find. -/
theorem Alike.visit (h : Alike t u place s s') (hr : Refreshed t u place) (root : Path) {x : Found}
    (hx : ∀ p, x = .file p → ∃ dir name, t.FoundAt p dir name) :
    Alike t u place (s.visit t root x) (s'.visit u root x) := by
  unfold Session.visit
  cases x with
  | unlisted dir fault => exact h.addIssues _
  | file p =>
    obtain ⟨dir, name, hfound⟩ := hx p rfl
    dsimp only
    split
    · next hkind => exact h.takeResource hr hkind hfound
    · exact h.takeForm hr hfound
    · exact h

/-- What only the second walk finds is passed over, or a warning. -/
theorem Alike.visit_new (h : Alike t u place s s') (hr : Refreshed t u place) (root : Path)
    {x : Found} (hx : t.NewIn u x) : Alike t u place s (s'.visit u root x) := by
  unfold Session.visit
  cases x with
  | unlisted dir fault => exact h.addWarning rfl
  | file p =>
    obtain ⟨dir, name, hfound, hnone⟩ := hx p rfl
    obtain ⟨bytes, hfile⟩ := hfound.file
    have hplace : dir ++ [name] = place := by
      apply Decidable.byContradiction
      intro hne
      rcases hr.placed.elsewhere _ hne with hsame | ⟨-, hdir⟩
      · rw [hfile, hnone] at hsame
        cases hsame
      · rw [hfile] at hdir
        cases hdir
    have hleads := h.leads' p dir name hfound
    dsimp only
    cases hp : p.fault? with
    | some fault =>
      -- a path that is no way at all cannot be read
      have hload : u.loadText p = .error (.file p fault) := loadText_of_fault hp
      have hother : ¬ s'.leadsToTarget u p = true := fun hl => by
        rw [hp] at hleads
        cases (hleads.mp hl).1
      split
      · unfold Session.takeResource
        rw [if_neg hother, hload]
        exact h.addWarning rfl
      · unfold Session.takeForm
        rw [hload]
        exact h.addWarning rfl
      · exact h
    | none =>
      -- it is the new list of codes, which refers to nothing as a form source
      split
      · unfold Session.takeResource
        rw [if_pos (hleads.mpr ⟨hp, hplace⟩)]
        exact h
      · obtain ⟨bytes', content, hfile', hdecode, ⟨-, hall⟩ | ⟨_, _, hold, -⟩⟩ := hr.text
        · unfold Session.takeForm
          rw [loadText_of_foundAt hfound hp (hplace ▸ hfile'), hdecode]
          dsimp only
          rw [hall]
          exact h.gather (.refl t s) ⟨rfl, rfl, rfl, rfl, rfl, fun _ => Or.inl⟩
            h.resources h.references h.issues
        · rw [hplace, hold] at hnone
          cases hnone
      · exact h

theorem Alike.scan (h : Alike t u place s s') (hr : Refreshed t u place) {root : Path}
    {excluded : List Path} (hscan : s.scan t root excluded = .ok s₁) :
    ∃ s₁', s'.scan u root excluded = .ok s₁' ∧ Alike t u place s₁ s₁' := by
  obtain ⟨found, hwalk, rfl⟩ := scan_eq_ok_iff.mp hscan
  obtain ⟨found', hwalk', hwidened⟩ := hr.placed.walk hr.sound hwalk
  refine ⟨_, scan_eq_ok_iff.mpr ⟨found', hwalk', rfl⟩,
    hwidened.foldl ?_ (fun a b x hx hab => hab.visit_new hr root hx) h⟩
  rintro a b x _ hx rfl hab
  exact hab.visit hr root fun p hp => foundAt_of_mem_walk hr.sound hwalk (hp ▸ hx)

theorem Alike.scanAll (h : Alike t u place s s') (hr : Refreshed t u place)
    {excluded roots : List Path} (hscan : s.scanAll t excluded roots = .ok s₁) :
    ∃ s₁', s'.scanAll u excluded roots = .ok s₁' ∧ Alike t u place s₁ s₁' := by
  induction roots generalizing s s' with
  | nil =>
    obtain rfl := Except.ok.inj hscan
    exact ⟨s', rfl, h⟩
  | cons root roots ih =>
    obtain ⟨a, hroot, hscan⟩ := scanAll_cons_eq_ok_iff.mp hscan
    obtain ⟨b, hroot', hab⟩ := h.scan hr hroot
    obtain ⟨s₁', hscan', halike⟩ := ih hab hscan
    exact ⟨s₁', scanAll_cons_eq_ok_iff.mpr ⟨b, hroot', hscan'⟩, halike⟩

/-- If the sessions start alike, the second scan takes in what the first one did. -/
theorem scanned_again {o : Options} (hr : Refreshed t u place)
    (hstart : Alike t u place (start t o) (start u o)) (h : scanned t o = .ok s) :
    ∃ s', scanned u o = .ok s' ∧ Alike t u place s s' := by
  obtain ⟨hroots, excluded, hexcluded, hall⟩ := scanned_eq_ok_iff.mp h
  obtain ⟨s', hall', halike⟩ := hstart.scanAll hr hall
  exact ⟨s', scanned_eq_ok_iff.mpr ⟨hroots, excluded, hexcluded, hall'⟩, halike⟩

end FirmwareIds.Session
