import FirmwareIds.Proofs.Session.Writing

/-!
# Writing a session

The list of codes is written first, in one of three ways (`saveTarget_cases`), and then the resource files
are written or kept back (`flushEach_cases`). What is written depends on these files alone
(`flushEach_eq_noted`), and all that it changes in the session is what the report says of it
(`NotesWrites`).
-/

namespace FirmwareIds.Session

variable {t u v : FileTree} {s s' : Session}

/-! ## The ways of writing -/

/-- The three ways of the list of codes: it did not change, it must not be written, or it is saved,
which may fail. -/
theorem saveTarget_cases (saving : Saving) (t : FileTree) (s : Session) :
    s.target.dirty = false ∧ s.saveTarget saving t = (t, s, true) ∨
      s.target.dirty = true ∧ s.mayWrite = false ∧
        s.saveTarget saving t = (t, s.addIssues [.targetLeft s.target.path], false) ∨
      s.target.dirty = true ∧ s.mayWrite = true ∧ ∃ v e?,
        saving t s.target.path s.target.content = (v, e?) ∧
        s.saveTarget saving t = (v, s.saved s.target.path e?, e?.isNone) := by
  unfold saveTarget
  cases hdirty : s.target.dirty
  · exact Or.inl ⟨rfl, rfl⟩
  · cases hmay : s.mayWrite
    · exact Or.inr (Or.inl ⟨rfl, rfl, rfl⟩)
    · exact Or.inr (Or.inr ⟨rfl, rfl, _, _, rfl, rfl⟩)

/-- Behind the list of codes the resource files are kept back if it took no definition that was moved,
and are written otherwise. -/
theorem flushEach_cases {savings : Nat → Saving} {s₁ : Session} {saved : Bool}
    (h : s.saveTarget (savings 0) t = (v, s₁, saved)) :
    saved = false ∧ s₁.report.movedDefinitions ≠ 0 ∧
        s.flushEach savings t = (v, s₁.addIssues
          ((s₁.resources.filter OpenFile.dirty).map fun f => .keptBack f.path)) ∨
      (saved = true ∨ s₁.report.movedDefinitions = 0) ∧ s.flushEach savings t =
        ((s₁.resources.filter OpenFile.dirty).zipIdx 1).foldl
          (fun (t, s) (f, i) => s.save (savings i) t f) (v, s₁) := by
  unfold flushEach
  rw [h]
  dsimp only
  split
  · next hkept =>
    simp only [Bool.and_eq_true, Bool.not_eq_true', decide_eq_true_eq] at hkept
    exact Or.inl ⟨hkept.1, hkept.2, rfl⟩
  · next hkept =>
    refine Or.inr ⟨?_, rfl⟩
    simp only [Bool.and_eq_true, Bool.not_eq_true', decide_eq_true_eq, not_and, not_not] at hkept
    cases saved
    · exact Or.inr (hkept rfl)
    · exact Or.inl rfl

theorem filter_dirty_eq_nil {fs : List OpenFile} (h : ∀ f ∈ fs, f.dirty = false) :
    fs.filter OpenFile.dirty = [] :=
  List.filter_eq_nil_iff.mpr fun f hf => by rw [h f hf]; exact Bool.false_ne_true

theorem saveTarget_of_clean (saving : Saving) (t : FileTree) (h : s.target.dirty = false) :
    s.saveTarget saving t = (t, s, true) := by
  unfold saveTarget
  rw [h]
  rfl

/-- If no file changed, none is written. -/
theorem flushEach_of_clean {savings : Nat → Saving} (htarget : s.target.dirty = false)
    (hclean : ∀ f ∈ s.resources, f.dirty = false) : s.flushEach savings t = (t, s) := by
  rcases flushEach_cases (saveTarget_of_clean (savings 0) t htarget) with ⟨hunsaved, -⟩ | ⟨-, heq⟩
  · cases hunsaved
  · rw [heq, filter_dirty_eq_nil hclean]
    rfl

/-! ## What writing asks for -/

/-- The session with more files written and more issues. -/
def noted (s : Session) (written : List Path) (issues : List Issue) : Session :=
  { s with
    report := { s.report with
      written := s.report.written ++ written
      issues := s.report.issues ++ issues } }

/-- The sessions have the same to write. -/
structure WritesAlike (s s' : Session) : Prop where
  target : s'.target = s.target
  mayWrite : s'.mayWrite = s.mayWrite
  resources : s'.resources = s.resources
  moved : s'.report.movedDefinitions = s.report.movedDefinitions

theorem WritesAlike.refl (s : Session) : WritesAlike s s := ⟨rfl, rfl, rfl, rfl⟩

theorem noted_nil (s : Session) : s.noted [] [] = s := by
  simp [noted]

theorem noted_noted (s : Session) (written written' : List Path) (issues issues' : List Issue) :
    (s.noted written issues).noted written' issues' =
      s.noted (written ++ written') (issues ++ issues') := by
  simp [noted]

theorem addIssues_eq_noted (s : Session) (issues : List Issue) :
    s.addIssues issues = s.noted [] issues := by
  simp [addIssues, Report.addIssues, noted]

/-- How a save went is taken down alike in every session. -/
theorem saved_eq_noted (p : Path) (e? : Option Error) : ∃ written issues,
    (∀ i ∈ issues, i.kind = .notSaved) ∧ ∀ s, Session.saved s p e? = s.noted written issues := by
  cases e? with
  | none => exact ⟨[p], [], nofun, fun s => by simp [Session.saved, Report.addWritten, noted]⟩
  | some e =>
    exact ⟨[], _, fun i hi => List.mem_singleton.mp hi ▸ rfl, fun s => s.addIssues_eq_noted _⟩

/-- A row of saves asks nothing of the session. -/
theorem foldl_save_eq_noted (savings : Nat → Saving) (changed : List OpenFile) (n : Nat)
    (t : FileTree) : ∃ u written issues, (∀ i ∈ issues, i.kind = .notSaved) ∧ ∀ s : Session,
      (changed.zipIdx n).foldl (fun (t, s) (f, i) => s.save (savings i) t f) (t, s) =
        (u, s.noted written issues) := by
  induction changed generalizing n t with
  | nil =>
    refine ⟨t, [], [], nofun, fun s => ?_⟩
    rw [noted_nil]
    rfl
  | cons f changed ih =>
    obtain ⟨v, e?, hv⟩ : ∃ v e?, savings n t f.path f.content = (v, e?) := ⟨_, _, rfl⟩
    obtain ⟨written, issues, hkinds, hsaved⟩ := saved_eq_noted f.path e?
    obtain ⟨u, written', issues', hkinds', hrow⟩ := ih (n + 1) v
    refine ⟨u, written ++ written', issues ++ issues', fun i hi => ?_, fun s => ?_⟩
    · exact (List.mem_append.mp hi).elim (hkinds i) (hkinds' i)
    · rw [foldl_save_cons hv, hrow, hsaved, noted_noted]

/-- The list of codes is saved alike if it is the same and may be written as well. -/
theorem saveTarget_eq_noted (saving : Saving) (t : FileTree) (s : Session) :
    ∃ u written issues saved, (∀ i ∈ issues, i.kind = .notSaved) ∧ ∀ s', WritesAlike s s' →
      s'.saveTarget saving t = (u, s'.noted written issues, saved) := by
  rcases saveTarget_cases saving t s with ⟨hclean, -⟩ | ⟨hdirty, hmay, -⟩ |
    ⟨hdirty, hmay, v, e?, hv, -⟩
  · refine ⟨t, [], [], true, nofun, fun s' h => ?_⟩
    rw [saveTarget, h.target, hclean, noted_nil]
    rfl
  · refine ⟨t, [], [.targetLeft s.target.path], false, fun i hi => List.mem_singleton.mp hi ▸ rfl,
      fun s' h => ?_⟩
    rw [saveTarget, h.target, hdirty, h.mayWrite, hmay, addIssues_eq_noted]
    rfl
  · obtain ⟨written, issues, hkinds, hsaved⟩ := saved_eq_noted s.target.path e?
    refine ⟨v, written, issues, e?.isNone, hkinds, fun s' h => ?_⟩
    rw [saveTarget, h.target, hdirty, h.mayWrite, hmay, hv]
    exact congrArg (fun s => (v, s, e?.isNone)) (hsaved s')

/-- Writing asks for nothing else, and changes nothing in a session but what its report says of
writing. -/
theorem flushEach_eq_noted (savings : Nat → Saving) (t : FileTree) (s : Session) :
    ∃ u written issues, (∀ i ∈ issues, i.kind = .notSaved) ∧ ∀ s', WritesAlike s s' →
      s'.flushEach savings t = (u, s'.noted written issues) := by
  obtain ⟨v, written, issues, saved, hkinds, hsave⟩ := saveTarget_eq_noted (savings 0) t s
  obtain ⟨u, written', issues', hkinds', hrow⟩ :=
    foldl_save_eq_noted savings (s.resources.filter OpenFile.dirty) 1 v
  have happend : ∀ {more : List Issue}, (∀ i ∈ more, i.kind = .notSaved) →
      ∀ i ∈ issues ++ more, i.kind = .notSaved := fun hmore i hi =>
    (List.mem_append.mp hi).elim (hkinds i) (hmore i)
  by_cases hkept : saved = false ∧ s.report.movedDefinitions ≠ 0
  · refine ⟨v, written, issues ++ (s.resources.filter OpenFile.dirty).map fun f => .keptBack f.path,
      happend fun i hi => ?_, fun s' h => ?_⟩
    · obtain ⟨f, -, rfl⟩ := List.mem_map.mp hi
      rfl
    · rcases flushEach_cases (hsave s' h) with ⟨-, -, heq⟩ | ⟨hwrite, -⟩
      · rw [heq, show (s'.noted written issues).resources = _ from h.resources,
          addIssues_eq_noted, noted_noted, List.append_nil]
      · rw [show (s'.noted written issues).report.movedDefinitions = _ from h.moved, hkept.1] at hwrite
        exact absurd hwrite (not_or_intro Bool.false_ne_true hkept.2)
  · refine ⟨u, written ++ written', issues ++ issues', happend hkinds', fun s' h => ?_⟩
    rcases flushEach_cases (hsave s' h) with ⟨hunsaved, hmoved, -⟩ | ⟨-, heq⟩
    · exact absurd ⟨hunsaved, h.moved ▸ hmoved⟩ hkept
    · rw [heq, show (s'.noted written issues).resources = _ from h.resources, hrow, noted_noted]

/-! ## What writing takes down -/

/-- From `s` to `s'` the report took down files that were written, or were not as they should be. -/
def NotesWrites (s s' : Session) : Prop :=
  ∃ written issues, (∀ i ∈ issues, i.kind = .notSaved) ∧ s' = s.noted written issues

theorem NotesWrites.issues_subset (h : NotesWrites s s') : s.report.issues ⊆ s'.report.issues := by
  obtain ⟨written, issues, -, rfl⟩ := h
  exact List.subset_append_left ..

theorem NotesWrites.written_subset (h : NotesWrites s s') :
    s.report.written ⊆ s'.report.written := by
  obtain ⟨written, issues, -, rfl⟩ := h
  exact List.subset_append_left ..

theorem NotesWrites.resources (h : NotesWrites s s') : s'.resources = s.resources := by
  obtain ⟨written, issues, -, rfl⟩ := h
  rfl

theorem NotesWrites.moved (h : NotesWrites s s') :
    s'.report.movedDefinitions = s.report.movedDefinitions := by
  obtain ⟨written, issues, -, rfl⟩ := h
  rfl

theorem notesWrites_foldl (savings : Nat → Saving) (changed : List OpenFile) (n : Nat)
    (t : FileTree) (s : Session) : NotesWrites s
      ((changed.zipIdx n).foldl (fun (t, s) (f, i) => s.save (savings i) t f) (t, s)).2 := by
  obtain ⟨_, written, issues, hkinds, heq⟩ := foldl_save_eq_noted savings changed n t
  rw [heq]
  exact ⟨written, issues, hkinds, rfl⟩

theorem notesWrites_saveTarget (saving : Saving) (t : FileTree) (s : Session) :
    NotesWrites s (s.saveTarget saving t).2.1 := by
  obtain ⟨_, written, issues, _, hkinds, heq⟩ := saveTarget_eq_noted saving t s
  rw [heq s (.refl s)]
  exact ⟨written, issues, hkinds, rfl⟩

theorem notesWrites_flushEach (savings : Nat → Saving) (t : FileTree) (s : Session) :
    NotesWrites s (s.flushEach savings t).2 := by
  obtain ⟨_, written, issues, hkinds, heq⟩ := flushEach_eq_noted savings t s
  rw [heq s (.refl s)]
  exact ⟨written, issues, hkinds, rfl⟩

/-- The report has an issue for a file that is not as it should be. -/
def HasUnsaved (s : Session) : Prop := ∃ i ∈ s.report.issues, i.kind = .notSaved

theorem NotesWrites.hasUnsaved (h : NotesWrites s s') (hs : s.HasUnsaved) : s'.HasUnsaved :=
  hs.imp fun _ hi => ⟨h.issues_subset hi.1, hi.2⟩

/-- If the list of codes is not as it should be, that is an issue. -/
theorem hasUnsaved_of_saveTarget {saving : Saving} {s₁ : Session}
    (h : s.saveTarget saving t = (v, s₁, false)) : s₁.HasUnsaved := by
  rcases saveTarget_cases saving t s with ⟨-, heq⟩ | ⟨-, -, heq⟩ | ⟨-, -, w, e?, -, heq⟩
  · rw [heq] at h
    cases h
  · rw [heq] at h
    cases h
    exact ⟨_, List.mem_append_right _ (List.mem_singleton_self _), rfl⟩
  · rw [heq] at h
    cases e? with
    | none => cases h
    | some error =>
      cases h
      exact ⟨_, List.mem_append_right _ (List.mem_singleton_self _), rfl⟩

end FirmwareIds.Session
