import FirmwareIds.Proofs.Session.Assigning
import FirmwareIds.Proofs.Session.Reaching

/-!
# What an update run does

Codes are assigned only if nothing fatal was found, and then to every string that was referred to and
has none; if there are not enough of them, that is reported and no code is assigned. Then the files are
written: whatever was reported before, each file that was changed is saved, or it is taken down why not
(`update_spec`). The exception are the files of a run that has moved definitions to a list of codes that
cannot be saved. They are kept back, so that the files which the definitions were taken from still have
them. That is the purpose, and it would be met by keeping back these files alone; but the guard asks only
whether the run has moved anything, so a file that has lost foreign blocks and no definition is kept back
with the others.
-/

namespace FirmwareIds

open FileTree

namespace Session

variable {t u v : FileTree} {o : Options} {s s' s₁ : Session} {savings : Nat → Saving} {r : Report}

/-! ## Saving the changed files -/

/-- From `t` to `u` the files are saved one after another, in the ways `savings` from the `n`th on, and
the report says of each whether it was written. -/
inductive SavesAll (savings : Nat → Saving) (r : Report) :
    Nat → FileTree → List OpenFile → FileTree → Prop
  | nil (n : Nat) (t : FileTree) : SavesAll savings r n t [] t
  | written {n : Nat} {t v u : FileTree} {f : OpenFile} {fs : List OpenFile}
    (hsave : savings n t f.path f.content = (v, none)) (hnoted : f.path ∈ r.written)
    (hrest : SavesAll savings r (n + 1) v fs u) : SavesAll savings r n t (f :: fs) u
  | unwritten {n : Nat} {t v u : FileTree} {f : OpenFile} {fs : List OpenFile} {e : Error}
    (hsave : savings n t f.path f.content = (v, some e))
    (hnoted : .unwritten f.path e ∈ r.issues)
    (hrest : SavesAll savings r (n + 1) v fs u) : SavesAll savings r n t (f :: fs) u

theorem savesAll_foldl {changed : List OpenFile} {n : Nat}
    (h : (changed.zipIdx n).foldl (fun (t, s) (f, i) => s.save (savings i) t f) (t, s) = (u, s')) :
    SavesAll savings s'.report n t changed u := by
  induction changed generalizing n t s with
  | nil =>
    cases h
    exact .nil n _
  | cons f changed ih =>
    obtain ⟨v, e?, hv⟩ : ∃ v e?, savings n t f.path f.content = (v, e?) := ⟨_, _, rfl⟩
    rw [foldl_save_cons hv] at h
    -- what was taken down of this save stays to the end
    have hnotes := notesWrites_foldl savings changed (n + 1) v (s.saved f.path e?)
    rw [h] at hnotes
    cases e? with
    | none =>
      have hnoted : f.path ∈ (s.saved f.path none).report.written :=
        List.mem_append_right _ (List.mem_singleton_self _)
      exact .written hv (hnotes.written_subset hnoted) (ih h)
    | some e =>
      have hnoted : .unwritten f.path e ∈ (s.saved f.path (some e)).report.issues :=
        List.mem_append_right _ (List.mem_singleton_self _)
      exact .unwritten hv (hnotes.issues_subset hnoted) (ih h)

/-- What becomes of the changed files when the session is written, after the list of codes. -/
theorem savesAll_or_keptBack (h : s.flushEach savings t = (u, s')) : ∃ v s₁ saved,
    s.saveTarget (savings 0) t = (v, s₁, saved) ∧
      if saved = false ∧ s.report.movedDefinitions ≠ 0 then
        u = v ∧ ∀ f ∈ s.resources, f.dirty = true → .keptBack f.path ∈ s'.report.issues
      else SavesAll savings s'.report 1 v (s.resources.filter OpenFile.dirty) u := by
  obtain ⟨v, s₁, saved, hsave⟩ : ∃ v s₁ saved, s.saveTarget (savings 0) t = (v, s₁, saved) :=
    ⟨_, _, _, rfl⟩
  have htarget := notesWrites_saveTarget (savings 0) t s
  rw [hsave] at htarget
  obtain ⟨written, issues, -, rfl⟩ := htarget
  refine ⟨v, _, saved, hsave, ?_⟩
  rcases flushEach_cases hsave with ⟨hsaved, hmoved, heq⟩ | ⟨hno, heq⟩
  · rw [if_pos ⟨hsaved, hmoved⟩]
    rw [heq] at h
    cases h
    refine ⟨rfl, fun f hf hdirty => List.mem_append_right _ ?_⟩
    exact List.mem_map.mpr ⟨f, List.mem_filter.mpr ⟨hf, hdirty⟩, rfl⟩
  · have hnot : ¬ (saved = false ∧ s.report.movedDefinitions ≠ 0) := by
      rintro ⟨hsaved, hmoved⟩
      rcases hno with h | h
      · rw [hsaved] at h
        cases h
      · exact hmoved h
    rw [if_neg hnot]
    exact savesAll_foldl (heq ▸ h)

/-! ## Assigning codes -/

theorem Collected.prepared (h : s.Collected) (o : Options) :
    (s.prepared o).report.assigned = [] ∧ (s.prepared o).report.issues = s.report.issues ∧
      (s.prepared o).references = s.references := by
  unfold Session.prepared
  split
  · exact ⟨h.assigned, rfl, rfl⟩
  · exact ⟨h.assigned, rfl, rfl⟩

/-- The kinds of issues that are found before codes are assigned. -/
theorem Collected.kinds_checked (h : s.Collected) {i : Issue}
    (hi : i ∈ (s.checked o).report.issues) : i.kind ≠ .codesExhausted ∧ i.kind ≠ .notSaved := by
  have hissues : (s.checked o).report.issues =
      (s.prepared o).report.issues ++ (s.prepared o).index.findings o.update := rfl
  rw [hissues, (h.prepared o).2.1] at hi
  rcases List.mem_append.mp hi with hi | hi
  · rcases h.kinds i hi with hkind | hkind <;> rw [hkind] <;> decide
  · have hfinds := finds_findings (s.prepared o).index o.update
    exact ⟨hfinds.kind_ne hi (by decide), hfinds.kind_ne hi (by decide)⟩

/-- If codes were assigned, nothing fatal was found before, and every string that was referred to and has
no code got one. -/
theorem Collected.assigned_settle (h : s.Collected) (hsome : (s.settle o).report.assigned ≠ []) :
    o.update = true ∧ (∀ i ∈ (s.settle o).report.issues, i.fails = false) ∧
      (s.settle o).report.assigned.map Assignment.identifier =
        (s.references.map Reference.token).filter fun token =>
          !(s.prepared o).index.hasCode token := by
  obtain ⟨hassigned, -, hreferences⟩ := h.prepared o
  rcases s.settle_cases o with ⟨-, heq⟩ | ⟨hupdate, hsucceeds, ⟨_, -, heq⟩ | ⟨hspace, heq⟩⟩
  · rw [heq] at hsome
    exact absurd hassigned hsome
  · rw [heq] at hsome
    exact absurd hassigned hsome
  · -- the whole queue got codes, and in it is what has none
    have hassigns := assignsAll_withNew (s.checked o) ((s.checked o).leadFor o.lead) hspace
    have hqueue : (s.checked o).queue =
        if o.update then ((s.prepared o).references.map Reference.token).filter fun token =>
          !(s.prepared o).index.hasCode token else [] := rfl
    rw [heq, assignable, hassigns.session]
    refine ⟨hupdate, succeeds_iff.mp hsucceeds, ?_⟩
    show ((s.prepared o).report.assigned ++ _).map Assignment.identifier = _
    rw [hassigned, List.nil_append, hassigns.identifiers, hqueue, if_pos hupdate, hreferences]

/-- If there are too few codes, none is assigned. -/
theorem Collected.settle_of_exhausted (h : s.Collected) {i : Issue}
    (hi : i ∈ (s.settle o).report.issues) (hkind : i.kind = .codesExhausted) :
    (s.settle o).report.assigned = [] ∧ (s.settle o).target = (s.prepared o).target := by
  -- no check finds an issue of this kind, so it was added when codes were to be assigned
  have hearly : i ∉ (s.checked o).report.issues := fun hi => (h.kinds_checked hi).1 hkind
  rcases s.settle_cases o with ⟨-, heq⟩ | ⟨-, -, ⟨_, -, heq⟩ | ⟨-, heq⟩⟩
  · rw [heq] at hi
    exact absurd hi hearly
  · rw [heq]
    exact ⟨(h.prepared o).1, (s.sameFiles_checked o).target⟩
  · rw [heq] at hi
    exact absurd hi hearly

/-- What an update run does, whatever saves fail. -/
theorem update_spec (hrun : runEach savings t o = .ok (u, r)) :
    ∃ s excluded, scanned t o = .ok s ∧ o.exclusions = .ok excluded ∧
      (∀ f ∈ s.resources, f.dirty = false) ∧
      (r.assigned ≠ [] → o.update = true ∧ (∀ i ∈ r.issues, i.fails = true → i.kind = .notSaved) ∧
        r.assigned.map Assignment.identifier =
          ((o.roots.flatMap (t.references excluded)).map Reference.token).eraseDups.filter
            fun token => !(s.prepared o).index.hasCode token) ∧
      ((∃ i ∈ r.issues, i.kind = .codesExhausted) →
        r.assigned = [] ∧ (s.settle o).target = (s.prepared o).target) ∧
      ∃ v s₁ saved, (s.settle o).saveTarget (savings 0) t = (v, s₁, saved) ∧
        if saved = false ∧ (s.prepared o).report.movedDefinitions ≠ 0 then
          u = v ∧ ∀ f ∈ (s.prepared o).resources, f.dirty = true → .keptBack f.path ∈ r.issues
        else SavesAll savings r 1 v ((s.prepared o).resources.filter OpenFile.dirty) u := by
  obtain ⟨s, s', hscan, hflush, rfl⟩ := runEach_eq_ok_iff.mp hrun
  obtain ⟨excluded, hexcluded, hrecorded⟩ := recorded_scanned hscan
  have hcollected := collected_scanned hscan
  obtain ⟨written, issues, hkinds, hs'⟩ := notesWrites_flushEach savings t (s.settle o)
  rw [hflush] at hs'
  -- the report at the end, from the one before writing
  have hassigned : s'.report.assigned = (s.settle o).report.assigned :=
    congrArg (fun s => s.report.assigned) hs'
  have hissues : s'.report.issues = (s.settle o).report.issues ++ issues :=
    congrArg (fun s => s.report.issues) hs'
  rw [hassigned, hissues]
  refine ⟨s, excluded, hscan, hexcluded, hcollected.clean, ?_, ?_, ?_⟩
  · intro hsome
    obtain ⟨hupdate, hnofails, hidentifiers⟩ := hcollected.assigned_settle hsome
    refine ⟨hupdate, ?_, ?_⟩
    · -- nothing failed before the files were written
      intro i hi hfails
      rcases List.mem_append.mp hi with hi | hi
      · rw [hnofails i hi] at hfails
        cases hfails
      · exact hkinds i hi
    · rw [hidentifiers, hrecorded.tokens]
  · rintro ⟨i, hi, hkind⟩
    rcases List.mem_append.mp hi with hi | hi
    · exact hcollected.settle_of_exhausted hi hkind
    · rw [hkinds i hi] at hkind
      cases hkind
  · obtain ⟨_, hsame, -⟩ := s.sameFiles_settle o
    rw [← hsame.resources, ← hsame.moved, ← hissues]
    exact savesAll_or_keptBack hflush

/-- The highest code is in use below `root`, a question below `forms` needs a code, and `blocker` is no
directory. -/
def noCodeLeft : FileTree :=
  (((oneFile "#string STR_MAX #language uqi \"xffff\"\n").put ["forms".toList] .directory).put
    ["forms".toList, "f.vfr".toList] (.file (Utf8.encode
      "oneof varid = Setup.A,\n  prompt = STRING_TOKEN(STR_NEW),\nendoneof;\n".toList))).put
    ["blocker".toList] (.file [])

/-- A run that strips and assigns codes. -/
def stripAndUpdate (output : String) : Options where
  output := ⟨output.toList⟩
  roots := [⟨"root".toList⟩, ⟨"forms".toList⟩]
  update := true
  strip := true

/-- Where no code is left, none is assigned, and the stripped file is saved. -/
theorem update_noCodeLeft :
    ∃ u r, runEach (fun _ t p content => t.replaceText ['1'] p content) noCodeLeft
        (stripAndUpdate "UqiList.uni") = .ok (u, r) ∧
      (∃ i ∈ r.issues, i.kind = .codesExhausted) ∧ r.assigned = [] ∧
      ⟨"root/a.uni".toList⟩ ∈ r.written := by
  have hexhausts : (runEach (fun _ t p content => t.replaceText ['1'] p content) noCodeLeft
      (stripAndUpdate "UqiList.uni")).toOption.any (fun x =>
        x.2.issues.any (fun i => i.kind = .codesExhausted) &&
          x.2.written.contains ⟨"root/a.uni".toList⟩) = true := by
    decide +kernel
  obtain ⟨u, r, hrun, htest⟩ := exists_of_any hexhausts
  obtain ⟨hissue, hwritten⟩ := Bool.and_eq_true_iff.mp htest
  have hissue : ∃ i ∈ r.issues, i.kind = .codesExhausted := by simpa using hissue
  obtain ⟨s, _, -, -, -, -, hnone, -⟩ := update_spec hrun
  exact ⟨u, r, hrun, hissue, (hnone hissue).1, List.contains_iff_mem.mp hwritten⟩

/-- Where no code is left and the moved definitions cannot be saved either, the stripped file is not
saved, and it is not tried. -/
theorem keptBack_noCodeLeft :
    ∃ s u r, scanned noCodeLeft (stripAndUpdate "blocker/UqiList.uni") = .ok s ∧
      runEach (fun _ t p content => t.replaceText ['1'] p content) noCodeLeft
        (stripAndUpdate "blocker/UqiList.uni") = .ok (u, r) ∧
      (∃ i ∈ r.issues, i.kind = .codesExhausted) ∧
      ∃ f ∈ (s.prepared (stripAndUpdate "blocker/UqiList.uni")).resources, f.dirty = true ∧
        f.path ∉ r.written ∧ ∀ e, Issue.unwritten f.path e ∉ r.issues := by
  have hkeeps : (runEach (fun _ t p content => t.replaceText ['1'] p content) noCodeLeft
      (stripAndUpdate "blocker/UqiList.uni")).toOption.any (fun x =>
        x.2.issues.any (fun i => i.kind = .codesExhausted) && x.2.written.isEmpty &&
          x.2.issues.all fun i => i.message.head? ≠ some 'E' ∨ i.subject ≠ "root/a.uni".toList) =
        true := by
    decide +kernel
  have hstrips : (scanned noCodeLeft (stripAndUpdate "blocker/UqiList.uni")).toOption.any (fun s =>
      (s.prepared (stripAndUpdate "blocker/UqiList.uni")).resources.any fun f =>
        f.dirty && f.path.text == "root/a.uni".toList) = true := by
    decide +kernel
  obtain ⟨u, r, hrun, htest⟩ := exists_of_any hkeeps
  obtain ⟨s, _, hscan, -, -⟩ := runEach_eq_ok_iff.mp hrun
  rw [hscan] at hstrips
  obtain ⟨f, hf, hdirty⟩ := List.any_eq_true.mp hstrips
  simp only [Bool.and_eq_true, beq_iff_eq] at hdirty
  simp only [Bool.and_eq_true, List.any_eq_true, List.all_eq_true, decide_eq_true_eq,
    List.isEmpty_iff] at htest
  obtain ⟨⟨hissue, hwritten⟩, hmessages⟩ := htest
  refine ⟨s, u, r, hscan, hrun, hissue, f, hf, hdirty.1, ?_, ?_⟩
  · rw [hwritten]
    exact List.not_mem_nil
  · -- the message of a failed save begins with an E, which no message about this file does
    intro e he
    rcases hmessages _ he with h | h
    · exact h rfl
    · exact h hdirty.2

end Session

end FirmwareIds
