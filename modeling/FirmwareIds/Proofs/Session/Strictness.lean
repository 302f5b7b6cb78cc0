import FirmwareIds.Proofs.Session.Updating

/-!
# What strictness decides

A conflict is taken down in the middle of a scan, and whether it fails the run decides at the end whether
codes are assigned. In between no step asks for strictness or for conflicts. So every step can be taken
first and the conflicts be forgotten then, or the other way round (`lenient_record`, `lenient_visit` and
so on), up to the question whether anything fatal was found.

What is left to compare is the answer to that question. Conflicts that are warnings do not change it, so
a run with warnings is the run without them and the warnings; and where there is a conflict that fails
the run, no code is assigned (`strictness_grades_conflicts`).
-/

namespace FirmwareIds

open FileTree

/-- The report without the conflicts in it. -/
def Report.withoutConflicts (r : Report) : Report :=
  { r with issues := r.issues.filter fun i => i.kind ≠ .conflictingReference }

/-- The issue as one that fails the run. -/
def Issue.fatal (i : Issue) : Issue := { i with severity := .error }

theorem Report.withoutConflicts_of_none {r : Report} (h : r.ofKind .conflictingReference = []) :
    r.withoutConflicts = r := by
  have hkeep : r.issues.filter (fun i => i.kind ≠ .conflictingReference) = r.issues := by
    refine List.filter_eq_self.mpr fun i hi => ?_
    have := List.filter_eq_nil_iff.mp h i hi
    simpa using this
  unfold withoutConflicts
  rw [hkeep]

/-- Conflicts that do not fail a run do not matter for its success. -/
theorem Report.succeeds_withoutConflicts {r : Report}
    (h : ∀ i ∈ r.ofKind .conflictingReference, i.fails = false) :
    r.withoutConflicts.succeeds = r.succeeds := by
  have hany : r.withoutConflicts.issues.any Issue.fails = r.issues.any Issue.fails := by
    rw [Bool.eq_iff_iff, List.any_eq_true, List.any_eq_true]
    constructor
    · rintro ⟨i, hi, hfails⟩
      exact ⟨i, (List.mem_filter.mp hi).1, hfails⟩
    · rintro ⟨i, hi, hfails⟩
      refine ⟨i, List.mem_filter.mpr ⟨hi, decide_eq_true fun hkind => ?_⟩, hfails⟩
      rw [h i (List.mem_filter.mpr ⟨hi, decide_eq_true hkind⟩)] at hfails
      cases hfails
  unfold succeeds
  rw [hany]

namespace Session

variable {t u : FileTree} {o : Options} {s s' : Session} {rs : List Reference} {x : Strictness}
  {issues : List Issue} {savings : Nat → Saving} {r : Report}

/-! ## Sessions in which conflicts do not count -/

/-- The session as it would be if conflicts did not count. -/
def lenient (s : Session) : Session :=
  { s with strictness := .off, report := s.report.withoutConflicts }

theorem lenient_start (t : FileTree) (o : Options) (x : Strictness) :
    (start t { o with strictness := x }).lenient = start t { o with strictness := .off } := by
  have htarget : ∀ x, Options.target { o with strictness := x } t = o.target t := fun _ => rfl
  unfold start
  simp only [htarget]
  split <;> rfl

theorem lenient_noted (s : Session) (written : List Path)
    (h : ∀ i ∈ issues, i.kind ≠ .conflictingReference) :
    (s.noted written issues).lenient = s.lenient.noted written issues := by
  have hkeep : issues.filter (fun i => i.kind ≠ .conflictingReference) = issues :=
    List.filter_eq_self.mpr fun i hi => decide_eq_true (h i hi)
  unfold lenient noted Report.withoutConflicts
  rw [List.filter_append, hkeep]

theorem lenient_addIssues (s : Session) (h : ∀ i ∈ issues, i.kind ≠ .conflictingReference) :
    (s.addIssues issues).lenient = s.lenient.addIssues issues := by
  rw [addIssues_eq_noted, lenient_noted s [] h, ← addIssues_eq_noted]

theorem lenient_addIssue (s : Session) {i : Issue} (h : i.kind ≠ .conflictingReference) :
    (s.addIssues [i]).lenient = s.lenient.addIssues [i] :=
  s.lenient_addIssues fun _ hj => List.mem_singleton.mp hj ▸ h

/-- A conflict that is found is forgotten again; a conflict that does not count is not found. -/
theorem lenient_record (s : Session) (r : Reference) : (s.record r).lenient = s.lenient.record r := by
  have hsame : s.lenient.reference? r.token = s.reference? r.token := rfl
  rcases record_cases s r with ⟨hfirst, heq⟩ | ⟨first, hfirst, heq⟩
  · rw [heq, record_of_none (hsame.trans hfirst)]
    rfl
  · have hnone : conflict? .off first r = none := by
      refine Option.eq_none_iff_forall_ne_some.mpr fun i hi => ?_
      obtain ⟨severity, _, _, hoff, -⟩ := conflict?_eq_some_iff.mp hi
      cases hoff
    have hfilter : (conflict? s.strictness first r).toList.filter
        (fun i => i.kind ≠ .conflictingReference) = [] := by
      refine List.filter_eq_nil_iff.mpr fun i hi => ?_
      obtain ⟨_, _, _, -, -, -, -, rfl⟩ := conflict?_eq_some_iff.mp (Option.mem_toList.mp hi)
      simp [Issue.conflictingReference]
    rw [heq, record_of_some (hsame.trans hfirst)]
    show _ = s.lenient.addIssues (conflict? .off first r).toList
    unfold lenient addIssues Report.withoutConflicts Report.addIssues
    rw [hnone, List.filter_append, hfilter]
    simp

theorem lenient_takeForm (s : Session) (t : FileTree) (p : Path) :
    (s.takeForm t p).lenient = s.lenient.takeForm t p := by
  unfold takeForm
  cases t.loadText p with
  | error e => exact s.lenient_addIssue nofun
  | ok content =>
    exact (List.foldl_hom lenient fun s r => (s.lenient_record r).symm).symm

theorem lenient_takeResource (s : Session) (t : FileTree) (p : Path) :
    (s.takeResource t p).lenient = s.lenient.takeResource t p := by
  have hleads : s.lenient.leadsToTarget t p = s.leadsToTarget t p := rfl
  unfold takeResource
  rw [hleads]
  split
  · rfl
  · cases t.loadText p with
    | error e => exact s.lenient_addIssue nofun
    | ok content => rfl

theorem lenient_visit (t : FileTree) (root : Path) (s : Session) (x : Found) :
    (s.visit t root x).lenient = s.lenient.visit t root x := by
  unfold visit
  cases x with
  | unlisted dir fault =>
    exact s.lenient_addIssue nofun
  | file p =>
    dsimp only
    split
    · exact s.lenient_takeResource t p
    · exact s.lenient_takeForm t p
    · rfl

theorem lenient_scan (s : Session) (t : FileTree) (root : Path) (excluded : List Path) :
    s.lenient.scan t root excluded = (s.scan t root excluded).map lenient := by
  unfold scan
  cases t.walk root excluded with
  | error e => rfl
  | ok found =>
    exact congrArg Except.ok (List.foldl_hom lenient fun s x => (lenient_visit t root s x).symm)

theorem lenient_scanAll (s : Session) (t : FileTree) (excluded roots : List Path) :
    s.lenient.scanAll t excluded roots = (s.scanAll t excluded roots).map lenient := by
  induction roots generalizing s with
  | nil => rfl
  | cons root roots ih =>
    rw [scanAll_cons, scanAll_cons, lenient_scan]
    cases s.scan t root excluded with
    | error e => rfl
    | ok s₁ => exact ih s₁

/-- Scans of any strictness end alike, and in the same but for conflicts. -/
theorem scanned_off (t : FileTree) (o : Options) (x : Strictness) :
    scanned t { o with strictness := .off } =
      (scanned t { o with strictness := x }).map lenient := by
  unfold scanned
  rw [← lenient_start t o x]
  dsimp only
  cases o.roots.isEmpty with
  | true => rfl
  | false =>
    show (do let excluded ← o.exclusions; _) = Except.map lenient (do let excluded ← o.exclusions; _)
    cases o.exclusions with
    | error e => rfl
    | ok excluded => exact lenient_scanAll _ t excluded o.roots

/-! ## From the scan to the end -/

theorem lenient_checked (s : Session) (o : Options) :
    (s.checked o).lenient = s.lenient.checked o := by
  have hprepared : (s.prepared o).lenient = s.lenient.prepared o := by
    unfold prepared
    split <;> rfl
  unfold checked
  rw [← hprepared]
  generalize s.prepared o = s
  have hkinds : ∀ i ∈ s.index.findings o.update, i.kind ≠ .conflictingReference := fun i hi =>
    (finds_findings s.index o.update).kind_ne hi (by decide)
  exact congrArg (fun a : Session => { a with queue := (s.index.validate o.update).queue })
    (s.index.lenient_addIssues hkinds)

theorem lenient_allocateOrReport (s : Session) (lead? : Option Text) :
    (s.allocateOrReport lead?).lenient = s.lenient.allocateOrReport lead? := by
  have hspace : s.lenient.queue[codeSpace - s.lenient.nextCode]? =
      s.queue[codeSpace - s.nextCode]? := rfl
  unfold allocateOrReport
  rw [assignQueue_eq, assignQueue_eq, hspace]
  cases s.queue[codeSpace - s.nextCode]? with
  | none => rfl
  | some token =>
    exact s.lenient_addIssue nofun

/-- The one place where conflicts may matter: they are among what decides whether codes are assigned. -/
theorem lenient_settle
    (h : ∀ i ∈ (s.checked o).report.ofKind .conflictingReference, i.fails = false) :
    (s.settle o).lenient = s.lenient.settle o := by
  have hsettle : ∀ s : Session, s.settle o =
      if o.update && !(s.checked o).hasFatal then (s.checked o).allocateOrReport o.lead
      else s.checked o := fun _ => rfl
  have hfatal : (s.checked o).lenient.hasFatal = (s.checked o).hasFatal :=
    congrArg (!·) (Report.succeeds_withoutConflicts h)
  rw [hsettle, hsettle, ← lenient_checked, hfatal]
  split
  · exact lenient_allocateOrReport _ o.lead
  · rfl

theorem lenient_flushEach (savings : Nat → Saving) (t : FileTree) (s : Session) :
    s.lenient.flushEach savings t =
      ((s.flushEach savings t).1, (s.flushEach savings t).2.lenient) := by
  obtain ⟨u, written, issues, hkinds, heq⟩ := flushEach_eq_noted savings t s
  rw [heq s (.refl s), heq s.lenient ⟨rfl, rfl, rfl, rfl⟩]
  refine congrArg (u, ·) (s.lenient_noted written fun i hi => ?_).symm
  rw [hkinds i hi]
  decide

/-! ## What becomes of conflicts -/

theorem Recorded.checked (h : s.Recorded rs) (o : Options) : (s.checked o).Recorded rs := by
  have hindex : ∀ {s : Session}, s.Recorded rs → s.index.Recorded rs := fun h =>
    h.of_same rfl rfl (List.append_nil _).symm (List.forall_mem_nil _)
  unfold Session.checked prepared
  split
  · have hstrip : s.strip.Recorded rs :=
      h.of_same rfl rfl (List.append_nil _).symm (List.forall_mem_nil _)
    exact (hindex hstrip).validate o.update
  · exact (hindex h).validate o.update

theorem Recorded.settle (h : s.Recorded rs) (o : Options) : (s.settle o).Recorded rs := by
  have hchecked := h.checked o
  rcases s.settle_cases o with ⟨-, heq⟩ | ⟨-, -, ⟨_, -, heq⟩ | ⟨-, heq⟩⟩
  · rw [heq]
    exact hchecked
  · rw [heq]
    exact hchecked.addIssues fun i hi => by rw [List.mem_singleton.mp hi]; exact nofun
  · rw [heq]
    exact hchecked.of_same rfl rfl (List.append_nil _).symm (List.forall_mem_nil _)

theorem strictness_checked (s : Session) (o : Options) :
    (s.checked o).strictness = s.strictness := by
  unfold checked prepared
  split <;> rfl

theorem strictness_settle (s : Session) (o : Options) :
    (s.settle o).strictness = s.strictness := by
  have hchecked := s.strictness_checked o
  rcases s.settle_cases o with ⟨-, heq⟩ | ⟨-, -, ⟨_, -, heq⟩ | ⟨-, heq⟩⟩ <;> rw [heq] <;>
    exact hchecked

theorem strictness_visit (t : FileTree) (root : Path) (s : Session) (y : Found) :
    (s.visit t root y).strictness = s.strictness := by
  unfold visit takeResource takeForm
  split
  · rfl
  · split
    · split
      · rfl
      · split <;> rfl
    · split
      · exact strictness_foldl_record _ _
      · rfl
    · rfl

theorem strictness_scanned (h : scanned t o = .ok s) : s.strictness = o.strictness :=
  scanned_induction (P := fun s => s.strictness = o.strictness) (start_strictness t o)
    (fun y _ _ hs => (strictness_visit t _ _ y).trans hs) h

/-- A conflict that fails the run is one that is a warning otherwise. -/
theorem conflict?_error (first again : Reference) :
    conflict? .error first again = (conflict? .warn first again).map Issue.fatal := by
  unfold conflict?
  cases first.binding with
  | none => rfl
  | some v =>
    cases again.binding with
    | none => rfl
    | some w =>
      dsimp only
      split <;> rfl

/-! ## Runs -/

/-- The scans of the three runs fail alike, or meet the same references. -/
theorem scanned_alike (t : FileTree) (o : Options) :
    (∃ e, ∀ x, scanned t { o with strictness := x } = .error e) ∨
      ∃ rs, ∀ x, ∃ s, scanned t { o with strictness := x } = .ok s ∧ s.strictness = x ∧
        s.Recorded rs := by
  have hoff := scanned_off t o
  cases hscan : scanned t { o with strictness := .off } with
  | error e => exact Or.inl ⟨e, fun x => map_eq_error_iff.mp ((hoff x).symm.trans hscan)⟩
  | ok s₀ =>
    obtain ⟨excluded, hexcluded, -⟩ := recorded_scanned hscan
    refine Or.inr ⟨o.roots.flatMap (t.references excluded), fun x => ?_⟩
    obtain ⟨s, hscanned, -⟩ := map_eq_ok_iff.mp ((hoff x).symm.trans hscan)
    -- the directories that are left out do not depend on strictness
    obtain ⟨excluded', hexcluded', hrecorded⟩ := recorded_scanned hscanned
    obtain rfl := Except.ok.inj (hexcluded.symm.trans hexcluded')
    exact ⟨s, hscanned, strictness_scanned hscanned, hrecorded⟩

theorem conflicts_checked (hrs : s.Recorded rs) (o : Options) :
    (s.checked o).report.ofKind .conflictingReference =
      s.report.ofKind .conflictingReference := by
  rw [(hrs.checked o).conflicts, hrs.conflicts, strictness_checked]

theorem Recorded.conflicts_mild (h : s.Recorded rs) (hwarn : s.strictness = .warn) :
    ∀ i ∈ s.report.ofKind .conflictingReference, i.fails = false := by
  intro i hi
  rw [h.conflicts, hwarn] at hi
  obtain ⟨_, _, hconflict⟩ := List.mem_filterMap.mp hi
  obtain ⟨_, _, _, hseverity, -, -, -, rfl⟩ := conflict?_eq_some_iff.mp hconflict
  cases hseverity
  rfl

theorem Recorded.conflicts_fatal {s' : Session} (h : s.Recorded rs) (h' : s'.Recorded rs)
    (hwarn : s.strictness = .warn) (herror : s'.strictness = .error) :
    s'.report.ofKind .conflictingReference =
      (s.report.ofKind .conflictingReference).map Issue.fatal := by
  rw [h'.conflicts, h.conflicts, hwarn, herror, List.map_filterMap]
  exact congrArg (List.filterMap · _) (funext fun _ => conflict?_error _ _)

/-- A conflict that fails the run does so before codes are assigned. -/
theorem Recorded.checked_fails (h : s.Recorded rs) (o : Options) {i : Issue}
    (hi : i ∈ s.report.ofKind .conflictingReference) (hfails : i.fails = true) :
    (s.checked o).report.succeeds = false := by
  rw [← conflicts_checked h o] at hi
  refine Bool.eq_false_iff.mpr fun hsucceeds => ?_
  rw [succeeds_iff.mp hsucceeds i (List.mem_filter.mp hi).1] at hfails
  cases hfails

/-- The conflicts of a run are those of its scan. -/
theorem conflicts_runEach (hscan : scanned t o = .ok s) (hrs : s.Recorded rs)
    (hrun : runEach savings t o = .ok (u, r)) :
    r.ofKind .conflictingReference = s.report.ofKind .conflictingReference := by
  obtain ⟨s₁, s', hscan', hflush, rfl⟩ := runEach_eq_ok_iff.mp hrun
  obtain rfl := Except.ok.inj (hscan.symm.trans hscan')
  have hwritten := (hrs.settle o).flushEach savings t
  obtain ⟨_, _, -, heq⟩ := notesWrites_flushEach savings t (s.settle o)
  rw [hflush] at hwritten heq
  have hstrictness : s'.strictness = s.strictness := by
    rw [show s' = _ from heq]
    exact s.strictness_settle o
  rw [hwritten.conflicts, hrs.conflicts, hstrictness]

/-- A run in which no conflict fails is the run in which none counts, and the conflicts. -/
theorem runEach_off (savings : Nat → Saving)
    (hscan : scanned t { o with strictness := x } = .ok s) (hrs : s.Recorded rs)
    (hmild : ∀ i ∈ s.report.ofKind .conflictingReference, i.fails = false) :
    ∃ u r, runEach savings t { o with strictness := x } = .ok (u, r) ∧
      runEach savings t { o with strictness := .off } = .ok (u, r.withoutConflicts) := by
  obtain ⟨u, s', hflush⟩ : ∃ u s', (s.settle o).flushEach savings t = (u, s') := ⟨_, _, rfl⟩
  have hlenient : (s.lenient.settle o).flushEach savings t = (u, s'.lenient) := by
    rw [← lenient_settle ((conflicts_checked hrs o).symm ▸ hmild), lenient_flushEach, hflush]
  refine ⟨u, s'.report, runEach_eq_ok_iff.mpr ⟨s, s', hscan, hflush, rfl⟩,
    runEach_eq_ok_iff.mpr ⟨s.lenient, s'.lenient, ?_, hlenient, rfl⟩⟩
  rw [scanned_off t o x, hscan]
  rfl

/-- A run that has found something fatal before codes are assigned: it writes what it would write if it
was not asked to assign any. -/
theorem runEach_of_fatal (savings : Nat → Saving) (hscan : scanned t o = .ok s)
    (hfatal : (s.checked o).report.succeeds = false) :
    ∃ u r kept, runEach savings t o = .ok (u, r) ∧ r.succeeds = false ∧ r.assigned = [] ∧
      runEach savings t { o with update := false } = .ok (u, kept) := by
  have hsettle : s.settle o = s.checked o := by
    rcases s.settle_cases o with ⟨-, heq⟩ | ⟨-, hsucceeds, -⟩
    · exact heq
    · rw [hfatal] at hsucceeds
      cases hsucceeds
  -- without codes to assign, the same is prepared and has to be written
  obtain ⟨_, hsame, hnone⟩ := s.sameFiles_settle { o with update := false }
  obtain rfl := hnone rfl
  have hbefore := s.sameFiles_checked o
  have halike : WritesAlike (s.checked o) (s.settle { o with update := false }) :=
    ⟨hsame.target.trans hbefore.target.symm, hsame.mayWrite.trans hbefore.mayWrite.symm,
      hsame.resources.trans hbefore.resources.symm, hsame.moved.trans hbefore.moved.symm⟩
  obtain ⟨u, written, issues, -, hwrite⟩ := flushEach_eq_noted savings t (s.checked o)
  have hflush : (s.settle o).flushEach savings t = (u, (s.checked o).noted written issues) := by
    rw [hsettle]
    exact hwrite _ (.refl _)
  refine ⟨u, _, _, runEach_eq_ok_iff.mpr ⟨s, _, hscan, hflush, rfl⟩, ?_,
    ((collected_scanned hscan).prepared o).1,
    runEach_eq_ok_iff.mpr ⟨s, _, hscan, hwrite _ halike, rfl⟩⟩
  show ((s.checked o).report.addIssues issues).succeeds = false
  rw [Report.succeeds_addIssues, hfatal, Bool.false_and]

/-- Whatever the tree and the options, the three runs that differ in strictness fail alike or all come to
an end. Then the run with warnings is the run without them and the warnings. Where the third run finds no
conflict it is that run too, and where it finds one it fails and assigns no code: it leaves the tree that
it leaves if no codes are asked for. -/
theorem strictness_grades_conflicts (savings : Nat → Saving) (t : FileTree) (o : Options) :
    let run x := runEach savings t { o with strictness := x }
    (∃ e, ∀ x, run x = .error e) ∨ ∃ u warned u' failed,
      run .warn = .ok (u, warned) ∧ run .off = .ok (u, warned.withoutConflicts) ∧
      warned.withoutConflicts.succeeds = warned.succeeds ∧ run .error = .ok (u', failed) ∧
      failed.ofKind .conflictingReference =
        (warned.ofKind .conflictingReference).map Issue.fatal ∧
      if failed.ofKind .conflictingReference = [] then u' = u ∧ failed = warned.withoutConflicts
      else failed.succeeds = false ∧ failed.assigned = [] ∧ ∃ kept,
        runEach savings t { o with strictness := .error, update := false } = .ok (u', kept) := by
  intro run
  rcases scanned_alike t o with ⟨e, he⟩ | ⟨rs, hscans⟩
  · refine Or.inl ⟨e, fun x => ?_⟩
    show runEach savings t { o with strictness := x } = .error e
    unfold runEach
    rw [he x]
    rfl
  right
  obtain ⟨s, hscan, hwarn, hrs⟩ := hscans .warn
  obtain ⟨s', hscan', herror, hrs'⟩ := hscans .error
  have hmild := hrs.conflicts_mild hwarn
  have hfatal := hrs.conflicts_fatal hrs' hwarn herror
  obtain ⟨u, warned, hrun, hoff⟩ := runEach_off savings hscan hrs hmild
  have hwarned := conflicts_runEach hscan hrs hrun
  have hsucceeds := Report.succeeds_withoutConflicts (hwarned.symm ▸ hmild)
  by_cases hnone : s'.report.ofKind .conflictingReference = []
  · obtain ⟨u', failed, hrun', hoff'⟩ :=
      runEach_off savings hscan' hrs' (hnone.symm ▸ nofun)
    have hfailed := conflicts_runEach hscan' hrs' hrun'
    refine ⟨u, warned, u', failed, hrun, hoff, hsucceeds, hrun', ?_, ?_⟩
    · rw [hfailed, hwarned, hfatal]
    · rw [if_pos (hfailed.trans hnone)]
      rw [hoff, Report.withoutConflicts_of_none (hfailed.trans hnone)] at hoff'
      cases hoff'
      exact ⟨rfl, rfl⟩
  · obtain ⟨i, hi⟩ := List.exists_mem_of_ne_nil _ hnone
    have hifails : i.fails = true := by
      obtain ⟨j, -, rfl⟩ := List.mem_map.mp (hfatal ▸ hi)
      rfl
    obtain ⟨u', failed, kept, hrun', hfailed, hassigned, hkept⟩ :=
      runEach_of_fatal savings hscan' (hrs'.checked_fails _ hi hifails)
    have hconflicts := conflicts_runEach hscan' hrs' hrun'
    refine ⟨u, warned, u', failed, hrun, hoff, hsucceeds, hrun', ?_, ?_⟩
    · rw [hconflicts, hwarned, hfatal]
    · rw [if_neg fun h => hnone (hconflicts.symm.trans h)]
      exact ⟨hfailed, hassigned, kept, hkept⟩

/-- Two questions with different bindings, below `root`, that refer to one string without a code. -/
def twoQuestions : FileTree :=
  ((bare []).put ["root".toList] .directory).put ["root".toList, "f.vfr".toList]
    (.file (Utf8.encode ("oneof varid = Setup.A,\n  prompt = STRING_TOKEN(STR_A),\nendoneof;\n" ++
      "oneof varid = Setup.B,\n  prompt = STRING_TOKEN(STR_A),\nendoneof;\n").toList))

/-- An update run of `root`. -/
def updateOfRoot (x : Strictness) : Options where
  output := ⟨"UqiList.uni".toList⟩
  roots := [⟨"root".toList⟩]
  update := true
  strictness := x

/-- The run that warns of the conflict assigns a code, and the run that fails for it does not. -/
theorem code_withheld_twoQuestions :
    ∃ u warned u' failed,
      runEach (fun _ t p content => t.replaceText ['1'] p content) twoQuestions
        (updateOfRoot .warn) = .ok (u, warned) ∧
      runEach (fun _ t p content => t.replaceText ['1'] p content) twoQuestions
        (updateOfRoot .error) = .ok (u', failed) ∧
      warned.succeeds = true ∧ warned.assigned ≠ [] ∧
      failed.succeeds = false ∧ failed.assigned = [] := by
  have hwarns : (runEach (fun _ t p content => t.replaceText ['1'] p content) twoQuestions
      (updateOfRoot .warn)).toOption.any (fun x =>
        x.2.succeeds && !x.2.assigned.isEmpty &&
          !(x.2.ofKind .conflictingReference).isEmpty) = true := by
    decide +kernel
  obtain ⟨v, r, hrun, htest⟩ := exists_of_any hwarns
  simp only [Bool.and_eq_true, Bool.not_eq_true', List.isEmpty_eq_false_iff] at htest
  obtain ⟨⟨hsucceeds, hassigned⟩, hconflicts⟩ := htest
  rcases strictness_grades_conflicts (fun _ t p content => t.replaceText ['1'] p content)
    twoQuestions (updateOfRoot .off) with ⟨e, herror⟩ | ⟨u, warned, u', failed, hwarn, -, -, herror,
      hsame, hif⟩
  · exact nomatch hrun.symm.trans (herror .warn)
  · cases hrun.symm.trans hwarn
    have hsome : failed.ofKind .conflictingReference ≠ [] := fun hnone =>
      hconflicts (List.map_eq_nil_iff.mp (hsame.symm.trans hnone))
    rw [if_neg hsome] at hif
    exact ⟨v, r, u', failed, hrun, herror, hsucceeds, hassigned, hif.1, hif.2.1⟩

end Session

end FirmwareIds
