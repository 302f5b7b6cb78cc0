import FirmwareIds.Proofs.Session.Keeping

/-!
# Issues beside a run

What a run does does not depend on which issues there are. No step of it asks for them but the one that
asks whether an issue fails the run; every other does the same whatever they are, and adds some of its own
(`Adds`). So of two sessions that differ by warnings only (`Warned`), both take every step alike, and the
warnings stay all that they differ by.
-/

namespace FirmwareIds

open FileTree

namespace Session

variable {x : FileTree} {o : Options} {s s' : Session} {extra : List Issue}

/-! ## Sessions with other issues -/

/-- The session with other issues in its report. -/
def withIssues (s : Session) (issues : List Issue) : Session :=
  { s with report := { s.report with issues := issues } }

/-- A step that does the same whatever issues there are, and adds some to them. -/
def Adds (step : Session → Session) : Prop :=
  ∀ s, ∃ new, (step s).report.issues = s.report.issues ++ new ∧
    ∀ issues, step (s.withIssues issues) = (step s).withIssues (issues ++ new)

theorem adds_id : Adds id := fun s => ⟨[], (List.append_nil _).symm, fun issues => by
  rw [List.append_nil]
  rfl⟩

theorem Adds.comp {step next : Session → Session} (h : Adds step) (hnext : Adds next) :
    Adds fun s => next (step s) := by
  intro s
  obtain ⟨new, hnew, hstep⟩ := h s
  obtain ⟨more, hmore, hnext⟩ := hnext (step s)
  refine ⟨new ++ more, by rw [hmore, hnew, List.append_assoc], fun issues => ?_⟩
  show next (step (s.withIssues issues)) = _
  rw [hstep, hnext, List.append_assoc]

theorem adds_foldl {α : Type} {step : Session → α → Session} {l : List α}
    (h : ∀ a ∈ l, Adds fun s => step s a) : Adds fun s => l.foldl step s := by
  induction l with
  | nil => exact adds_id
  | cons a l ih =>
    exact (h a (List.mem_cons_self ..)).comp (ih fun b hb => h b (List.mem_cons_of_mem _ hb))

theorem adds_addIssues (new : List Issue) : Adds fun s => s.addIssues new :=
  fun _ => ⟨new, rfl, fun _ => rfl⟩

/-- A step that does not touch the issues. -/
theorem adds_of_keep {step : Session → Session}
    (h : ∀ s, (step s).report.issues = s.report.issues)
    (hsame : ∀ s issues, step (s.withIssues issues) = (step s).withIssues issues) : Adds step :=
  fun s => ⟨[], by rw [h, List.append_nil], fun issues => by rw [hsame, List.append_nil]⟩

theorem adds_record (r : Reference) : Adds fun s => s.record r := by
  intro s
  show ∃ new, (s.record r).report.issues = s.report.issues ++ new ∧
    ∀ issues, (s.withIssues issues).record r = (s.record r).withIssues (issues ++ new)
  have hsame : ∀ issues, (s.withIssues issues).reference? r.token = s.reference? r.token :=
    fun _ => rfl
  rcases record_cases s r with ⟨hfirst, heq⟩ | ⟨first, hfirst, heq⟩
  · rw [heq]
    refine ⟨[], (List.append_nil _).symm, fun issues => ?_⟩
    rw [record_of_none ((hsame issues).trans hfirst), List.append_nil]
    rfl
  · rw [heq]
    refine ⟨_, rfl, fun issues => ?_⟩
    rw [record_of_some ((hsame issues).trans hfirst)]
    rfl

theorem adds_takeForm (t : FileTree) (p : Path) : Adds fun s => s.takeForm t p := by
  unfold takeForm
  cases t.loadText p with
  | error e => exact adds_addIssues _
  | ok content =>
    have hcount : Adds fun s => { s with formCount := s.formCount + 1 } :=
      adds_of_keep (fun _ => rfl) fun _ _ => rfl
    exact hcount.comp (adds_foldl fun r _ => adds_record r)

theorem adds_takeResource (t : FileTree) (p : Path) : Adds fun s => s.takeResource t p := by
  intro s
  show ∃ new, (s.takeResource t p).report.issues = s.report.issues ++ new ∧
    ∀ issues, (s.withIssues issues).takeResource t p = (s.takeResource t p).withIssues (issues ++ new)
  have hleads : ∀ issues, (s.withIssues issues).leadsToTarget t p = s.leadsToTarget t p :=
    fun _ => rfl
  unfold takeResource
  simp only [hleads]
  split
  · exact adds_id s
  · cases t.loadText p with
    | error e => exact adds_addIssues _ s
    | ok content => exact ⟨[], (List.append_nil _).symm, fun issues => by rw [List.append_nil]; rfl⟩

theorem adds_visit (t : FileTree) (root : Path) (x : Found) : Adds fun s => s.visit t root x := by
  unfold visit
  cases x with
  | unlisted dir fault => exact adds_addIssues _
  | file p =>
    dsimp only
    split
    · exact adds_takeResource t p
    · exact adds_takeForm t p
    · exact adds_id

theorem adds_validate (update : Bool) : Adds fun s => s.validate update :=
  fun _ => ⟨_, rfl, fun _ => rfl⟩

theorem assignQueue_withIssues (s : Session) (issues : List Issue) (lead? : Option Text) :
    (s.withIssues issues).assignQueue lead? =
      ((s.assignQueue lead?).1.withIssues issues, (s.assignQueue lead?).2) := by
  have hspace : (s.withIssues issues).queue[codeSpace - (s.withIssues issues).nextCode]? =
      s.queue[codeSpace - s.nextCode]? := rfl
  rw [assignQueue_eq, assignQueue_eq, hspace]
  cases s.queue[codeSpace - s.nextCode]? with
  | some token => rfl
  | none => rfl

theorem adds_allocateOrReport (lead? : Option Text) : Adds fun s => s.allocateOrReport lead? := by
  intro s
  show ∃ new, (s.allocateOrReport lead?).report.issues = s.report.issues ++ new ∧
    ∀ issues, (s.withIssues issues).allocateOrReport lead? =
      (s.allocateOrReport lead?).withIssues (issues ++ new)
  have hsame := fun issues => s.assignQueue_withIssues issues lead?
  unfold allocateOrReport
  simp only [hsame]
  rcases s.assignQueue_cases lead? with ⟨token, -, heq⟩ | ⟨-, heq⟩
  · rw [heq]
    exact adds_addIssues _ s
  · rw [heq]
    exact ⟨[], (List.append_nil _).symm, fun issues => by rw [List.append_nil]⟩

/-- The files are written alike whatever issues there are. -/
theorem flush_withIssues (saving : Saving) (x : FileTree) (s : Session) :
    ∃ new, (s.flush saving x).2.report.issues = s.report.issues ++ new ∧ ∀ issues,
      (s.withIssues issues).flush saving x =
        ((s.flush saving x).1, (s.flush saving x).2.withIssues (issues ++ new)) := by
  obtain ⟨u, written, new, -, heq⟩ := flushEach_eq_noted (fun _ => saving) x s
  rw [show s.flush saving x = (u, s.noted written new) from heq s (.refl s)]
  exact ⟨new, rfl, fun issues => heq (s.withIssues issues) ⟨rfl, rfl, rfl, rfl⟩⟩

theorem adds_flush (saving : Saving) (x : FileTree) : Adds fun s => (s.flush saving x).2 := by
  intro s
  obtain ⟨new, hnew, hsame⟩ := s.flush_withIssues saving x
  exact ⟨new, hnew, fun issues => congrArg Prod.snd (hsame issues)⟩

/-! ## Sessions that differ by warnings -/

/-- The session `s` has the issues of `s'` and, put in between, those of `extra`. Beyond that they are the
same. -/
def Warned (extra : List Issue) (s s' : Session) : Prop :=
  ∃ issues, s = s'.withIssues issues ∧ s'.report.issues.Sublist issues ∧
    issues.Perm (s'.report.issues ++ extra)

theorem Warned.refl (s : Session) : Warned [] s s :=
  ⟨s.report.issues, rfl, List.Sublist.refl _, by rw [List.append_nil]⟩

/-- Both sessions take a step that only adds issues. -/
theorem Warned.step (h : Warned extra s s') {step : Session → Session} (hadds : Adds step) :
    Warned extra (step s) (step s') := by
  obtain ⟨issues, rfl, hsublist, hperm⟩ := h
  obtain ⟨new, hnew, hstep⟩ := hadds s'
  refine ⟨issues ++ new, hstep issues, ?_, ?_⟩
  · rw [hnew]
    exact hsublist.append_right new
  · rw [hnew, List.append_assoc]
    refine (hperm.append_right new).trans ?_
    rw [List.append_assoc]
    exact List.perm_append_comm.append_left _

/-- The one session has one issue more. -/
theorem Warned.warn (h : Warned extra s s') (i : Issue) :
    Warned (extra ++ [i]) (s.addIssues [i]) s' := by
  obtain ⟨issues, rfl, hsublist, hperm⟩ := h
  refine ⟨issues ++ [i], rfl, hsublist.trans (List.sublist_append_left ..), ?_⟩
  rw [← List.append_assoc]
  exact hperm.append_right [i]

/-- Warnings do not fail a run. -/
theorem Warned.hasFatal_eq (h : Warned extra s s') (hwarn : ∀ i ∈ extra, i.fails = false) :
    s.hasFatal = s'.hasFatal := by
  obtain ⟨issues, rfl, -, hperm⟩ := h
  have hnone : extra.any Issue.fails = false := List.any_eq_false.mpr fun i hi => by
    rw [hwarn i hi]
    exact Bool.false_ne_true
  show (!(!issues.any Issue.fails)) = !(!s'.report.issues.any Issue.fails)
  rw [hperm.any_eq, List.any_append, hnone, Bool.or_false]

theorem Warned.settle (h : Warned extra s s') (hwarn : ∀ i ∈ extra, i.fails = false)
    (o : Options) : Warned extra (s.settle o) (s'.settle o) := by
  have hprepared : Warned extra (s.prepared o) (s'.prepared o) := by
    unfold prepared
    split
    · exact h.step (adds_of_keep (fun _ => rfl) fun _ _ => rfl)
    · exact h
  have hindex : Adds index := adds_of_keep (fun _ => rfl) fun _ _ => rfl
  have hchecked : Warned extra (s.checked o) (s'.checked o) :=
    (hprepared.step hindex).step (adds_validate o.update)
  have hsettle : ∀ s : Session, s.settle o =
      if o.update && !(s.checked o).hasFatal then (s.checked o).allocateOrReport o.lead
      else s.checked o := fun _ => rfl
  rw [hsettle, hsettle, hchecked.hasFatal_eq hwarn]
  split
  · exact hchecked.step (adds_allocateOrReport o.lead)
  · exact hchecked

/-- The same is written. -/
theorem Warned.flush (h : Warned extra s s') (saving : Saving) (x : FileTree) :
    (s.flush saving x).1 = (s'.flush saving x).1 ∧
      Warned extra (s.flush saving x).2 (s'.flush saving x).2 := by
  have hwarned := h.step (adds_flush saving x)
  refine ⟨?_, hwarned⟩
  obtain ⟨issues, rfl, -⟩ := h
  obtain ⟨new, -, hsame⟩ := s'.flush_withIssues saving x
  rw [hsame]

end Session

end FirmwareIds
