import FirmwareIds.Proofs.Resource.Shortening
import FirmwareIds.Proofs.Session.Collecting
import FirmwareIds.Proofs.Session.Warning

/-!
# Steps in any order

The steps of a session may be taken in any order and as often as one likes, on trees that change in
between, and some of them fail. What is kept throughout is what writing relies on (`Coherent`): behind the
list of codes there are lines that were put there, and nothing else has changed in it; a resource file is
as it was read, or it is dirty and shorter. One step keeps that (`Coherent.take`), so a row of steps does
(`Coherent.foldl`), and a file is dirty exactly if its text is not what was read
(`dirty_iff_changed_after_steps`).
-/

namespace FirmwareIds

open FileTree Definition

/-- The resource file that is read where a walk comes to it, if the session does not take it for the list
of codes. -/
def Found.opened (t : FileTree) (s : Session) : Found → List OpenFile
  | .unlisted .. => []
  | .file p =>
    match FileKind.ofPath? p with
    | some .resource =>
      if s.leadsToTarget t p then []
      else (t.loadText p).toOption.toList.map fun content => ⟨p, content, false⟩
    | _ => []

namespace Session

variable {t : FileTree} {o : Options} {s s' s₀ : Session} {fs : List OpenFile}

/-- A step of a session. -/
inductive Step where
  | scan (t : FileTree) (root : Path) (excluded : List Path)
  | record (r : Reference)
  | strip
  | index
  | validate (update : Bool)
  | allocate (lead? : Option Text)

/-- Takes a step. A scan that fails takes nothing in; what is left when there are too few codes,
`assignQueue` says. -/
def take (s : Session) : Step → Session
  | .scan t root excluded =>
    match s.scan t root excluded with
    | .ok s' => s'
    | .error _ => s
  | .record r => s.record r
  | .strip => s.strip
  | .index => s.index
  | .validate update => s.validate update
  | .allocate lead? => (s.assignQueue lead?).1

/-- The resource files that a step reads, as they are read, for a session that knows where the list of
codes is. -/
def Step.opened (s : Session) : Step → List OpenFile
  | .scan t root excluded =>
    match t.walk root excluded with
    | .ok found => found.flatMap (Found.opened t s)
    | .error _ => []
  | _ => []

theorem take_scan (s : Session) (t : FileTree) (root : Path) (excluded : List Path) :
    s.take (.scan t root excluded) =
      match t.walk root excluded with
      | .ok found => found.foldl (visit t root) s
      | .error _ => s := by
  show (match s.scan t root excluded with | .ok s' => s' | .error _ => s) = _
  unfold scan
  cases t.walk root excluded <;> rfl

/-! ## What one step does to the issues -/

theorem adds_take (step : Step) : Adds fun s => s.take step := by
  cases step with
  | scan t root excluded =>
    simp only [take_scan]
    cases t.walk root excluded with
    | error e => exact adds_id
    | ok found => exact adds_foldl fun x _ => adds_visit t root x
  | record r => exact adds_record r
  | strip => exact adds_of_keep (fun _ => rfl) fun _ _ => rfl
  | index => exact adds_of_keep (fun _ => rfl) fun _ _ => rfl
  | validate update => exact adds_validate update
  | allocate lead? =>
    refine adds_of_keep (fun s => ?_) fun s issues =>
      congrArg Prod.fst (s.assignQueue_withIssues issues lead?)
    show (s.assignQueue lead?).1.report.issues = s.report.issues
    rcases s.assignQueue_cases lead? with ⟨_, -, heq⟩ | ⟨-, heq⟩
    · rw [heq]
    · rw [heq]
      rfl

/-! ## What one step does to the files -/

/-- The file `f`, which was read as `g`, is as it was read, or it is dirty and shorter. -/
structure Edited (g f : OpenFile) : Prop where
  path : f.path = g.path
  encoding : f.content.encoding = g.content.encoding
  text : f.dirty = false ∧ f.content.text = g.content.text ∨
    f.dirty = true ∧ f.content.text.length < g.content.text.length

theorem Edited.strip {f g : OpenFile} (h : Edited g f) : Edited g f.strip.file := by
  refine ⟨h.path, h.encoding, ?_⟩
  rcases f.strip_cases with hsame | ⟨hdirty, hshorter⟩
  · rw [hsame]
    exact h.text
  · refine Or.inr ⟨hdirty, ?_⟩
    rcases h.text with ⟨-, htext⟩ | ⟨-, hlength⟩
    · exact htext ▸ hshorter
    · exact Nat.lt_trans hshorter hlength

theorem Edited.dirty_iff {f g : OpenFile} (h : Edited g f) :
    f.dirty = true ↔ f.content.text ≠ g.content.text := by
  rcases h.text with ⟨hclean, htext⟩ | ⟨hdirty, hlength⟩
  · rw [hclean, htext]
    simp
  · refine ⟨fun _ hsame => ?_, fun _ => hdirty⟩
    rw [hsame] at hlength
    exact Nat.lt_irrefl _ hlength

/-- What steps make of a session that was opened as `s₀` and the resource files that they read. -/
structure Coherent (s₀ : Session) (fs : List OpenFile) (s : Session) : Prop where
  targetKey : s.targetKey? = s₀.targetKey?
  target : ∃ lines : List Text, (∀ line ∈ lines, declarationWord <+: line) ∧
    lines.length = s.report.movedDefinitions + s.report.assigned.length ∧
    s.target = s₀.target.append lines
  resources : List.Forall₂ Edited fs s.resources

theorem coherent_start (t : FileTree) (o : Options) : Coherent (start t o) [] (start t o) where
  targetKey := rfl
  target := by
    refine ⟨[], nofun, ?_, rfl⟩
    unfold start
    dsimp only
    split <;> rfl
  resources := by
    rw [start_resources]
    exact .nil

/-- A step that touches none of this. -/
theorem Coherent.of_same (h : Coherent s₀ fs s) (htargetKey : s'.targetKey? = s.targetKey?)
    (htarget : s'.target = s.target) (hresources : s'.resources = s.resources)
    (hmoved : s'.report.movedDefinitions = s.report.movedDefinitions)
    (hassigned : s'.report.assigned = s.report.assigned) : Coherent s₀ fs s' where
  targetKey := htargetKey.trans h.targetKey
  target := by rw [htarget, hmoved, hassigned]; exact h.target
  resources := hresources ▸ h.resources

/-- A step that reads no resource file. -/
theorem Coherent.append_nil (h : Coherent s₀ fs s) : Coherent s₀ (fs ++ []) s := by
  rwa [List.append_nil]

theorem Coherent.leadsToTarget (h : Coherent s₀ fs s) (t : FileTree) (p : Path) :
    s.leadsToTarget t p = s₀.leadsToTarget t p := by
  obtain ⟨lines, -, -, htarget⟩ := h.target
  unfold Session.leadsToTarget
  rw [h.targetKey, htarget, OpenFile.path_append]

theorem Coherent.record (h : Coherent s₀ fs s) (r : Reference) :
    Coherent s₀ fs (s.record r) := by
  rcases record_cases s r with ⟨_, heq⟩ | ⟨_, -, heq⟩ <;>
    rw [heq] <;> exact h.of_same rfl rfl rfl rfl rfl

theorem Coherent.visit (h : Coherent s₀ fs s) (t : FileTree) (root : Path) (x : Found) :
    Coherent s₀ (fs ++ x.opened t s₀) (s.visit t root x) := by
  have hissues : ∀ issues, Coherent s₀ (fs ++ []) (s.addIssues issues) := fun issues =>
    Coherent.append_nil (h.of_same rfl rfl rfl rfl rfl)
  unfold Session.visit Found.opened
  cases x with
  | unlisted dir fault => exact hissues _
  | file p =>
    dsimp only
    cases FileKind.ofPath? p with
    | none => exact h.append_nil
    | some kind =>
      cases kind with
      | resource =>
        dsimp only
        unfold takeResource
        rw [h.leadsToTarget]
        split
        · exact h.append_nil
        · cases t.loadText p with
          | error e => exact hissues _
          | ok content =>
            have hread : Edited ⟨p, content, false⟩ ⟨p, content, false⟩ :=
              ⟨rfl, rfl, Or.inl ⟨rfl, rfl⟩⟩
            exact ⟨h.targetKey, h.target, List.rel_append h.resources (.cons hread .nil)⟩
      | form =>
        dsimp only
        unfold takeForm
        cases t.loadText p with
        | error e => exact hissues _
        | ok content =>
          refine Coherent.append_nil (List.foldlRecOn _ _ ?_ fun s' hs' r _ => hs'.record r)
          exact h.of_same rfl rfl rfl rfl rfl

theorem Coherent.foldl_visit (h : Coherent s₀ fs s) (t : FileTree) (root : Path)
    (found : List Found) : Coherent s₀ (fs ++ found.flatMap (Found.opened t s₀))
      (found.foldl (Session.visit t root) s) := by
  induction found generalizing s fs with
  | nil => rwa [List.flatMap_nil, List.append_nil]
  | cons x found ih =>
    rw [List.flatMap_cons, ← List.append_assoc]
    exact ih (h.visit t root x)

theorem Coherent.strip (h : Coherent s₀ fs s) : Coherent s₀ fs s.strip := by
  have hstrip := s.strip_eq
  obtain ⟨lines, hlines, hlength, htarget⟩ := h.target
  refine ⟨h.targetKey, ⟨lines ++ s.movedLines, fun line hline => ?_, ?_, ?_⟩, ?_⟩
  · exact (List.mem_append.mp hline).elim (hlines line) prefix_of_mem_movedLines
  · rw [hstrip.moved, List.length_append, hlength]
    exact Nat.add_right_comm ..
  · rw [hstrip.target, List.map_nil, OpenFile.append_nil, htarget, OpenFile.append_append]
  · rw [hstrip.resources]
    exact List.forall₂_map_right_iff.mpr (h.resources.imp fun _ _ => Edited.strip)

theorem Coherent.assignQueue (h : Coherent s₀ fs s) (lead? : Option Text) :
    Coherent s₀ fs (s.assignQueue lead?).1 := by
  rcases s.assignQueue_cases lead? with ⟨_, -, heq⟩ | ⟨-, heq⟩
  · rw [heq]
    exact h
  · rw [heq]
    generalize newDefinitions (s.leadFor lead?) s.nextCode s.queue = new
    obtain ⟨lines, hlines, hlength, htarget⟩ := h.target
    refine ⟨h.targetKey, ⟨lines ++ new.map Definition.line, fun line hline => ?_, ?_, ?_⟩,
      h.resources⟩
    · exact (List.mem_append.mp hline).elim (hlines line) prefix_of_mem_lines
    · simp [withNew, hlength, Nat.add_assoc]
    · rw [withNew, htarget, OpenFile.append_append]

theorem Coherent.take (h : Coherent s₀ fs s) (step : Step) :
    Coherent s₀ (fs ++ step.opened s₀) (s.take step) := by
  cases step with
  | scan t root excluded =>
    rw [take_scan]
    show Coherent s₀ (fs ++ match t.walk root excluded with | .ok _ => _ | .error _ => _) _
    cases t.walk root excluded with
    | error e => exact h.append_nil
    | ok found => exact h.foldl_visit t root found
  | record r => exact (h.record r).append_nil
  | strip => exact h.strip.append_nil
  | index => exact Coherent.append_nil (h.of_same rfl rfl rfl rfl rfl)
  | validate update => exact Coherent.append_nil (h.of_same rfl rfl rfl rfl rfl)
  | allocate lead? => exact (h.assignQueue lead?).append_nil

/-! ## Rows of steps -/

theorem Coherent.foldl (h : Coherent s₀ fs s) (steps : List Step) :
    Coherent s₀ (fs ++ steps.flatMap (Step.opened s₀)) (steps.foldl Session.take s) := by
  induction steps generalizing s fs with
  | nil => rwa [List.flatMap_nil, List.append_nil]
  | cons step steps ih =>
    rw [List.flatMap_cons, ← List.append_assoc]
    exact ih (h.take step)

/-- Issues are added behind the others, and an issue that fails the run stays. -/
theorem issues_prefix_foldl (s : Session) (steps : List Step) :
    s.report.issues <+: (steps.foldl take s).report.issues := by
  obtain ⟨new, hnew, -⟩ := adds_foldl (fun step _ => adds_take step) (l := steps) s
  exact ⟨new, hnew.symm⟩

theorem hasFatal_foldl (steps : List Step) (h : s.hasFatal = true) :
    (steps.foldl take s).hasFatal = true := by
  obtain ⟨i, hi, hfails⟩ : ∃ i ∈ s.report.issues, i.fails = true := by
    simpa [hasFatal, Report.succeeds] using h
  have hi' := (s.issues_prefix_foldl steps).subset hi
  have : ∃ i ∈ (steps.foldl take s).report.issues, i.fails = true := ⟨i, hi', hfails⟩
  simpa [hasFatal, Report.succeeds] using this

/-- Whatever steps a session has taken, the list of codes holds what was read of it and, behind that, lines
that define a code each; it is dirty if that is anything. Each resource file is dirty if and only if its
text is not what was read. No encoding has changed. Whatever steps are taken then, the issues stay in
their order, with new ones behind them, and so does a fatal one. -/
theorem dirty_iff_changed_after_steps (t : FileTree) (o : Options) (steps more : List Step) :
    let s₀ := start t o
    let s := steps.foldl take s₀
    let s' := more.foldl take s
    (∃ (lines : List Text) (suffix : Text), (∀ line ∈ lines, declarationWord <+: line) ∧
      lines.length = s.report.movedDefinitions + s.report.assigned.length ∧
      s.target.content.text = lines.foldl append s₀.target.content.text ∧
      s.target.content.text = s₀.target.content.text ++ suffix ∧
      (s.target.dirty = true ↔ suffix ≠ [])) ∧
    s.target.path = s₀.target.path ∧
    s.target.content.encoding = s₀.target.content.encoding ∧
    List.Forall₂ (fun (read f : OpenFile) => f.path = read.path ∧
      f.content.encoding = read.content.encoding ∧
      (f.dirty = true ↔ f.content.text ≠ read.content.text))
      (steps.flatMap (Step.opened s₀)) s.resources ∧
    s.report.issues <+: s'.report.issues ∧ (s.hasFatal = true → s'.hasFatal = true) := by
  intro s₀ s s'
  have hcoherent : Coherent s₀ (steps.flatMap (Step.opened s₀)) s := by
    have h := (coherent_start t o).foldl steps
    rwa [List.nil_append] at h
  obtain ⟨lines, hlines, hlength, htarget⟩ := hcoherent.target
  have hclean : s₀.target.dirty = false := (collected_start t o).target
  obtain ⟨suffix, htext, -, hsuffix⟩ := foldl_append_eq hlines s₀.target.content.text
  refine ⟨⟨lines, suffix, hlines, hlength, ?_, ?_, ?_⟩, ?_, ?_, ?_, s.issues_prefix_foldl more,
    hasFatal_foldl more⟩
  · rw [htarget, OpenFile.text_append]
  · rw [htarget, OpenFile.text_append, htext]
  · rw [htarget, OpenFile.dirty_append, hclean]
    cases lines with
    | nil =>
      obtain rfl : suffix = [] := List.append_right_eq_self.mp htext.symm
      simp
    | cons line lines => simpa using hsuffix (List.cons_ne_nil _ _)
  · rw [htarget, OpenFile.path_append]
  · rw [htarget, OpenFile.encoding_append]
  · exact hcoherent.resources.imp fun _ _ h => ⟨h.path, h.encoding, h.dirty_iff⟩

end Session

end FirmwareIds
