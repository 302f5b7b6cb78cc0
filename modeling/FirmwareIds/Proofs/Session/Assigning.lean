import FirmwareIds.Proofs.Session.Allocating
import FirmwareIds.Proofs.Session.Settling
import FirmwareIds.Proofs.Session.Validating

/-!
# What an update assigns

A session is settled if none of the codes that it knows is given twice and every string that is
referred to has one (`Settled`). An update run that succeeds leaves a settled session: the codes that
it assigns are above those that were known, and the strings that it assigns them to had none
(`settle_update`). In a settled session there is nothing to assign, and validation finds at most
strings without a definition (`settle_of_settled`).
-/

namespace FirmwareIds.Session

open Definition

variable {s : Session} {o : Options}

/-! ## Repeats -/

/-- Two entries that share neither identifier nor code. -/
def Differ (a b : Assignment) : Prop := a.identifier ≠ b.identifier ∧ a.code ≠ b.code

theorem repeats_eq_nil_iff {seen entries : List Assignment} :
    repeats seen entries = [] ↔
      (∀ a ∈ seen, ∀ b ∈ entries, Differ a b) ∧ entries.Pairwise Differ := by
  induction entries generalizing seen with
  | nil => simp [repeats]
  | cons e entries ih =>
    have hfirst : ((seen.find? (·.identifier = e.identifier)).map (Issue.duplicateIdentifier · e)).toList
        ++ ((seen.find? (·.code = e.code)).map (Issue.duplicateCode · e)).toList = [] ↔
        ∀ a ∈ seen, Differ a e := by
      simp [Differ, forall_and]
    rw [repeats, List.append_eq_nil_iff, hfirst, ih, List.pairwise_cons]
    constructor
    · rintro ⟨he, hseen, hall⟩
      refine ⟨?_, ?_, hall⟩
      · intro a ha b hb
        rcases List.mem_cons.mp hb with rfl | hb
        · exact he a ha
        · exact hseen a (List.mem_append_left _ ha) b hb
      · intro b hb
        exact hseen e (List.mem_append_right _ (List.mem_singleton_self e)) b hb
    · rintro ⟨hseen, he, hall⟩
      refine ⟨fun a ha => hseen a ha e (List.mem_cons_self ..), ?_, hall⟩
      intro a ha b hb
      rcases List.mem_append.mp ha with ha | ha
      · exact hseen a ha b (List.mem_cons_of_mem _ hb)
      · exact List.mem_singleton.mp ha ▸ he b hb

/-! ## Updates -/

/-- The codes that indexing collects. -/
def known (s : Session) : List Assignment := s.resources.flatMap assignments ++ assignments s.target

/-- No code that is known is given twice, and every string that is referred to has one. -/
structure Settled (s : Session) : Prop where
  differ : s.known.Pairwise Differ
  coded : ∀ r ∈ s.references, ∃ e ∈ s.known, e.identifier = r.token

theorem succeeds_iff {r : Report} : r.succeeds = true ↔ ∀ i ∈ r.issues, i.fails = false := by
  unfold Report.succeeds
  simp

/-- The codes in the session after its definitions got their codes. -/
theorem known_append {new : List Definition}
    (hnew : ∀ d ∈ new, IsIdentifier d.identifier ∧ IsLead d.lead) (s : Session) :
    s.resources.flatMap assignments ++ assignments (s.target.append (new.map Definition.line)) =
      s.known ++ new.map fun d => ⟨d.identifier, d.code, s.target.path⟩ := by
  have hall : (new.map Definition.line).flatMap all = new := by
    rw [List.flatMap_map]
    calc new.flatMap (fun d => all d.line) = new.flatMap fun d => [d] :=
          List.flatMap_congr fun d hd => all_line (hnew d hd).1 (hnew d hd).2
      _ = new := List.flatMap_singleton' new
  unfold known assignments
  rw [OpenFile.text_append, OpenFile.path_append, all_foldl_append fun _ => prefix_of_mem_lines, hall, List.map_append,
    List.append_assoc]

/-- Validation and the issues that it finds. -/
theorem issues_validate (s : Session) (update : Bool) :
    (s.index.validate update).report.issues = s.report.issues ++
      (repeats [] s.known ++ s.references.flatMap ((s.index).lacks update)) := rfl

/-- The queue after validation: each string that is referred to and has no code. -/
theorem mem_queue_iff {token : Text} : token ∈ (s.index.validate true).queue ↔
    token ∈ s.references.map Reference.token ∧ ∀ e ∈ s.known, e.identifier ≠ token := by
  have hqueue : (s.index.validate true).queue =
      (s.references.map Reference.token).filter fun token => !s.index.hasCode token := rfl
  have hknown : s.index.entries = s.known := rfl
  rw [hqueue, List.mem_filter, Bool.not_eq_true', Bool.eq_false_iff, ne_eq, hasCode_iff, hknown]
  simp

/-- If every string that is referred to has a code, none waits for one. -/
theorem queue_eq_nil (h : ∀ r ∈ s.references, ∃ e ∈ s.known, e.identifier = r.token) :
    (s.index.validate true).queue = [] := by
  apply List.eq_nil_iff_forall_not_mem.mpr
  intro token htoken
  obtain ⟨hmem, hno⟩ := mem_queue_iff.mp htoken
  obtain ⟨r, hr, rfl⟩ := List.mem_map.mp hmem
  obtain ⟨e, he, hsame⟩ := h r hr
  exact hno e he hsame

theorem checked_eq (hstrip : o.strip = false) (s : Session) :
    s.checked o = s.index.validate o.update := by
  unfold checked prepared
  rw [hstrip]
  rfl

/-- An update run that does not fail has assigned a code to the whole queue. -/
theorem settle_eq_of_succeeds (hupdate : o.update = true)
    (hsucceeds : (s.settle o).report.succeeds = true) :
    (s.checked o).report.succeeds = true ∧
      (s.checked o).nextCode + (s.checked o).queue.length ≤ codeSpace ∧
      s.settle o = (s.checked o).withNew ((s.checked o).assignable o.lead) := by
  rcases s.settle_cases o with ⟨hno, heq⟩ | ⟨-, hvalid, ⟨token, -, heq⟩ | ⟨hspace, heq⟩⟩
  · -- a failure found before the codes are assigned stays
    rw [← heq, hupdate, hsucceeds] at hno
    exact absurd hno (by simp)
  · rw [heq] at hsucceeds
    have hfails := succeeds_iff.mp hsucceeds _ (List.mem_append_right _ (List.mem_singleton_self _))
    cases hfails
  · exact ⟨hvalid, hspace, heq⟩

/-- What is assigned differs from what was known, and from each other. -/
theorem differ_assigned {s' : Session} {lead : Text} {new : List Assignment}
    (h : AssignsAll (s.index.validate true) s' lead new)
    (hdistinct : (s.references.map Reference.token).Nodup) :
    (∀ a ∈ s.known, ∀ b ∈ new, Differ a b) ∧ new.Pairwise Differ := by
  refine ⟨fun a ha b hb => ⟨?_, h.fresh a ha b hb⟩, ?_⟩
  · have hqueue : b.identifier ∈ (s.index.validate true).queue :=
      h.identifiers ▸ List.mem_map_of_mem hb
    exact (mem_queue_iff.mp hqueue).2 a ha
  · have hidentifiers : (new.map Assignment.identifier).Nodup := h.identifiers ▸ hdistinct.filter _
    exact (List.pairwise_map.mp hidentifiers).and (List.pairwise_map.mp h.distinct)

/-- Each string that is referred to had a code, or was in the queue and is assigned one. -/
theorem coded_assigned {s' : Session} {lead : Text} {new : List Assignment}
    (h : AssignsAll (s.index.validate true) s' lead new) :
    ∀ r ∈ s.references, ∃ e ∈ s.known ++ new, e.identifier = r.token := by
  intro r hr
  by_cases hcoded : ∃ e ∈ s.known, e.identifier = r.token
  · exact hcoded.imp fun e he => ⟨List.mem_append_left _ he.1, he.2⟩
  · have hmem : r.token ∈ (s.index.validate true).queue :=
      mem_queue_iff.mpr ⟨List.mem_map_of_mem hr, fun e he hsame => hcoded ⟨e, he, hsame⟩⟩
    rw [← h.identifiers] at hmem
    obtain ⟨e, he, hidentifier⟩ := List.mem_map.mp hmem
    exact ⟨e, List.mem_append_right _ he, hidentifier⟩

/-- What an update run without failures puts behind the list of codes settles the session. -/
theorem settle_update (hstrip : o.strip = false) (hupdate : o.update = true)
    (hdistinct : (s.references.map Reference.token).Nodup)
    (hidentifiers : ∀ r ∈ s.references, IsIdentifier r.token)
    (hlead : IsLead (s.leadFor o.lead)) (hsucceeds : (s.settle o).report.succeeds = true) :
    ∃ new, SameFiles s (s.settle o) new ∧ s.report.issues ⊆ (s.settle o).report.issues ∧
      (∀ d ∈ new, IsIdentifier d.identifier ∧ IsLead d.lead) ∧
      Settled { s with target := s.target.append (new.map Definition.line) } := by
  obtain ⟨hvalid, hspace, heq⟩ := settle_eq_of_succeeds hupdate hsucceeds
  rw [checked_eq hstrip, hupdate] at hvalid hspace heq
  obtain ⟨new, hnew⟩ : ∃ new, new = newDefinitions (s.leadFor o.lead) s.index.nextCode
      (s.index.validate true).queue := ⟨_, rfl⟩
  have hleads : ∀ d ∈ new, IsIdentifier d.identifier ∧ IsLead d.lead := by
    intro d hd
    obtain ⟨hl, hmem⟩ := mem_newDefinitions (hnew ▸ hd)
    obtain ⟨r, hr, htoken⟩ := List.mem_map.mp (mem_queue_iff.mp hmem).1
    exact ⟨htoken ▸ hidentifiers r hr, hl ▸ hlead⟩
  have hrepeats : repeats [] s.known = [] := by
    apply List.eq_nil_iff_forall_not_mem.mpr
    intro i hi
    have hmem : i ∈ (s.index.validate true).report.issues := by
      rw [issues_validate]
      exact List.mem_append_right _ (List.mem_append_left _ hi)
    have := succeeds_iff.mp hvalid i hmem
    rw [(of_mem_repeats hi).2] at this
    cases this
  have hknown := known_append hleads s
  have hsettle : s.settle o = (s.index.validate true).withNew new := by
    rw [heq, hnew]
    rfl
  have hassigns := hnew ▸ assignsAll_withNew (s.index.validate true) (s.leadFor o.lead) hspace
  refine ⟨new, ?_, ?_, hleads, ?_, ?_⟩
  · rw [hsettle]
    exact ⟨rfl, rfl, rfl, rfl, rfl⟩
  · rw [hsettle]
    exact List.subset_append_left ..
  · show (s.resources.flatMap assignments ++ assignments _).Pairwise Differ
    obtain ⟨hfresh, hdiffer⟩ := differ_assigned hassigns hdistinct
    rw [hknown]
    exact List.pairwise_append.mpr ⟨(repeats_eq_nil_iff.mp hrepeats).2, hdiffer, hfresh⟩
  · show ∀ r ∈ s.references, ∃ e ∈ s.resources.flatMap assignments ++ assignments _, _
    rw [hknown]
    exact coded_assigned hassigns

/-! ## Settled sessions -/

/-- Validation of a settled session finds no more than strings without a definition, which are
warnings if codes are to be assigned. -/
theorem Settled.issues_validate (h : s.Settled) (update : Bool) :
    ∀ i ∈ (s.index.validate update).report.issues, i ∈ s.report.issues ∨
      i.kind = .missingDefinition ∧ (update = true → i.fails = false) := by
  have hrepeats : repeats [] s.known = [] :=
    repeats_eq_nil_iff.mpr ⟨fun a ha => absurd ha List.not_mem_nil, h.differ⟩
  intro i hi
  rw [Session.issues_validate, hrepeats, List.nil_append] at hi
  rcases List.mem_append.mp hi with hi | hi
  · exact Or.inl hi
  obtain ⟨r, hr, hi⟩ := List.mem_flatMap.mp hi
  have hcoded : s.index.hasCode r.token = true := hasCode_iff.mpr (h.coded r hr)
  unfold lacks at hi
  rw [hcoded, Bool.or_true, if_pos rfl, List.append_nil] at hi
  split at hi
  · cases hi
  · obtain rfl := List.mem_singleton.mp hi
    refine Or.inr ⟨rfl, ?_⟩
    intro hupdate
    rw [hupdate]
    rfl

/-- In a settled session there is nothing to assign. -/
theorem settle_of_settled (hsettled : s.Settled) (hstrip : o.strip = false) :
    (s.settle o).resources = s.resources ∧ (s.settle o).target = s.target ∧
      (s.settle o).report.assigned = s.report.assigned ∧
      (s.settle o).report.written = s.report.written ∧
      ∀ i ∈ (s.settle o).report.issues, i ∈ s.report.issues ∨ i.kind = .missingDefinition ∧
        (o.update = true → i.fails = false) := by
  have hsettle : s.settle o = s.index.validate o.update := by
    rw [← checked_eq hstrip]
    rcases s.settle_cases o with ⟨-, heq⟩ | ⟨hupdate, -, hassigns⟩
    · exact heq
    · -- the queue is empty, so nothing is assigned
      have hqueue : (s.checked o).queue = [] := by
        rw [checked_eq hstrip, hupdate]
        exact queue_eq_nil hsettled.coded
      rcases hassigns with ⟨token, hmem, -⟩ | ⟨-, heq⟩
      · rw [hqueue] at hmem
        cases hmem
      · rw [heq, assignable, hqueue, newDefinitions, withNew_nil hqueue]
  rw [hsettle]
  exact ⟨rfl, rfl, rfl, rfl, hsettled.issues_validate o.update⟩

end FirmwareIds.Session
