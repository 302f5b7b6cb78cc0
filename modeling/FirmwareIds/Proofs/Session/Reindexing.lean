import FirmwareIds.Proofs.Session.Assigning
import FirmwareIds.Proofs.Session.Reaching

/-!
# Indexing again

An assignment changes the entries and the text of the list of codes side by side, and both say the same
(`InStep`): each token that gets a code adds one entry, and one line in which indexing finds that entry.
So indexing after an assignment changes no entry, and validation then finds no token without a code, and
no repeats but those it found before (`index_after_allocate`).
-/

namespace FirmwareIds.Session

open Definition

variable {s s' : Session} {lead? : Option Text}

/-! ## Repeats -/

/-- Whether the issue is that an identifier or a code is given once more. -/
def isRepeat (i : Issue) : Bool := i.kind = .duplicateIdentifier || i.kind = .duplicateCode

theorem repeats_append (seen entries more : List Assignment) :
    repeats seen (entries ++ more) = repeats seen entries ++ repeats (seen ++ entries) more := by
  induction entries generalizing seen with
  | nil => simp [repeats]
  | cons e entries ih => simp [repeats, ih]

/-- The repeats that validation finds are those of the entries. -/
theorem filter_findings (s : Session) (update : Bool) :
    (s.findings update).filter isRepeat = repeats [] s.entries := by
  have hrepeats : (repeats [] s.entries).filter isRepeat = repeats [] s.entries := by
    apply List.filter_eq_self.mpr
    intro i hi
    simpa [isRepeat] using (of_mem_repeats hi).1
  have hlacks : (s.references.flatMap (s.lacks update)).filter isRepeat = [] := by
    apply List.filter_eq_nil_iff.mpr
    intro i hi
    obtain ⟨r, -, hi⟩ := List.mem_flatMap.mp hi
    rcases (of_mem_lacks hi).1 with hkind | hkind <;> simp [isRepeat, hkind]
  rw [findings, List.filter_append, hrepeats, hlacks, List.append_nil]

/-! ## Entries and texts -/

/-- The entries are those that indexing finds in the texts. -/
def InStep (s : Session) : Prop := s.index.entries = s.entries

/-- One token more: its entry is found where its line was put, behind what was found before. -/
theorem InStep.assign (h : s.InStep) {lead token : Text} (htoken : IsIdentifier token)
    (hlead : IsLead lead) (code : UInt16) : (s.assign lead code token).InStep := by
  have hnew : ∀ d ∈ [Definition.mk token lead code], IsIdentifier d.identifier ∧ IsLead d.lead := by
    intro d hd
    obtain rfl := List.mem_singleton.mp hd
    exact ⟨htoken, hlead⟩
  show s.resources.flatMap assignments ++ assignments _ = s.entries ++ _
  rw [← h]
  exact known_append hnew s

/-- A whole row of tokens, also where the codes end before it. -/
theorem InStep.assignEach (h : s.InStep) {lead : Text} (hlead : IsLead lead) {queue : List Text}
    (hqueue : ∀ token ∈ queue, IsIdentifier token) (next : Nat) :
    (assignEach lead s next queue).1.InStep := by
  induction queue generalizing s next with
  | nil => exact h
  | cons token rest ih =>
    rw [Session.assignEach]
    split
    · have htoken := hqueue token (List.mem_cons_self ..)
      exact ih (h.assign htoken hlead _) (fun t ht => hqueue t (List.mem_cons_of_mem _ ht)) _
    · exact h

theorem InStep.assignQueue (h : s.InStep) (hlead : IsLead (s.leadFor lead?))
    (hqueue : ∀ token ∈ s.queue, IsIdentifier token) : (s.assignQueue lead?).1.InStep := by
  have heach := InStep.assignEach (s := { s with queue := [] }) h hlead hqueue s.nextCode
  unfold Session.assignQueue
  split
  · exact h
  · split
    · exact h
    · split
      · next heq =>
        rw [heq] at heach
        exact heach
      · exact heach

/-! ## After an allocation -/

theorem assignQueue_of_allocate (h : s.allocate lead? = .ok s') :
    s.assignQueue lead? = (s', none) := by
  unfold allocate at h
  split at h
  · next heq =>
    rw [heq, Except.ok.inj h]
  · cases h

/-- Where allocation succeeds, the whole queue is assigned. -/
theorem assignsAll_of_allocate (h : s.allocate lead? = .ok s') :
    ∃ new, AssignsAll s s' (s.leadFor lead?) new := by
  have hqueue := assignQueue_of_allocate h
  rcases s.assignQueue_cases lead? with ⟨token, -, heq⟩ | ⟨hspace, heq⟩
  · rw [heq] at hqueue
    cases hqueue
  · rw [heq] at hqueue
    cases hqueue
    exact ⟨_, assignsAll_withNew s _ hspace⟩

/-- Where indexing, validation and allocation were the last steps, indexing once more changes no entry.
Validation finds no token without a code then, and the repeats that it found before. -/
theorem index_after_allocate {rs : List Reference} (h : Reached rs s)
    (hqueue : ∀ token ∈ (s.index.validate true).queue, IsIdentifier token)
    (hlead : IsLead ((s.index.validate true).leadFor lead?))
    (hallocate : (s.index.validate true).allocate lead? = .ok s') :
    s'.index.entries = s'.entries ∧
      (s'.index.validate true).queue = [] ∧
      ∃ before after,
        (s.index.validate true).report.issues = s.report.issues ++ before ∧
        s'.report.issues = (s.index.validate true).report.issues ∧
        (s'.index.validate true).report.issues = s'.report.issues ++ after ∧
        after.filter isRepeat = before.filter isRepeat := by
  obtain ⟨new, hassigns⟩ := assignsAll_of_allocate hallocate
  have hentries : s'.index.entries = s'.entries := by
    have hstep : ((s.index.validate true).assignQueue lead?).1.InStep :=
      InStep.assignQueue rfl hlead hqueue
    rwa [assignQueue_of_allocate hallocate] at hstep
  have hknown : s'.known = s.known ++ new :=
    hentries.trans (congrArg entries hassigns.session)
  have hreferences : s'.references = s.references :=
    (congrArg references hassigns.session).trans rfl
  have hnone : repeats s.known new = [] :=
    repeats_eq_nil_iff.mpr (differ_assigned hassigns h.recorded.nodup)
  refine ⟨hentries, queue_eq_nil ?_, s.index.findings true, s'.index.findings true, rfl,
    congrArg (fun s => s.report.issues) hassigns.session, rfl, ?_⟩
  · rw [hknown, hreferences]
    exact coded_assigned hassigns
  · rw [filter_findings, filter_findings, show s'.index.entries = _ from hknown, repeats_append,
      List.nil_append, hnone, List.append_nil]
    rfl

/-- The list of codes has one definition twice, and a string gets the next code: that is what indexing
finds, and the repeats are those from before. -/
theorem definedTwice_indexed_again : ∃ s',
    (definedTwice.index.validate true).allocate none = .ok s' ∧
      s'.index.entries.map (fun e => (e.identifier, e.code)) =
        [("STR_A".toList, 1), ("STR_A".toList, 1), ("STR_B".toList, 2)] ∧
      (s'.index.validate true).queue = [] ∧
      ∃ before after,
        (definedTwice.index.validate true).report.issues = definedTwice.report.issues ++ before ∧
        (s'.index.validate true).report.issues = s'.report.issues ++ after ∧
        after.filter isRepeat = before.filter isRepeat := by
  have hreached : Reached [⟨"STR_B".toList, none, ⟨"f.vfr".toList⟩⟩] definedTwice :=
    ((Reached.start _ _).record _).index
  have hqueue : (definedTwice.index.validate true).queue = ["STR_B".toList] := by decide +kernel
  have hlead : (definedTwice.index.validate true).leadFor none = ['x'] := by decide +kernel
  have hallocate : ((definedTwice.index.validate true).allocate none).toOption.map (fun s' =>
      s'.entries.map fun e => (e.identifier, e.code)) =
        some [("STR_A".toList, 1), ("STR_A".toList, 1), ("STR_B".toList, 2)] := by decide +kernel
  obtain ⟨s', hsome, hentries⟩ := Option.map_eq_some_iff.mp hallocate
  have hs' := toOption_eq_some_iff.mp hsome
  have hidentifiers : ∀ token ∈ ["STR_B".toList], IsIdentifier token := fun token htoken => by
    rw [List.mem_singleton.mp htoken]
    exact ⟨by decide, List.all_eq_true.mp (by decide)⟩
  have hx : IsLead ['x'] := by
    refine ⟨fun c hc => ?_, Or.inl rfl⟩
    rw [List.mem_singleton.mp hc]
    rfl
  obtain ⟨hindex, hnone, before, after, hbefore, -, hafter, hsame⟩ :=
    index_after_allocate hreached (hqueue ▸ hidentifiers) (hlead ▸ hx) hs'
  rw [← hindex] at hentries
  exact ⟨s', hs', hentries, hnone, before, after, hbefore, hafter, hsame⟩

end FirmwareIds.Session
