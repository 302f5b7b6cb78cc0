import FirmwareIds.Proofs.FileTree.Widening
import FirmwareIds.Proofs.Session.Assigning
import FirmwareIds.Proofs.Session.Collecting
import FirmwareIds.Proofs.Session.Keeping
import FirmwareIds.Proofs.Session.Rescanning

/-!
# Updating again

An update run that succeeds has nothing left to do: a second run finds the codes of the first one in
the list of codes, assigns none, and writes no file (`update_again`). This needs a list of codes whose
path leads to the file that is written, and whose text is read as it was written (`Repeatable`).

The first run leaves the tree as it was, or puts the list of codes into it (`SavedAt.placed`). In both
cases the second scan takes in what the first one did, and the new definitions with it
(`scanned_after_save`). So it ends in a settled session, of which nothing is written.
-/

namespace FirmwareIds

open FileTree Definition

namespace FileTree

variable {t u : FileTree} {p : Path} {mark : Text} {bytes : List UInt8} {place k : Key}

/-- The path ends in the name of a link. -/
def EndsInLink (t : FileTree) (p : Path) : Prop :=
  p.endsWithSeparator = false ∧ ∃ k l, t.siteKey? p = some k ∧ t.get? k = some (.link l)

/-- What was at the place of a saved file: nothing, or an entry at the last name of the path, which is
no directory. -/
theorem SavedAt.before (h : SavedAt t u mark p bytes place) (hs : t.Sound) :
    t.get? place = none ∨ ∃ dir name, place = dir ++ [name] ∧ t.Site p dir name ∧
      ¬ Path.nameLimit < name.byteLength ∧ t.get? place ≠ some .directory := by
  obtain ⟨temporary, hevolves, -⟩ := h.evolves
  obtain ⟨dir, name, hplace, -, hold⟩ := h.site
  rcases hold with hsite | hnone
  · have hname := (hevolves.sound hs).parent dir name _ (hplace ▸ h.file)
    exact Or.inr ⟨dir, name, hplace, hsite, hname.2.2.2.2.2, hevolves.noDirectory _ (Or.inl rfl)⟩
  · exact Or.inl (hplace ▸ hs.get?_eq_none hnone name)

/-- Where no temporary file is in the way and the path ends in no link, a save puts one file into the
tree. -/
theorem SavedAt.placed (h : SavedAt t u mark p bytes place) (hs : t.Sound)
    (hlink : ¬ t.EndsInLink p) (hvacant : ∀ k, t.temporaryKey? mark p = some k → t.get? k = none) :
    t.Placed u place := by
  obtain ⟨temporary, hevolves, -, hgone, htemporary, -⟩ := h.evolves
  refine ⟨⟨_, hevolves⟩, ?_, ⟨bytes, h.file⟩, ?_⟩
  · intro k hk
    by_cases htemp : k = temporary
    · subst htemp
      exact Or.inl (hgone.trans (htemporary.elim (hvacant k) id).symm)
    · exact hevolves.elsewhere k (not_or.mpr ⟨hk, htemp⟩)
  · intro e he
    rcases h.before hs with hnone | ⟨dir, name, hplace, hsite, -, hdir⟩
    · rw [hnone] at he
      cases he
    · cases e with
      | directory => exact absurd he hdir
      | file bytes => exact ⟨bytes, rfl⟩
      | link l => exact absurd ⟨h.separator, place, l, hplace ▸ hsite.siteKey?_eq, he⟩ hlink

/-- A path that led to something led to the place that it is saved at. -/
theorem SavedAt.eq_of_locate (h : SavedAt t u mark p bytes place) (hs : t.Sound)
    (hlink : ¬ t.EndsInLink p) (hk : t.locate p = .ok k) : k = place := by
  obtain ⟨temporary, hevolves, -⟩ := h.evolves
  obtain ⟨dir, name, rfl, hsite, -⟩ := h.site
  obtain ⟨dir', hsite'⟩ := site_of_locate hk h.separator hsite.last hsite.stay hsite.up
  obtain ⟨rfl, -⟩ := (hevolves.site hsite').unique hsite
  have hshort : ¬ Path.nameLimit < name.byteLength :=
    ((hevolves.sound hs).parent _ _ _ h.file).2.2.2.2.2
  cases he : t.get? (dir' ++ [name]) with
  | none =>
    rw [hsite'.locate_of_none h.separator hshort he] at hk
    cases hk
  | some e =>
    have hno : ∀ l, e ≠ .link l := fun l hl =>
      hlink ⟨h.separator, _, l, hsite'.siteKey?_eq, hl ▸ he⟩
    rw [hsite'.locate_eq h.separator hshort he hno] at hk
    exact (Except.ok.inj hk).symm

/-- Where the path led to nothing, nothing was at the place that it is saved at. -/
theorem SavedAt.get?_eq_none (h : SavedAt t u mark p bytes place) (hs : t.Sound)
    (hlink : ¬ t.EndsInLink p) {fault : Fault} (hp : t.locate p = .error fault) :
    t.get? place = none := by
  rcases h.before hs with hnone | ⟨dir, name, rfl, hsite, hshort, -⟩
  · exact hnone
  · cases he : t.get? (dir ++ [name]) with
    | none => rfl
    | some e =>
      have hno : ∀ l, e ≠ .link l := fun l hl =>
        hlink ⟨h.separator, _, l, hsite.siteKey?_eq, hl ▸ he⟩
      rw [hsite.locate_eq h.separator hshort he hno] at hp
      cases hp

end FileTree

namespace Session

variable {t u : FileTree} {o : Options} {s s' : Session} {savings : Nat → Saving} {mark : Text}
  {place : Key} {content : TextContent}

/-! ## The start of a session -/

/-- A session that starts with a list of codes. -/
theorem start_of_loadText {k : Key} (hk : t.locate (o.target t) = .ok k)
    (hload : t.loadText (o.target t) = .ok content) :
    start t o = ⟨o.strictness, ⟨o.target t, content, false⟩, some k, true, [], 0, [], [], .empty, [],
      { target := o.target t }⟩ := by
  unfold start
  dsimp only
  rw [hk, hload]
  rfl

/-- A session that starts without one. -/
theorem start_of_error {fault : Fault} (hk : t.locate (o.target t) = .error fault) :
    start t o = ⟨o.strictness, ⟨o.target t, {}, false⟩, none, true, [], 0, [], [], .empty, [],
      { target := o.target t }⟩ := by
  unfold start
  dsimp only
  rw [hk]
  rfl

/-! ## Writing nothing but the list of codes -/

/-- If only the list of codes changed, a run that succeeds has saved it. -/
theorem flushEach_of_succeeds (hclean : ∀ f ∈ s.resources, f.dirty = false)
    (h : s.flushEach savings t = (u, s')) (hsucceeds : s'.report.succeeds = true) :
    s.report.succeeds = true ∧
      (s.target.dirty = false ∧ u = t ∨ s.target.dirty = true ∧ s.mayWrite = true ∧
        savings 0 t s.target.path s.target.content = (u, none)) := by
  have hresources := (notesWrites_saveTarget (savings 0) t s).resources
  obtain ⟨v, s₁, saved, hsave⟩ : ∃ v s₁ saved, s.saveTarget (savings 0) t = (v, s₁, saved) :=
    ⟨_, _, _, rfl⟩
  rw [hsave] at hresources
  -- behind the list of codes, nothing is written
  have hrest : u = v ∧ s'.report.issues = s₁.report.issues := by
    have hnone := filter_dirty_eq_nil (hresources ▸ hclean)
    rcases flushEach_cases hsave with ⟨-, -, heq⟩ | ⟨-, heq⟩
    · rw [heq, hnone] at h
      cases h
      exact ⟨rfl, List.append_nil _⟩
    · rw [heq, hnone] at h
      cases h
      exact ⟨rfl, rfl⟩
  obtain ⟨rfl, hissues⟩ := hrest
  have hnofails := succeeds_iff.mp hsucceeds
  rw [hissues] at hnofails
  rcases saveTarget_cases (savings 0) t s with ⟨hdirty, heq⟩ | ⟨-, -, heq⟩ |
    ⟨hdirty, hmay, w, e?, hw, heq⟩
  · rw [heq] at hsave
    cases hsave
    exact ⟨succeeds_iff.mpr hnofails, Or.inl ⟨hdirty, rfl⟩⟩
  · rw [heq] at hsave
    cases hsave
    have := hnofails _ (List.mem_append_right _ (List.mem_singleton_self _))
    cases this
  · rw [heq] at hsave
    cases hsave
    cases e? with
    | none => exact ⟨succeeds_iff.mpr hnofails, Or.inr ⟨hdirty, hmay, hw⟩⟩
    | some e =>
      have := hnofails _ (List.mem_append_right _ (List.mem_singleton_self _))
      cases this

/-- A run that scans a settled session assigns nothing and writes nothing. -/
theorem runEach_of_settled (hscan : scanned t o = .ok s) (hsettled : s.Settled)
    (hstrip : o.strip = false) (savings : Nat → Saving) :
    ∃ r, runEach savings t o = .ok (t, r) ∧ r.assigned = [] ∧ r.written = [] ∧
      ∀ i ∈ r.issues, i ∈ s.report.issues ∨
        i.kind = .missingDefinition ∧ (o.update = true → i.fails = false) := by
  obtain ⟨hresources, htarget, hassigned, hwritten, hissues⟩ := settle_of_settled hsettled hstrip
  have hcollected := collected_scanned hscan
  have hflush : (s.settle o).flushEach savings t = (t, s.settle o) :=
    flushEach_of_clean (htarget ▸ hcollected.target) (hresources ▸ hcollected.clean)
  refine ⟨(s.settle o).report, runEach_eq_ok_iff.mpr ⟨s, _, hscan, hflush, rfl⟩,
    hassigned.trans hcollected.assigned, hwritten.trans hcollected.written, hissues⟩

/-! ## Scanning what was saved -/

/-- What leads to the list of codes, if its key is known. -/
theorem leadsToTarget_iff (hkey : s.targetKey? = some place) {p : Path} {dir : Key} {name : Text}
    (hfound : t.FoundAt p dir name) :
    s.leadsToTarget t p = true ↔ p.fault? = none ∧ dir ++ [name] = place := by
  unfold leadsToTarget
  rw [hkey]
  dsimp only
  cases hp : p.fault? with
  | some fault =>
    rw [locate_of_fault hp]
    simp [Except.toOption]
  | none =>
    rw [hfound.locate_eq hp]
    simp [Except.toOption]

/-- No walk comes to a list of codes that is not there yet. -/
theorem leadsToTarget_iff_of_absent {bytes : List UInt8}
    (hsaved : SavedAt t u mark s.target.path bytes place) (hkey : s.targetKey? = none)
    (hnone : t.get? place = none) {p : Path} {dir : Key} {name : Text}
    (hfound : t.FoundAt p dir name) :
    s.leadsToTarget t p = true ↔ p.fault? = none ∧ dir ++ [name] = place := by
  obtain ⟨bytes', hfile⟩ := hfound.file
  have helsewhere : dir ++ [name] ≠ place := fun heq => by
    rw [heq, hnone] at hfile
    cases hfile
  unfold leadsToTarget
  rw [hkey]
  refine ⟨fun hsame => absurd ?_ helsewhere, fun h => absurd h.2 helsewhere⟩
  -- under the same parts, the list of codes was saved over what was found
  obtain ⟨temporary, hevolves, -⟩ := hsaved.evolves
  obtain ⟨dir', name', rfl, hsite, -⟩ := hsaved.site
  obtain ⟨rfl, rfl⟩ := (hevolves.site
    (hfound.site_of_same hsame hsite.valid hsite.last hsite.stay)).unique hsite
  rfl

/-- The list of codes is at the same path once a file is there. -/
theorem target_of_evolves {touched : Key → Prop} (h : Evolves t u touched) {k : Key}
    {bytes : List UInt8} (hk : u.locate (o.target t) = .ok k)
    (hfile : u.get? k = some (.file bytes)) : o.target u = o.target t := by
  unfold Options.target at hk ⊢
  by_cases hdir : t.isDirectory o.output = true
  · rw [if_pos hdir, if_pos (h.isDirectory hdir)]
  · rw [if_neg hdir] at hk ⊢
    have hno : u.isDirectory o.output = false := by
      unfold isDirectory
      rw [hk]
      simp [hfile]
    rw [hno]
    rfl

/-- The list of codes is at the same path when it was saved. -/
theorem target_of_saved {bytes : List UInt8}
    (hsaved : SavedAt t u mark (o.target t) bytes place) : o.target u = o.target t := by
  obtain ⟨temporary, hevolves, -⟩ := hsaved.evolves
  exact target_of_evolves hevolves hsaved.locate hsaved.file

/-- What an update needs to be repeatable: a path of the list of codes without two dots that does not
end in a link, a free place for its temporary file, a text that does not begin with the character of
the mark, and a lead that can be told from the codes. -/
structure Repeatable (t : FileTree) (o : Options) (mark : Text) : Prop where
  sound : t.Sound
  slash : '/' ∉ mark
  up : Path.upStep ∉ (o.target t).names
  link : ¬ t.EndsInLink (o.target t)
  vacant : ∀ k, t.temporaryKey? mark (o.target t) = some k → t.get? k = none
  unmarked : ∀ content, t.loadText (o.target t) = .ok content →
    content.text.head? ≠ some Encoding.markChar
  lead : IsLead ((start t o).leadFor o.lead)

theorem Repeatable.savable (h : Repeatable t o mark) : t.Savable mark (o.target t) where
  slash := h.slash
  temporary k target hk hlink := by
    rw [h.vacant k hk] at hlink
    cases hlink
  nowhere dir name hsite _ hsep := leadsNowhere_of_not_link fun l hl =>
    h.link ⟨hsep, _, l, hsite.siteKey?_eq, hl⟩
  up hup := absurd hup h.up

/-- The list of codes at the start: what its path leads to, or nothing. -/
theorem Repeatable.text_ne_mark (h : Repeatable t o mark) :
    (start t o).target.content.text.head? ≠ some Encoding.markChar := by
  rcases start_cases t o with ⟨_, content, -, hload, htarget, -⟩ | ⟨-, htarget, -⟩ |
    ⟨-, htarget, -⟩
  · rw [htarget]
    exact h.unmarked content hload
  · rw [htarget]
    exact nofun
  · rw [htarget]
    exact nofun

/-- With new definitions behind it, the list of codes is read as it was written. -/
theorem Repeatable.decode?_encode (h : Repeatable t o mark) {new : List Definition}
    (hnew : ∀ d ∈ new, IsIdentifier d.identifier ∧ IsLead d.lead)
    (hcontent : content = ((start t o).target.append (new.map line)).content) :
    TextContent.decode? content.encode = some content := by
  refine TextContent.decode?_encode_of_head ?_
  obtain ⟨z, hz, hhead, -⟩ := Form.foldl_append_lines hnew (start t o).target.content.text
  rw [hcontent, OpenFile.text_append, hz]
  have htext := h.text_ne_mark
  cases hs : (start t o).target.content.text with
  | nil =>
    intro hmark
    rcases hhead _ hmark with hc | hc
    · cases hc
    · cases hc
  | cons c text =>
    rw [hs] at htext
    exact htext

/-- A run has refreshed the list of codes when it has put new definitions behind it. -/
theorem Repeatable.refreshed (h : Repeatable t o mark) (hmay : (start t o).mayWrite = true)
    {new : List Definition} (hnew : ∀ d ∈ new, IsIdentifier d.identifier ∧ IsLead d.lead)
    (hcontent : content = ((start t o).target.append (new.map line)).content)
    (hsaved : SavedAt t u mark (o.target t) content.encode place) : Refreshed t u place := by
  refine ⟨h.sound, hsaved.placed h.sound h.link h.vacant, _, content, hsaved.file,
    h.decode?_encode hnew hcontent, ?_⟩
  have hall : ∀ p, Reference.all content.text p =
      Reference.all (start t o).target.content.text p := by
    intro p
    rw [hcontent, OpenFile.text_append]
    exact Reference.all_foldl_append hnew _ p
  rcases start_cases t o with ⟨k, old, hk, hload, htarget, -⟩ | ⟨⟨fault, hfault⟩, htarget, -⟩ |
    ⟨-, -, hnot⟩
  · -- it was written over what had been read
    obtain ⟨bytes, hread, hdecode⟩ := loadText_eq_ok_iff.mp hload
    obtain ⟨k', hk', hfile⟩ := readFile_eq_ok_iff.mp hread
    obtain rfl := hsaved.eq_of_locate h.sound h.link hk'
    refine Or.inr ⟨bytes, old, hfile, hdecode, ?_⟩
    intro p
    rw [hall p, htarget]
  · refine Or.inl ⟨hsaved.get?_eq_none h.sound h.link hfault, ?_⟩
    intro p
    rw [hall p, htarget]
    exact Reference.all_nil p
  · rw [hmay] at hnot
    cases hnot

/-- The sessions of both runs know as well which paths lead to the list of codes. -/
theorem Repeatable.alike_start (h : Repeatable t o mark) (hmay : (start t o).mayWrite = true)
    {new : List Definition} (hnew : ∀ d ∈ new, IsIdentifier d.identifier ∧ IsLead d.lead)
    (hcontent : content = ((start t o).target.append (new.map line)).content)
    (hsaved : SavedAt t u mark (o.target t) content.encode place) :
    Alike t u place (start t o) (start u o) ∧
      (start u o).target = ⟨o.target t, content, false⟩ := by
  have hpath := target_of_saved hsaved
  have hlocate : u.locate (o.target u) = .ok place := hpath.symm ▸ hsaved.locate
  have hload : u.loadText (o.target u) = .ok content :=
    loadText_eq_ok_iff.mpr ⟨_, readFile_eq_ok_iff.mpr ⟨place, hlocate, hsaved.file⟩,
      h.decode?_encode hnew hcontent⟩
  have hu := start_of_loadText hlocate hload
  rw [hpath] at hu
  have hleads' : ∀ p dir name, u.FoundAt p dir name →
      ((start u o).leadsToTarget u p = true ↔ p.fault? = none ∧ dir ++ [name] = place) :=
    fun p dir name => leadsToTarget_iff (by rw [hu])
  refine ⟨?_, by rw [hu]⟩
  rcases start_cases t o with ⟨k, old, hk, hload', -, -⟩ | ⟨⟨fault, hfault⟩, -, -⟩ | ⟨-, -, hnot⟩
  · -- the list of codes was there, so both sessions know its key
    have ht := start_of_loadText hk hload'
    obtain rfl := hsaved.eq_of_locate h.sound h.link hk
    have hleads : ∀ p dir name, t.FoundAt p dir name →
        ((start t o).leadsToTarget t p = true ↔ p.fault? = none ∧ dir ++ [name] = k) :=
      fun p dir name => leadsToTarget_iff (by rw [ht])
    refine ⟨?_, ?_, ?_, ?_, hleads, hleads'⟩
    · rw [ht, hu]
    · rw [ht, hu]
    · rw [start_references, start_references]
    · rw [hu]
      exact nofun
  · -- the first session did not know the key, and nothing was there to be found
    have ht := start_of_error hfault
    have hnone := hsaved.get?_eq_none h.sound h.link hfault
    have hleads : ∀ p dir name, t.FoundAt p dir name →
        ((start t o).leadsToTarget t p = true ↔ p.fault? = none ∧ dir ++ [name] = place) :=
      fun p dir name => leadsToTarget_iff_of_absent (by rw [ht]; exact hsaved) (by rw [ht]) hnone
    refine ⟨?_, ?_, ?_, ?_, hleads, hleads'⟩
    · rw [ht, hu]
    · rw [ht, hu]
    · rw [start_references, start_references]
    · rw [hu]
      exact nofun
  · rw [hmay] at hnot
    cases hnot

/-- The second scan takes in what the first one did, and the list of codes with its new definitions. -/
theorem Repeatable.scanned_after_save (h : Repeatable t o mark) (hscan : scanned t o = .ok s)
    (hmay : s.mayWrite = true) {new : List Definition}
    (hnew : ∀ d ∈ new, IsIdentifier d.identifier ∧ IsLead d.lead)
    (hcontent : content = (s.target.append (new.map line)).content)
    (hsaved : SavedAt t u mark (o.target t) content.encode place) :
    ∃ s', scanned u o = .ok s' ∧ Alike t u place s s' ∧
      s'.target = ⟨o.target t, content, false⟩ := by
  have hgathers := gathers_scanned h.sound hscan
  rw [hgathers.mayWrite] at hmay
  rw [hgathers.target] at hcontent
  have hrefreshed := h.refreshed hmay hnew hcontent hsaved
  obtain ⟨halike, htarget⟩ := h.alike_start hmay hnew hcontent hsaved
  obtain ⟨s', hscan', halike'⟩ := scanned_again hrefreshed halike hscan
  obtain ⟨touched, hevolves⟩ := hrefreshed.placed.evolves
  have hgathers' := gathers_scanned (hevolves.sound h.sound) hscan'
  exact ⟨s', hscan', halike', hgathers'.target.trans htarget⟩

/-! ## The second run -/

/-- A session is settled if one with the same texts is. -/
theorem Settled.congr (h : s.Settled) (hresources : s'.resources = s.resources)
    (hreferences : s'.references = s.references) (hpath : s'.target.path = s.target.path)
    (htext : s'.target.content.text = s.target.content.text) : s'.Settled := by
  have hknown : s'.known = s.known := by
    unfold known assignments
    rw [hresources, hpath, htext]
  exact ⟨hknown ▸ h.differ, fun r hr => hknown ▸ h.coded r (hreferences ▸ hr)⟩

/-- After an update run that succeeds, the tree that it leaves is scanned to a settled session without a
fatal issue. -/
theorem Repeatable.scanned_after_update (h : Repeatable t o mark) (hupdate : o.update = true)
    (hstrip : o.strip = false) (hsavings : ∀ i, (savings i).Attempts mark) {r : Report}
    (hrun : runEach savings t o = .ok (u, r)) (hsucceeds : r.succeeds = true) :
    ∃ s', u.Sound ∧ scanned u o = .ok s' ∧ s'.Settled ∧ s'.report.succeeds = true := by
  obtain ⟨s, s'', hscan, hflush, rfl⟩ := runEach_eq_ok_iff.mp hrun
  have hgathers := gathers_scanned h.sound hscan
  have hcollected := collected_scanned hscan
  obtain ⟨_, -, hrecorded⟩ := recorded_scanned hscan
  have hlead : IsLead (s.leadFor o.lead) := by
    unfold leadFor
    rw [hgathers.target]
    exact h.lead
  obtain ⟨hsettle, hsaved⟩ :=
    flushEach_of_succeeds (s.resources_settle_of_keep hstrip ▸ hcollected.clean) hflush hsucceeds
  obtain ⟨new, hsame, hgrow, hnew, hsettled⟩ := settle_update hstrip hupdate hrecorded.nodup
    hcollected.identifiers hlead hsettle
  have hissues : ∀ i ∈ s.report.issues, i.fails = false := fun i hi =>
    succeeds_iff.mp hsettle i (hgrow hi)
  have hpath : s.target.path = o.target t := by
    rw [hgathers.target, start_target_path]
  rcases hsaved with ⟨hdirty, rfl⟩ | ⟨-, hmay, hw⟩
  · -- the list of codes did not change, so there were no new definitions
    rw [hsame.target, OpenFile.dirty_append, hcollected.target] at hdirty
    have hnone : new.map line = [] := by simpa using hdirty
    refine ⟨s, h.sound, hscan, hsettled.congr rfl rfl ?_ ?_, succeeds_iff.mpr hissues⟩
    · rw [hnone, OpenFile.append_nil]
    · rw [hnone, OpenFile.append_nil]
  · -- the list of codes was saved, with the new definitions behind it
    rw [hsame.target, OpenFile.path_append, hpath] at hw
    obtain ⟨place, hsavedAt⟩ := (hsavings 0).saved h.sound h.savable hw
    obtain ⟨s', hscan', halike, htarget⟩ :=
      h.scanned_after_save hscan (hsame.mayWrite ▸ hmay) hnew rfl hsavedAt
    obtain ⟨_, hevolves⟩ := evolves_of_savedAt hsavedAt
    refine ⟨s', hevolves.sound h.sound, hscan',
      hsettled.congr halike.resources halike.references ?_ ?_, succeeds_iff.mpr ?_⟩
    · rw [htarget, OpenFile.path_append, hpath]
    · rw [htarget]
    · intro i hi
      exact (halike.issues i hi).elim (hissues i) id

/-- Once an update run has succeeded, a second one succeeds without assigning a code or writing a
file; and a run that only checks finds no code that is given twice or missing. -/
theorem update_again (h : Repeatable t o mark) (hupdate : o.update = true)
    (hstrip : o.strip = false) (hsavings : ∀ i, (savings i).Attempts mark) {r : Report}
    (hrun : runEach savings t o = .ok (u, r)) (hsucceeds : r.succeeds = true)
    (again : Nat → Saving) :
    (∃ r', runEach again u o = .ok (u, r') ∧ r'.succeeds = true ∧ r'.assigned = [] ∧
      r'.written = []) ∧
    ∃ r', runEach again u { o with update := false } = .ok (u, r') ∧
      ∀ i ∈ r'.issues, i.kind ≠ .duplicateIdentifier ∧ i.kind ≠ .duplicateCode ∧
        i.kind ≠ .missingCode := by
  obtain ⟨s, hsound, hscan, hsettled, hissues⟩ :=
    h.scanned_after_update hupdate hstrip hsavings hrun hsucceeds
  have hissues := succeeds_iff.mp hissues
  refine ⟨?_, ?_⟩
  · obtain ⟨r', hrun', hassigned, hwritten, hfound⟩ :=
      runEach_of_settled hscan hsettled hstrip again
    refine ⟨r', hrun', succeeds_iff.mpr ?_, hassigned, hwritten⟩
    intro i hi
    rcases hfound i hi with hi | ⟨-, hwarns⟩
    · exact hissues i hi
    · exact hwarns hupdate
  · have hscan' : scanned u { o with update := false } = .ok s := hscan
    obtain ⟨r', hrun', -, -, hfound⟩ := runEach_of_settled hscan' hsettled hstrip again
    refine ⟨r', hrun', ?_⟩
    intro i hi
    rcases hfound i hi with hi | ⟨hkind, -⟩
    · rcases (collected_scanned hscan).kinds i hi with hkind | hkind
      · rw [hkind]
        decide
      · rw [hkind]
        decide
    · rw [hkind]
      decide

/-- A question below `forms` whose string has no code, and the string below `root`. -/
def oneQuestion : FileTree :=
  ((oneFile "#string STR_A #language en-US \"Alpha\"\n").put ["forms".toList] .directory).put
    ["forms".toList, "f.vfr".toList] (.file (Utf8.encode
      "oneof varid = Setup.A,\n  prompt = STRING_TOKEN(STR_A),\nendoneof;\n".toList))

/-- An update run that has the list of codes below a root of its own. -/
def updateRoot : Options where
  output := ⟨"root/UqiList.uni".toList⟩
  roots := [⟨"root".toList⟩, ⟨"forms".toList⟩]
  update := true

theorem repeatable_oneQuestion : Repeatable oneQuestion updateRoot ['1'] := by
  have hsite : oneQuestion.siteKey? (updateRoot.target oneQuestion) =
      some ["root".toList, "UqiList.uni".toList] := by decide +kernel
  have hkey : oneQuestion.temporaryKey? ['1'] (updateRoot.target oneQuestion) =
      some ["root".toList, ".UqiList.uni.1.tmp".toList] := by decide +kernel
  have habsent : oneQuestion.get? ["root".toList, "UqiList.uni".toList] = none := by decide +kernel
  have hvacant : oneQuestion.get? ["root".toList, ".UqiList.uni.1.tmp".toList] = none := by
    decide +kernel
  have hload : (oneQuestion.loadText (updateRoot.target oneQuestion)).toOption = none := by
    decide +kernel
  have hlead : (start oneQuestion updateRoot).leadFor updateRoot.lead = ['x'] := by decide +kernel
  refine ⟨by decide +kernel, by decide, by decide +kernel, ?_, ?_, ?_, ?_⟩
  · rintro ⟨-, k, l, hk, hlink⟩
    rw [hsite] at hk
    rw [← Option.some.inj hk, habsent] at hlink
    cases hlink
  · intro k hk
    rw [hkey] at hk
    rw [← Option.some.inj hk, hvacant]
  · intro c hc
    rw [hc] at hload
    cases hload
  · rw [hlead]
    exact ⟨fun c hc => List.mem_singleton.mp hc ▸ rfl, Or.inl rfl⟩

/-- The list of codes that an update run makes below one of its roots is known to the next run. -/
theorem update_again_oneQuestion :
    ∃ u r, runEach (fun _ t p content => t.replaceText ['1'] p content) oneQuestion updateRoot =
        .ok (u, r) ∧ r.succeeds = true ∧
      r.assigned = [⟨"STR_A".toList, 0, ⟨"root/UqiList.uni".toList⟩⟩] ∧
      ∃ r', runEach (fun _ t p content => t.replaceText ['2'] p content) u updateRoot =
        .ok (u, r') ∧ r'.succeeds = true ∧ r'.assigned = [] := by
  have hassigns : (runEach (fun _ t p content => t.replaceText ['1'] p content) oneQuestion
      updateRoot).toOption.any (fun x => x.2.succeeds &&
        x.2.assigned == [⟨"STR_A".toList, 0, ⟨"root/UqiList.uni".toList⟩⟩]) = true := by
    decide +kernel
  obtain ⟨u, r, hrun, htest⟩ := exists_of_any hassigns
  simp only [Bool.and_eq_true, beq_iff_eq] at htest
  obtain ⟨⟨r', hrun', hsucceeds', hassigned', -⟩, -⟩ :=
    update_again repeatable_oneQuestion rfl rfl (fun _ => attempts_replaceText ['1']) hrun htest.1
      fun _ t p content => t.replaceText ['2'] p content
  exact ⟨u, r, hrun, htest.1, htest.2, r', hrun', hsucceeds', hassigned'⟩

end Session

end FirmwareIds
