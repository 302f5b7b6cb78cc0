import FirmwareIds.Proofs.Resource.Definitions
import FirmwareIds.Proofs.Resource.Stripping
import FirmwareIds.Proofs.Session.Scanning

/-!
# What is to be written

Between scanning and writing a session changes only in memory. Codes are assigned only if they are asked
for and nothing fatal was found, and then to the whole queue or not at all (`settle_cases`). The list of
codes gets lines behind its text, first those that come from the resource files and then the new ones
(`Stripped`); a resource file changes only if it is stripped (`resources_settle`).
-/

namespace FirmwareIds.Session

open FileTree Definition

variable {s : Session} {o : Options}

/-- The definition lines of all resource files, as a strip run moves them. -/
def movedLines (s : Session) : List Text := s.resources.flatMap fun f => f.strip.lines

/-- The session as it is indexed. -/
def prepared (s : Session) (o : Options) : Session := if o.strip then s.strip else s

/-- The session as it is validated. -/
def checked (s : Session) (o : Options) : Session := (s.prepared o).index.validate o.update

/-- The definitions that the queue of a session gets. -/
def assignable (s : Session) (lead? : Option Text) : List Definition :=
  newDefinitions (s.leadFor lead?) s.nextCode s.queue

/-- The queue and the codes known decide what becomes of the queue. -/
theorem assignQueue_eq (s : Session) (lead? : Option Text) : s.assignQueue lead? =
    match s.queue[codeSpace - s.nextCode]? with
    | some token => (s, some (.codesExhausted token))
    | none => (s.withNew (s.assignable lead?), none) := by
  rcases s.assignQueue_cases lead? with ⟨token, htoken, heq⟩ | ⟨hspace, heq⟩
  · rw [heq, htoken]
  · rw [heq, List.getElem?_eq_none (by omega)]
    rfl

/-- Either there are codes for the whole queue, or that there are not is an issue. -/
theorem allocateOrReport_cases (s : Session) (lead? : Option Text) :
    (∃ token ∈ s.queue,
        s.allocateOrReport lead? = s.addIssues [.unassigned s.target.path (.codesExhausted token)]) ∨
      s.nextCode + s.queue.length ≤ codeSpace ∧
        s.allocateOrReport lead? = s.withNew (s.assignable lead?) := by
  unfold allocateOrReport
  rcases s.assignQueue_cases lead? with ⟨token, htoken, heq⟩ | ⟨hspace, heq⟩
  · rw [heq]
    exact Or.inl ⟨token, List.mem_of_getElem? htoken, rfl⟩
  · rw [heq]
    exact Or.inr ⟨hspace, rfl⟩

/-- The three ways of a run before anything is written: no code is assigned, there are not enough of them,
or the whole queue gets some. -/
theorem settle_cases (s : Session) (o : Options) :
    (o.update = false ∨ (s.checked o).report.succeeds = false) ∧ s.settle o = s.checked o ∨
      o.update = true ∧ (s.checked o).report.succeeds = true ∧
        ((∃ token ∈ (s.checked o).queue, s.settle o =
            (s.checked o).addIssues
              [.unassigned (s.prepared o).target.path (.codesExhausted token)]) ∨
          (s.checked o).nextCode + (s.checked o).queue.length ≤ codeSpace ∧
            s.settle o = (s.checked o).withNew ((s.checked o).assignable o.lead)) := by
  have hsettle : s.settle o = if o.update && (s.checked o).report.succeeds then
      (s.checked o).allocateOrReport o.lead else s.checked o := by
    rw [← Bool.not_not (s.checked o).report.succeeds]
    rfl
  rw [hsettle]
  cases hgate : o.update && (s.checked o).report.succeeds with
  | true =>
    obtain ⟨hupdate, hsucceeds⟩ := Bool.and_eq_true_iff.mp hgate
    exact Or.inr ⟨hupdate, hsucceeds, (s.checked o).allocateOrReport_cases o.lead⟩
  | false => exact Or.inl ⟨Bool.and_eq_false_iff.mp hgate, rfl⟩

/-- What is to be written is what was indexed, apart from the list of codes and its new lines. -/
structure SameFiles (s s' : Session) (new : List Definition) : Prop where
  resources : s'.resources = s.resources
  target : s'.target = s.target.append (new.map Definition.line)
  mayWrite : s'.mayWrite = s.mayWrite
  targetKey : s'.targetKey? = s.targetKey?
  moved : s'.report.movedDefinitions = s.report.movedDefinitions

theorem sameFiles_checked (s : Session) (o : Options) :
    SameFiles (s.prepared o) (s.checked o) [] := by
  unfold checked
  generalize s.prepared o = s
  exact ⟨rfl, rfl, rfl, rfl, rfl⟩

theorem sameFiles_settle (s : Session) (o : Options) :
    ∃ new, SameFiles (s.prepared o) (s.settle o) new ∧ (o.update = false → new = []) := by
  have h := s.sameFiles_checked o
  have htarget : (s.checked o).target = (s.prepared o).target := h.target
  rcases s.settle_cases o with ⟨-, heq⟩ | ⟨hupdate, -, ⟨_, -, heq⟩ | ⟨-, heq⟩⟩
  · rw [heq]
    exact ⟨[], h, fun _ => rfl⟩
  · rw [heq]
    exact ⟨[], ⟨h.resources, h.target, h.mayWrite, h.targetKey, h.moved⟩, fun _ => rfl⟩
  · rw [heq]
    refine ⟨(s.checked o).assignable o.lead, ⟨h.resources, ?_, h.mayWrite, h.targetKey,
      h.moved⟩, fun hno => ?_⟩
    · rw [withNew, htarget]
    · rw [hupdate] at hno
      cases hno

/-- The session as a run that strips the resource files writes it. -/
structure Stripped (s s' : Session) (new : List Definition) : Prop where
  resources : s'.resources = s.resources.map fun f => f.strip.file
  target : s'.target = (s.target.append s.movedLines).append (new.map Definition.line)
  mayWrite : s'.mayWrite = s.mayWrite
  targetKey : s'.targetKey? = s.targetKey?
  moved : s'.report.movedDefinitions = s.report.movedDefinitions + s.movedLines.length

theorem strip_eq (s : Session) : Stripped s s.strip [] where
  resources := List.map_map ..
  target := by
    show s.target.append _ = _
    rw [List.flatMap_map]
    rfl
  mayWrite := rfl
  targetKey := rfl
  moved := by
    show _ + _ = _ + _
    rw [List.flatMap_map]
    rfl

theorem settle_strip (s : Session) (hstrip : o.strip = true) :
    ∃ new, Stripped s (s.settle o) new ∧ (o.update = false → new = []) := by
  obtain ⟨new, hsame, hnew⟩ := s.sameFiles_settle o
  have hprepared : s.prepared o = s.strip := by
    rw [prepared, hstrip]
    rfl
  rw [hprepared] at hsame
  have hs := strip_eq s
  refine ⟨new, ⟨hsame.resources.trans hs.resources, ?_, hsame.mayWrite.trans hs.mayWrite,
    hsame.targetKey.trans hs.targetKey, hsame.moved.trans hs.moved⟩, hnew⟩
  rw [hsame.target, hs.target]
  rfl

/-! ## What the texts define -/

/-- A strip run moves every definition that a resource file has. -/
theorem all_strip_lines (f : OpenFile) : f.strip.lines.flatMap all = all f.content.text :=
  all_takeLines f.content.text

theorem prefix_of_mem_movedLines {line : Text} (h : line ∈ s.movedLines) :
    declarationWord <+: line := by
  obtain ⟨f, -, hline⟩ := List.mem_flatMap.mp h
  exact prefix_of_mem_takeLines hline

theorem all_movedLines (s : Session) :
    s.movedLines.flatMap all = s.resources.flatMap fun f => all f.content.text := by
  unfold movedLines
  rw [List.flatMap_assoc]
  exact List.flatMap_congr fun f _ => all_strip_lines f

/-- The list of codes of a strip run defines what it defined, what the resource files defined, and
what is new. -/
theorem Stripped.all_target {s' : Session} {new : List Definition} (h : Stripped s s' new) :
    all s'.target.content.text = all s.target.content.text ++
      (s.resources.flatMap fun f => all f.content.text) ++
      (new.map Definition.line).flatMap all := by
  rw [h.target, OpenFile.text_append, all_foldl_append fun _ => prefix_of_mem_lines,
    OpenFile.text_append, all_foldl_append fun _ => prefix_of_mem_movedLines, all_movedLines]

/-- What the resource files define moves to the list of codes, behind what it defined and in the order of
the files. -/
theorem strip_moves_definitions (s : Session) :
    all s.strip.target.content.text = all s.target.content.text ++
      s.resources.flatMap fun f => all f.content.text := by
  have h := (strip_eq s).all_target
  rw [List.map_nil, List.flatMap_nil, List.append_nil] at h
  exact h

/-! ## The files as they are written -/

/-- A file that is stripped becomes what its content says. -/
theorem strip_congr {f g : OpenFile} (h : f.content = g.content) (hdirty : f.dirty = g.dirty) :
    f.strip.file.content = g.strip.file.content ∧ f.strip.file.dirty = g.strip.file.dirty := by
  unfold OpenFile.strip
  rw [h, hdirty]
  exact ⟨rfl, rfl⟩

/-- A resource file as a run writes it. -/
def edited (o : Options) (f : OpenFile) : OpenFile := if o.strip then f.strip.file else f

theorem path_edited (o : Options) (f : OpenFile) : (edited o f).path = f.path := by
  unfold edited
  split <;> rfl

theorem encoding_edited (o : Options) (f : OpenFile) :
    (edited o f).content.encoding = f.content.encoding := by
  unfold edited
  split <;> rfl

/-- What a run writes for a file depends on its content. -/
theorem edited_congr {f g : OpenFile} (h : f.content = g.content) (hdirty : f.dirty = g.dirty) :
    (edited o f).content = (edited o g).content ∧ (edited o f).dirty = (edited o g).dirty := by
  unfold edited
  split
  · exact strip_congr h hdirty
  · exact ⟨h, hdirty⟩

theorem resources_settle (s : Session) (o : Options) :
    (s.settle o).resources = s.resources.map (edited o) := by
  cases hstrip : o.strip with
  | true =>
    obtain ⟨_, h, -⟩ := s.settle_strip hstrip
    rw [h.resources]
    exact List.map_congr_left fun f _ => by rw [edited, hstrip, if_pos rfl]
  | false =>
    obtain ⟨_, h, -⟩ := s.sameFiles_settle o
    rw [h.resources, prepared, hstrip]
    exact (List.map_id'' (fun f => by rw [edited, hstrip]; rfl) _).symm

/-- A run that strips nothing leaves the resource files as they are. -/
theorem resources_settle_of_keep (s : Session) (hstrip : o.strip = false) :
    (s.settle o).resources = s.resources := by
  rw [resources_settle]
  exact List.map_id'' (fun f => by rw [edited, hstrip]; rfl) _

/-- What a run puts behind the list of codes are lines that declare. -/
theorem target_settle (s : Session) (o : Options) : ∃ lines : List Text,
    (∀ line ∈ lines, declarationWord <+: line) ∧ (s.settle o).target = s.target.append lines := by
  cases hstrip : o.strip with
  | true =>
    obtain ⟨new, h, -⟩ := s.settle_strip hstrip
    refine ⟨s.movedLines ++ new.map Definition.line, fun line hline => ?_, ?_⟩
    · rcases List.mem_append.mp hline with hline | hline
      · exact prefix_of_mem_movedLines hline
      · exact prefix_of_mem_lines hline
    · rw [h.target, OpenFile.append_append]
  | false =>
    obtain ⟨new, h, -⟩ := s.sameFiles_settle o
    refine ⟨new.map Definition.line, fun line => prefix_of_mem_lines, ?_⟩
    rw [h.target, prepared, hstrip]
    rfl

theorem target_path_settle (s : Session) (o : Options) :
    (s.settle o).target.path = s.target.path := by
  obtain ⟨lines, -, htarget⟩ := s.target_settle o
  rw [htarget, OpenFile.path_append]

theorem mayWrite_settle (s : Session) (o : Options) : (s.settle o).mayWrite = s.mayWrite := by
  obtain ⟨_, h, -⟩ := s.sameFiles_settle o
  rw [h.mayWrite, prepared]
  split <;> rfl

/-- What was written is told only when it is. -/
theorem written_settle (s : Session) (o : Options) :
    (s.settle o).report.written = s.report.written := by
  have hchecked : (s.checked o).report.written = s.report.written := by
    unfold checked prepared
    split <;> rfl
  rcases s.settle_cases o with ⟨-, heq⟩ | ⟨-, -, ⟨_, -, heq⟩ | ⟨-, heq⟩⟩
  · rw [heq, hchecked]
  · rw [heq]
    exact hchecked
  · rw [heq]
    exact hchecked

end FirmwareIds.Session
