import FirmwareIds.Proofs.Session.Accounting
import FirmwareIds.Proofs.Text.Encoding

/-!
# A strip run loses no definition

A strip run takes the definition lines out of the resource files and puts them behind the list of
codes. Whichever saves fail, a definition that was in one of these files before is in the list of
codes afterwards, or still where it came from (`strip_run_loses_no_definition`).

The order of the saves is what this rests on (`Account.first`): as long as the list of codes is not saved,
no file that definitions were taken from is written. Once it is, what is written leaves it alone.
-/

namespace FirmwareIds

open FileTree Definition

/-- The definitions of the file that a path leads to; none if it cannot be read. -/
def FileTree.definitions (t : FileTree) (p : Path) : List Definition :=
  match t.loadText p with
  | .ok content => all content.text
  | .error _ => []

/-- The definitions that are read once a text was written. -/
def TextContent.reread (content : TextContent) : List Definition :=
  ((TextContent.decode? content.encode).map fun content => all content.text).getD []

/-- Marks that are not read again hide no definition. -/
theorem Definition.all_marks_sublist {marks : Text} (h : ∀ x ∈ marks, x = Encoding.markChar)
    (s : Text) : (all (marks ++ s)).Sublist (all s) := by
  induction marks with
  | nil => exact .refl _
  | cons c marks ih =>
    obtain rfl := h c (List.mem_cons_self ..)
    exact (all_cons_sublist (by decide) (by decide) _).trans
      (ih fun x hx => h x (List.mem_cons_of_mem _ hx))

/-- What a text defines is read from its file, and perhaps more. -/
theorem TextContent.all_sublist_reread (content : TextContent) :
    (all content.text).Sublist content.reread := by
  obtain ⟨marks, s, e, htext, hmarks, hdecode⟩ := content.decode?_encode
  unfold reread
  rw [hdecode, htext]
  exact all_marks_sublist hmarks s

variable {t u v : FileTree} {p : Path} {k : Key} {d : Definition}

theorem FileTree.mem_definitions_iff :
    d ∈ t.definitions p ↔ ∃ content, t.loadText p = .ok content ∧ d ∈ all content.text := by
  unfold definitions
  cases t.loadText p with
  | ok content => simp
  | error e => simp

theorem FileTree.definitions_of_encode {content : TextContent}
    (h : u.readFile p = .ok content.encode) : u.definitions p = content.reread := by
  unfold definitions loadText TextContent.reread
  rw [h]
  dsimp only
  cases TextContent.decode? content.encode <;> rfl

theorem FileTree.definitions_of_unread (h : (u.readFile p).toOption = none) : u.definitions p = [] := by
  unfold definitions loadText
  cases hread : u.readFile p with
  | error fault => rfl
  | ok bytes =>
    rw [hread] at h
    cases h

/-- A file that is read as before defines what it did. -/
theorem FileTree.mem_definitions_of_kept
    (h : ∀ bytes, t.readFile p = .ok bytes → u.readFile p = .ok bytes) (hd : d ∈ t.definitions p) :
    d ∈ u.definitions p := by
  obtain ⟨content, hload, hd⟩ := mem_definitions_iff.mp hd
  obtain ⟨bytes, hread, hdecode⟩ := Session.loadText_eq_ok_iff.mp hload
  exact mem_definitions_iff.mpr
    ⟨content, Session.loadText_eq_ok_iff.mpr ⟨bytes, h bytes hread, hdecode⟩, hd⟩

namespace Session

variable {o : Options} {s s' : Session} {mark : Text} {done : List OpenFile}

/-! ## The list of codes and the resource files beside it -/

/-- What a run needs to write only where it should: no temporary file is in its way, or where the path of
the list of codes leads; and this path goes up only where its directory is there, and is not lost among
links. The session `s` is the one after scanning. -/
structure Tame (t : FileTree) (o : Options) (mark : Text) (s : Session) : Prop
    extends Apart t o mark s where
  up : Path.upStep ∈ (o.target t).names → (t.siteKey? (o.target t)).isSome
  links : t.locate (o.target t) ≠ .error .tooManyLinks
  locate : ∀ f ∈ (s.settle o).changed, ∀ k, t.temporaryKey? mark f.path = some k →
    t.locate (o.target t) ≠ .ok k

theorem Tame.exists_account (h : Tame t o mark s) {savings : Nat → Saving}
    (hsavings : ∀ i, (savings i).Attempts mark)
    (hflush : (s.settle o).flushEach savings t = (u, s')) : ∃ done, Account t u o mark s s' done :=
  h.toApart.account (h.savable h.up h.links) hsavings hflush

/-- A list of codes that was not written is read as before. -/
theorem Tame.readFile_target (h : Tame t o mark s) (ha : Account t u o mark s s' done)
    (hnot : (s.settle o).target ∉ done) {bytes : List UInt8}
    (hread : t.readFile (o.target t) = .ok bytes) : u.readFile (o.target t) = .ok bytes := by
  obtain ⟨k, hk, hfile⟩ := readFile_eq_ok_iff.mp hread
  refine ha.wrote.readFile_of_kept hk hfile (fun g hg => ?_)
    fun g hg => ⟨fun hkey => h.locate g hg k hkey hk, h.link g hg⟩
  -- what was written is a resource file, which stands elsewhere
  rcases changed_cases (ha.changed g hg) with ⟨-, rfl⟩ | ⟨f, hf, rfl⟩
  · exact absurd hg hnot
  · rw [path_edited]
    refine ⟨(h.isResource hf).siteKey?_ne hk, fun k' l hkey hlink => ?_⟩
    obtain ⟨dir, name, hstands⟩ := (h.isResource hf).standsAt
    obtain ⟨bytes', hfile', -⟩ := hstands.file
    obtain rfl := Option.some.inj (hstands.site.siteKey?_eq.symm.trans hkey)
    exact nomatch hlink.symm.trans hfile'

/-- If nothing was written, a resource file is read as before. -/
theorem Apart.readFile_resource (h : Apart t o mark s) (ha : Account t u o mark s s' [])
    {f : OpenFile} (hf : f ∈ s.resources) {bytes : List UInt8}
    (hread : t.readFile f.path = .ok bytes) : u.readFile f.path = .ok bytes := by
  obtain ⟨dir, name, hstands⟩ := (h.isResource hf).standsAt
  obtain ⟨k, hk, hfile⟩ := readFile_eq_ok_iff.mp hread
  obtain rfl := Except.ok.inj (hstands.locate_eq.symm.trans hk)
  exact ha.wrote.readFile_of_kept hk hfile nofun
    fun g hg => ⟨not_temporary hstands h.slash g.path, h.link g hg⟩

theorem evolves_of_savedAt {bytes : List UInt8} (h : SavedAt t v mark p bytes k) :
    ∃ touched, Evolves t v touched := by
  obtain ⟨_, h, -⟩ := h.evolves
  exact ⟨_, h⟩

/-- The list of codes is dirty once definitions were moved to it. -/
theorem Stripped.dirty {new : List Definition} (h : Stripped s s' new)
    (hmoved : s.movedLines ≠ []) : s'.target.dirty = true := by
  have hlines : s.movedLines.isEmpty = false := by simpa using hmoved
  rw [h.target, OpenFile.dirty_append, OpenFile.dirty_append, hlines]
  simp

theorem Stripped.moved_ne_zero {new : List Definition} (h : Stripped s s' new)
    (hmoved : s.movedLines ≠ []) : s'.report.movedDefinitions ≠ 0 := by
  rw [h.moved]
  exact Nat.ne_of_gt (Nat.add_pos_right _ (List.length_pos_iff.mpr hmoved))

theorem movedLines_ne_nil {f : OpenFile} (hf : f ∈ s.resources) (hd : d ∈ all f.content.text) :
    s.movedLines ≠ [] := by
  rw [← all_strip_lines] at hd
  obtain ⟨line, hline, -⟩ := List.mem_flatMap.mp hd
  exact List.ne_nil_of_mem (List.mem_flatMap.mpr ⟨f, hf, hline⟩)

/-- What the list of codes defined is in the text that a strip run writes. -/
theorem Apart.mem_all_target (h : Apart t o mark s) {new : List Definition}
    (hs' : Stripped s s' new) (hd : d ∈ t.definitions (o.target t)) :
    d ∈ all s'.target.content.text := by
  obtain ⟨content, hload, hd⟩ := mem_definitions_iff.mp hd
  rw [hs'.all_target, (gathers_scanned h.sound h.scan).target]
  refine List.mem_append_left _ (List.mem_append_left _ ?_)
  rcases start_cases t o with ⟨k, content', -, hload', htarget, -⟩ | ⟨⟨fault, hfault⟩, -⟩ |
    ⟨⟨e, he⟩, -⟩
  · rw [hload] at hload'
    cases hload'
    rw [htarget]
    exact hd
  · obtain ⟨bytes, hread, -⟩ := loadText_eq_ok_iff.mp hload
    obtain ⟨k, hk, -⟩ := readFile_eq_ok_iff.mp hread
    rw [hk] at hfault
    cases hfault
  · rw [hload] at he
    cases he

/-- No definition is lost by a strip run, whichever of its saves fail: what the list of codes defined
it defines, and what a resource file defined is defined by the list of codes or by this file. -/
theorem strip_run_loses_no_definition {savings : Nat → Saving} {report : Report}
    (htame : Tame t o mark s) (hstrip : o.strip = true)
    (hsavings : ∀ i, (savings i).Attempts mark)
    (hrun : runEach savings t o = .ok (u, report)) :
    (∀ d ∈ t.definitions (o.target t), d ∈ u.definitions (o.target t)) ∧
      ∀ f ∈ s.resources, ∀ d ∈ t.definitions f.path,
        d ∈ u.definitions (o.target t) ∨ d ∈ u.definitions f.path := by
  obtain ⟨s₀, s', hscan, hflush, -⟩ := runEach_eq_ok_iff.mp hrun
  obtain rfl : s₀ = s := Except.ok.inj (hscan.symm.trans htame.scan)
  obtain ⟨new, hs', -⟩ := settle_strip s₀ hstrip
  obtain ⟨done, ha⟩ := htame.exists_account hsavings hflush
  -- once the list of codes is written, what its text defines is read from it
  have hsaved : (s₀.settle o).target ∈ done → ∀ d ∈ all (s₀.settle o).target.content.text,
      d ∈ u.definitions (o.target t) := by
    intro hmem d hd
    have hread := ha.wrote.readFile_eq htame.sound hmem
    rw [htame.target_path] at hread
    rw [definitions_of_encode hread]
    exact (TextContent.all_sublist_reread _).subset hd
  refine ⟨fun d hd => ?_, fun f hf d hd => ?_⟩
  · by_cases hmem : (s₀.settle o).target ∈ done
    · exact hsaved hmem d (htame.mem_all_target hs' hd)
    · exact mem_definitions_of_kept (fun _ => htame.readFile_target ha hmem) hd
  · have hd' : d ∈ all f.content.text := by
      obtain ⟨content, hload, hd⟩ := mem_definitions_iff.mp hd
      rw [(htame.isResource hf).load] at hload
      cases hload
      exact hd
    have hlines := movedLines_ne_nil hf hd'
    rcases ha.first (hs'.dirty hlines) (hs'.moved_ne_zero hlines) with hmem | rfl
    · refine Or.inl (hsaved hmem d ?_)
      rw [hs'.all_target]
      exact List.mem_append_left _ (List.mem_append_right _ (List.mem_flatMap.mpr ⟨f, hf, hd'⟩))
    · exact Or.inr (mem_definitions_of_kept (fun _ => htame.readFile_resource ha hf) hd)

/-! ## At its edges -/

/-- A run that ends with a result that passes a test. -/
theorem exists_of_any {α β : Type} {r : Except Error (α × β)} {test : α × β → Bool}
    (h : r.toOption.any test = true) : ∃ a b, r = .ok (a, b) ∧ test (a, b) = true := by
  cases r with
  | error e => cases h
  | ok x => exact ⟨x.1, x.2, rfl, h⟩

/-- One resource file below `root`. -/
def oneFile (text : String) : FileTree :=
  ((bare []).put ["root".toList] .directory).put ["root".toList, "a.uni".toList]
    (.file (Utf8.encode text.toList))

/-- One definition, in a file below `root`. -/
def oneDefinition : FileTree := oneFile "#string STR_A #language uqi \"x0001\"\n"

/-- A strip run of `root`. -/
def stripRoot (output : String) : Options where
  output := ⟨output.toList⟩
  roots := [⟨"root".toList⟩]
  strip := true

/-- Saves of which the first fails. -/
def failingFirst (mark : Text) : Nat → Saving
  | 0 => fun t p _ => (t, some (.file p .busy))
  | _ + 1 => fun t p content => t.replaceText mark p content

theorem attempts_failingFirst (mark : Text) (i : Nat) : (failingFirst mark i).Attempts mark := by
  cases i with
  | zero => exact fun t p _ => Or.inr ⟨t, _, rfl, _, .refl t, fun _ => False.elim⟩
  | succ i => exact attempts_replaceText mark

theorem tame_oneDefinition : ∃ s, s.resources.map OpenFile.path = [⟨"root/a.uni".toList⟩] ∧
    Tame oneDefinition (stripRoot "UqiList.uni") ['1'] s := by
  obtain ⟨s, hpaths, hapart⟩ : ∃ s, (s.settle (stripRoot "UqiList.uni")).changed.map OpenFile.path =
      [⟨"UqiList.uni".toList⟩, ⟨"root/a.uni".toList⟩] ∧
      Apart oneDefinition (stripRoot "UqiList.uni") ['1'] s :=
    exists_apart (by decide +kernel) (by decide) (by decide +kernel) (by decide +kernel)
  have hscan : (scanned oneDefinition (stripRoot "UqiList.uni")).toOption.map
      (fun s => s.resources.map OpenFile.path) = some [⟨"root/a.uni".toList⟩] := by decide +kernel
  have hlocate : ∀ p ∈ [(⟨"UqiList.uni".toList⟩ : Path), ⟨"root/a.uni".toList⟩],
      ∀ k ∈ oneDefinition.temporaryKey? ['1'] p,
        oneDefinition.locate ((stripRoot "UqiList.uni").target oneDefinition) ≠ .ok k := by
    decide +kernel
  rw [hapart.scan] at hscan
  exact ⟨s, Option.some.inj hscan, hapart, by decide +kernel, by decide +kernel,
    fun f hf => hlocate f.path (hpaths ▸ List.mem_map_of_mem hf)⟩

/-- A definition that the list of codes cannot take stays in its file. -/
theorem definition_stays_unmoved :
    ∃ u report,
      runEach (failingFirst ['1']) oneDefinition (stripRoot "UqiList.uni") = .ok (u, report) ∧
      report.succeeds = false ∧
      (⟨"STR_A".toList, ['x'], 1⟩ ∈ u.definitions ⟨"UqiList.uni".toList⟩ ∨
        ⟨"STR_A".toList, ['x'], 1⟩ ∈ u.definitions ⟨"root/a.uni".toList⟩) := by
  have hfails : (runEach (failingFirst ['1']) oneDefinition
      (stripRoot "UqiList.uni")).toOption.any (fun x => !x.2.succeeds) = true := by decide +kernel
  obtain ⟨u, report, hrun, hreport⟩ := exists_of_any hfails
  obtain ⟨s, hpaths, htame⟩ := tame_oneDefinition
  obtain ⟨f, hf, hpath⟩ := List.mem_map.mp (hpaths ▸ List.mem_singleton_self _)
  obtain ⟨-, hkept⟩ := strip_run_loses_no_definition htame rfl (attempts_failingFirst ['1']) hrun
  refine ⟨u, report, hrun, by simpa using hreport, ?_⟩
  have := hkept f hf ⟨"STR_A".toList, ['x'], 1⟩ (by rw [hpath]; decide +kernel)
  rwa [hpath] at this

/-- A row of links to a directory, as many as may lie on one way but two. -/
def linkRow : FileTree :=
  (List.range 37).foldl (fun t i => t.put [List.replicate (i + 1) 'c']
    (.link ⟨List.replicate (i + 2) 'c'⟩))
    ((oneDefinition.put ["d".toList] .directory).put
      [List.replicate 38 'c'] (.link ⟨"d".toList⟩))

/-- The row of links once more, behind a link `l` that the list of codes is to replace, and on the way
to it. -/
def linkedTwice : FileTree :=
  (linkRow.put ["l".toList] (.link ⟨"c".toList⟩)).put ["m".toList] (.link ⟨"l/..".toList⟩)

/-- A strip run succeeds and lists the list of codes and a stripped file, but the list cannot be read. -/
def LosesList (t : FileTree) (o : Options) : Prop :=
  ∃ u report, run (fun t p content => t.replaceText ['1'] p content) t o = .ok (u, report) ∧
    report.succeeds = true ∧ report.written = [o.output, ⟨"root/a.uni".toList⟩] ∧
    (u.readFile o.output).toOption = none ∧ u.definitions ⟨"root/a.uni".toList⟩ = []

theorem losesList_of_run {o : Options}
    (h : (run (fun t p content => t.replaceText ['1'] p content) t o).toOption.any (fun x =>
      x.2.succeeds && x.2.written == [o.output, ⟨"root/a.uni".toList⟩] &&
        (x.1.readFile o.output).toOption == none &&
        x.1.definitions ⟨"root/a.uni".toList⟩ == []) = true) : LosesList t o := by
  obtain ⟨u, report, hrun, htest⟩ := exists_of_any h
  simp only [Bool.and_eq_true, beq_iff_eq] at htest
  exact ⟨u, report, hrun, htest.1.1.1, htest.1.1.2, htest.1.2, htest.2⟩

/-- The saved file takes the place of the link `l`, which the path to it went through. -/
theorem losesList_linkedTwice : LosesList linkedTwice (stripRoot "m/l") :=
  losesList_of_run (by decide +kernel)

/-- The saved file is written over by the temporary file for the other one. -/
theorem losesList_temporary : LosesList oneDefinition (stripRoot "root/.a.uni.1.tmp") :=
  losesList_of_run (by decide +kernel)

/-- Where the path of the list of codes goes through the link that it ends in, the saved file takes the
place of that link, and nothing leads to it any more. The path leads to a directory then, unless there
are too many links on its way. -/
theorem definition_lost_among_links :
    ∃ u report, run (fun t p content => t.replaceText ['1'] p content) linkedTwice
        (stripRoot "m/l") = .ok (u, report) ∧
      report.succeeds = true ∧ Path.upStep ∉ ((stripRoot "m/l").target linkedTwice).pieces ∧
      linkedTwice.locate ⟨"m/l".toList⟩ = .error .tooManyLinks ∧
      ⟨"STR_A".toList, ['x'], 1⟩ ∈ linkedTwice.definitions ⟨"root/a.uni".toList⟩ ∧
      u.definitions ⟨"m/l".toList⟩ = [] ∧ u.definitions ⟨"root/a.uni".toList⟩ = [] := by
  obtain ⟨u, report, hrun, hsucceeds, -, hunread, hbare⟩ := losesList_linkedTwice
  exact ⟨u, report, hrun, hsucceeds, by decide +kernel, by decide +kernel, by decide +kernel,
    FileTree.definitions_of_unread hunread, hbare⟩

/-- A list of codes with the name of the temporary file for a resource file is written over when that
is saved. -/
theorem definition_lost_at_temporary :
    ∃ u report, run (fun t p content => t.replaceText ['1'] p content) oneDefinition
        (stripRoot "root/.a.uni.1.tmp") = .ok (u, report) ∧
      report.succeeds = true ∧
      u.definitions ⟨"root/.a.uni.1.tmp".toList⟩ = [] ∧
      u.definitions ⟨"root/a.uni".toList⟩ = [] := by
  obtain ⟨u, report, hrun, hsucceeds, -, hunread, hbare⟩ := losesList_temporary
  exact ⟨u, report, hrun, hsucceeds, FileTree.definitions_of_unread hunread, hbare⟩

end Session

end FirmwareIds
