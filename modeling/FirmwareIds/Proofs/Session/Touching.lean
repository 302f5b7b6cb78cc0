import FirmwareIds.Proofs.Session.Keeping

/-!
# A run touches what it reports

A run that ends early has saved nothing, and neither has one that is to change nothing. Whatever else a
run does and whichever of its saves fail, the files that its report lists hold the texts in memory, and
every other file is as it was, but for what bore the name of a temporary file
(`run_touches_what_it_reports`).

This is the account of a run (`Account`), together with the encodings of the files that were read
(`Apart.encoding_eq`).
-/

namespace FirmwareIds

open FileTree

namespace Session

variable {t u : FileTree} {o : Options} {s : Session} {mark : Text} {f : OpenFile}

/-- A file is written in the encoding that it was read in; a list of codes that was not there, in the
usual one. -/
theorem Apart.encoding_eq (h : Apart t o mark s) (hf : f ∈ (s.settle o).changed) :
    (∃ old, t.loadText f.path = .ok old ∧ f.content.encoding = old.encoding) ∨
      f.path = o.target t ∧ (∃ fault, t.locate f.path = .error fault) ∧
        f.content.encoding = .utf8 := by
  rcases changed_cases hf with ⟨hmay, rfl⟩ | ⟨f₀, hf₀, rfl⟩
  · have hgathers := gathers_scanned h.sound h.scan
    have hencoding : (s.settle o).target.content.encoding =
        (start t o).target.content.encoding := by
      obtain ⟨lines, -, htarget⟩ := s.target_settle o
      rw [htarget, OpenFile.encoding_append, hgathers.target]
    rw [mayWrite_settle, hgathers.mayWrite] at hmay
    rw [h.target_path, hencoding]
    rcases start_cases t o with ⟨_, old, -, hload, htarget, -⟩ | ⟨hfault, htarget, -⟩ | ⟨-, -, hnot⟩
    · exact Or.inl ⟨old, hload, by rw [htarget]⟩
    · exact Or.inr ⟨rfl, hfault, by rw [htarget]⟩
    · rw [hmay] at hnot
      cases hnot
  · rw [path_edited, encoding_edited]
    exact Or.inl ⟨_, (h.isResource hf₀).load, rfl⟩

/-! ## Runs that end early -/

theorem walk_isOk_iff (t : FileTree) (root : Path) (excluded : List Path) :
    (∃ found, t.walk root excluded = .ok found) ↔ t.isDirectory root = true := by
  unfold walk isDirectory
  cases t.locate root with
  | error fault => simp
  | ok k =>
    dsimp only
    split
    · next hk => simp [hk]
    · next hk =>
      rw [Decidable.not_not.mp hk]
      split <;> simp

theorem scanAll_isOk_iff {excluded roots : List Path} :
    (∃ s', scanAll t excluded s roots = .ok s') ↔ ∀ root ∈ roots, t.isDirectory root = true := by
  induction roots generalizing s with
  | nil => exact ⟨fun _ => nofun, fun _ => ⟨s, rfl⟩⟩
  | cons root roots ih =>
    rw [List.forall_mem_cons, ← walk_isOk_iff t root excluded]
    constructor
    · rintro ⟨s', h⟩
      obtain ⟨s₁, hscan, hrest⟩ := scanAll_cons_eq_ok_iff.mp h
      obtain ⟨found, hwalk, -⟩ := scan_eq_ok_iff.mp hscan
      exact ⟨⟨found, hwalk⟩, ih.mp ⟨s', hrest⟩⟩
    · rintro ⟨⟨found, hwalk⟩, hrest⟩
      obtain ⟨s', h⟩ := ih.mpr hrest
      exact ⟨s', scanAll_cons_eq_ok_iff.mpr ⟨_, scan_eq_ok_iff.mpr ⟨found, hwalk, rfl⟩, h⟩⟩

theorem exclusions_isOk_iff : (∃ excluded, o.exclusions = .ok excluded) ↔
    ∀ dir ∈ o.excluded, ∀ root ∈ o.roots, dir.same root = false := by
  unfold Options.exclusions
  cases hfind : o.excluded.find? fun dir => o.roots.any (dir.same ·) with
  | none =>
    have hnone := List.find?_eq_none.mp hfind
    refine ⟨fun _ dir hdir root hroot => ?_, fun _ => ⟨_, rfl⟩⟩
    have := hnone dir hdir
    simp only [List.any_eq_true, not_exists, not_and, Bool.not_eq_true] at this
    exact this root hroot
  | some dir =>
    have hany := List.find?_some hfind
    obtain ⟨root, hroot, hsame⟩ := List.any_eq_true.mp hany
    refine ⟨nofun, fun hall => ?_⟩
    rw [hall dir (List.mem_of_find?_eq_some hfind) root hroot] at hsame
    cases hsame

/-- A run ends with a report if there are roots, none of them is excluded, and each leads to a directory.
How its saves go does not matter. -/
theorem runEach_isOk_iff (savings : Nat → Saving) (t : FileTree) (o : Options) :
    (∃ x, runEach savings t o = .ok x) ↔
    o.roots ≠ [] ∧ (∀ dir ∈ o.excluded, ∀ root ∈ o.roots, dir.same root = false) ∧
      ∀ root ∈ o.roots, t.isDirectory root = true := by
  rw [← exclusions_isOk_iff]
  constructor
  · rintro ⟨⟨u, r⟩, h⟩
    obtain ⟨s, s', hscan, -, -⟩ := runEach_eq_ok_iff.mp h
    obtain ⟨hroots, excluded, hexcluded, hall⟩ := scanned_eq_ok_iff.mp hscan
    exact ⟨hroots, ⟨excluded, hexcluded⟩, scanAll_isOk_iff.mp ⟨s, hall⟩⟩
  · rintro ⟨hroots, ⟨excluded, hexcluded⟩, hall⟩
    obtain ⟨s, hs⟩ := scanAll_isOk_iff.mpr hall
    exact ⟨_, runEach_eq_ok_iff.mpr
      ⟨s, _, scanned_eq_ok_iff.mpr ⟨hroots, excluded, hexcluded, hs⟩, rfl, rfl⟩⟩

/-- The tree that a run leaves. One that ends early leaves it as it is. -/
def treeAfter (savings : Nat → Saving) (t : FileTree) (o : Options) : FileTree :=
  match runEach savings t o with
  | .ok (u, _) => u
  | .error _ => t

theorem treeAfter_of_ok {savings : Nat → Saving} {r : Report}
    (h : runEach savings t o = .ok (u, r)) : treeAfter savings t o = u := by
  rw [treeAfter, h]

/-- A run that is to change nothing writes nothing. -/
theorem treeAfter_of_idle {savings : Nat → Saving} (hupdate : o.update = false)
    (hstrip : o.strip = false) : treeAfter savings t o = t := by
  unfold treeAfter
  cases hrun : runEach savings t o with
  | error e => rfl
  | ok x =>
    obtain ⟨s, s', hscan, hflush, -⟩ := runEach_eq_ok_iff.mp hrun
    have hcollected := collected_scanned hscan
    obtain ⟨new, hsame, hnew⟩ := s.sameFiles_settle o
    have htarget : (s.settle o).target = s.target := by
      rw [hsame.target, hnew hupdate, prepared, hstrip]
      rfl
    have hclean : (s.settle o).flushEach savings t = (t, s.settle o) := flushEach_of_clean
      (htarget ▸ hcollected.target) (s.resources_settle_of_keep hstrip ▸ hcollected.clean)
    exact congrArg Prod.fst (hflush.symm.trans hclean)

/-- A run touches what its report lists. It ends early if there is no root, or one is excluded or leads
to no directory; then the tree is as it was, and so it is if neither codes are to be assigned nor files
to be stripped. Otherwise, whichever saves fail, every entry is as it was that no listed path leads to,
but at the places of temporary files, and every listed path leads to the text in memory, in the encoding
it was read in. -/
theorem run_touches_what_it_reports (savings : Nat → Saving) (t : FileTree) (o : Options) :
    (((∃ e, runEach savings t o = .error e) ↔ o.roots = [] ∨
        (∃ dir ∈ o.excluded, ∃ root ∈ o.roots, dir.same root = true) ∨
        ∃ root ∈ o.roots, t.isDirectory root = false) ∧
      ((∃ e, runEach savings t o = .error e) → treeAfter savings t o = t)) ∧
    (o.update = false → o.strip = false → treeAfter savings t o = t) ∧
    ∀ mark s u r, Apart t o mark s →
      (Path.upStep ∈ (o.target t).names → (t.siteKey? (o.target t)).isSome) →
      t.locate (o.target t) ≠ .error .tooManyLinks → (∀ i, (savings i).Attempts mark) →
      runEach savings t o = .ok (u, r) → treeAfter savings t o = u ∧
        (∀ k e, t.get? k = some e → (∀ p ∈ r.written, u.locate p ≠ .ok k) →
          (∀ f ∈ (s.settle o).changed, t.temporaryKey? mark f.path ≠ some k) →
          u.get? k = some e) ∧
        ∀ p ∈ r.written, ∃ f ∈ (s.settle o).changed, f.path = p ∧
          u.readFile p = .ok f.content.encode ∧
          ((∃ old, t.loadText p = .ok old ∧ f.content.encoding = old.encoding) ∨
            p = o.target t ∧ (∃ fault, t.locate p = .error fault) ∧ f.content.encoding = .utf8) := by
  refine ⟨⟨?_, ?_⟩, treeAfter_of_idle, ?_⟩
  · have hok := runEach_isOk_iff savings t o
    have herror : (∃ e, runEach savings t o = .error e) ↔ ¬ ∃ x, runEach savings t o = .ok x := by
      cases runEach savings t o <;> simp
    rw [herror, hok]
    simp only [not_and_or, not_forall, Decidable.not_not, Bool.not_eq_false, Bool.not_eq_true,
      exists_prop]
  · rintro ⟨e, he⟩
    rw [treeAfter, he]
  · intro mark s u r h hup hlinks hsavings hrun
    obtain ⟨s₀, s', hscan, hflush, rfl⟩ := runEach_eq_ok_iff.mp hrun
    obtain rfl : s₀ = s := Except.ok.inj (hscan.symm.trans h.scan)
    obtain ⟨done, ha⟩ := h.account (h.savable hup hlinks) hsavings hflush
    refine ⟨treeAfter_of_ok hrun, fun k e he hlisted htemporary => ?_, fun p hp => ?_⟩
    · refine ha.wrote.get?_eq h.sound he (fun f hf => hlisted f.path ?_) htemporary
      rw [ha.listed]
      exact List.mem_map_of_mem hf
    · rw [ha.listed] at hp
      obtain ⟨f, hf, rfl⟩ := List.mem_map.mp hp
      exact ⟨f, ha.changed f hf, rfl, ha.wrote.readFile_eq h.sound hf,
        h.encoding_eq (ha.changed f hf)⟩

/-- A strip run that moves one definition lists both files, and both hold what they should. -/
theorem listed_files_of_oneDefinition :
    ∃ u r, runEach (fun _ t p content => t.replaceText ['1'] p content) oneDefinition
        (stripRoot "UqiList.uni") = .ok (u, r) ∧
      r.written = [⟨"UqiList.uni".toList⟩, ⟨"root/a.uni".toList⟩] ∧
      u.get? ["root".toList] = some .directory ∧
      ∀ p ∈ r.written, ∃ f : OpenFile, f.path = p ∧ u.readFile p = .ok f.content.encode := by
  have hlists : (runEach (fun _ t p content => t.replaceText ['1'] p content) oneDefinition
      (stripRoot "UqiList.uni")).toOption.any (fun x => x.2.written ==
        [⟨"UqiList.uni".toList⟩, ⟨"root/a.uni".toList⟩] &&
        x.2.written.all fun p => x.1.locate p != .ok ["root".toList]) = true := by decide +kernel
  obtain ⟨u, r, hrun, htest⟩ := exists_of_any hlists
  obtain ⟨hwritten, hroot⟩ := Bool.and_eq_true_iff.mp htest
  obtain ⟨s, hpaths, htame⟩ := tame_oneDefinition
  obtain ⟨-, -, hrest⟩ := run_touches_what_it_reports
    (fun _ t p content => t.replaceText ['1'] p content) oneDefinition (stripRoot "UqiList.uni")
  obtain ⟨-, hkept, hholds⟩ := hrest ['1'] s u r htame.toApart htame.up htame.links
    (fun _ => attempts_replaceText ['1']) hrun
  refine ⟨u, r, hrun, beq_iff_eq.mp hwritten, hkept _ _ (by decide +kernel) ?_ ?_, fun p hp => ?_⟩
  · intro p hp
    simpa using List.all_eq_true.mp hroot p hp
  · intro f hf hkey
    have hvacant : ∀ p ∈ [(⟨"UqiList.uni".toList⟩ : Path), ⟨"root/a.uni".toList⟩],
        oneDefinition.temporaryKey? ['1'] p ≠ some ["root".toList] := by decide +kernel
    have hpath := path_of_mem_changed hf
    rw [← s.target_path_settle (stripRoot "UqiList.uni"), htame.target_path, hpaths] at hpath
    exact hvacant f.path (List.mem_cons.mpr hpath) hkey
  · obtain ⟨f, -, hpath, hread, -⟩ := hholds p hp
    exact ⟨f, hpath, hread⟩

/-- Two lists of codes that are listed and lost. The one is saved among so many links that its path leads
nowhere; the other bears the name of the temporary file for a resource file, which is saved after it. -/
theorem listed_file_lost :
    (∃ u r, run (fun t p content => t.replaceText ['1'] p content) linkedTwice
        (stripRoot "m/l") = .ok (u, r) ∧
      r.written = [⟨"m/l".toList⟩, ⟨"root/a.uni".toList⟩] ∧
      Path.upStep ∉ ((stripRoot "m/l").target linkedTwice).pieces ∧
      (∀ p ∈ r.written, ∀ k l, linkedTwice.temporaryKey? ['1'] p = some k →
        linkedTwice.get? k ≠ some (.link l)) ∧
      ∀ bytes, u.readFile ⟨"m/l".toList⟩ ≠ .ok bytes) ∧
    ∃ u r, run (fun t p content => t.replaceText ['1'] p content) oneDefinition
        (stripRoot "root/.a.uni.1.tmp") = .ok (u, r) ∧
      r.written = [⟨"root/.a.uni.1.tmp".toList⟩, ⟨"root/a.uni".toList⟩] ∧
      (∀ x ∈ oneDefinition.entries, ∀ l, x.2 ≠ .link l) ∧
      ∀ bytes, u.readFile ⟨"root/.a.uni.1.tmp".toList⟩ ≠ .ok bytes := by
  have hunread : ∀ {u : FileTree} {p : Path}, (u.readFile p).toOption = none →
      ∀ bytes, u.readFile p ≠ .ok bytes := fun h bytes hbytes => by rw [hbytes] at h; cases h
  constructor
  · obtain ⟨u, r, hrun, -, hwritten, hunread', -⟩ := losesList_linkedTwice
    have hvacant : ∀ p ∈ [(⟨"m/l".toList⟩ : Path), ⟨"root/a.uni".toList⟩],
        ((linkedTwice.temporaryKey? ['1'] p).bind linkedTwice.get?) = none := by decide +kernel
    refine ⟨u, r, hrun, hwritten, by decide +kernel, fun p hp k l hk hlink => ?_, hunread hunread'⟩
    have hnone := hvacant p (hwritten ▸ hp)
    rw [hk, Option.bind_some, hlink] at hnone
    cases hnone
  · obtain ⟨u, r, hrun, -, hwritten, hunread', -⟩ := losesList_temporary
    have hlinks : ∀ x ∈ oneDefinition.entries, isLink x.2 = false := by decide +kernel
    exact ⟨u, r, hrun, hwritten, fun x hx => ne_link_of_isLink (hlinks x hx), hunread hunread'⟩

end Session

end FirmwareIds
