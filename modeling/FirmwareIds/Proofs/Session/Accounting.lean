import FirmwareIds.Proofs.Session.Collecting
import FirmwareIds.Proofs.Session.Flushing

/-!
# The account of a run

A run writes the list of codes and then, one by one, the resource files that have changed. `Wrote` keeps
the account: which files were written so far, that they hold their texts (`Holds`), and that nothing else
was touched. One save preserves it (`Wrote.save`), for a file whose save spares those written before
(`Spares`). So a row of saves does (`wrote_foldl`), behind the save of the list of codes
(`Apart.account`).

What the account says of a key or a path is all that is needed of a run afterwards: what was written is
where its path leads (`Wrote.locate_eq`), and what no save has come near is there as it was
(`Wrote.kept`, `Wrote.readFile_of_kept`).
-/

namespace FirmwareIds

open FileTree

namespace Session

variable {t u v x y : FileTree} {o : Options} {s : Session} {mark : Text} {fs : List OpenFile}
  {f g : OpenFile} {p : Path} {k : Key} {dir : Key} {name : Text} {touched : Key → Prop}

/-! ## Places of the files -/

theorem start_target_path (t : FileTree) (o : Options) :
    (start t o).target.path = o.target t := by
  rcases start_cases t o with ⟨_, _, -, -, h, -⟩ | ⟨-, h, -⟩ | ⟨-, h, -⟩ <;> rw [h]

/-- The list of codes may be saved at its path. -/
theorem savable_target (hmark : '/' ∉ mark)
    (hup : Path.upStep ∈ (o.target t).names → (t.siteKey? (o.target t)).isSome)
    (hlinks : t.locate (o.target t) ≠ .error .tooManyLinks)
    (hlink : ∀ k l, t.temporaryKey? mark (o.target t) = some k → t.get? k ≠ some (.link l))
    (hmay : (start t o).mayWrite = true) : t.Savable mark (o.target t) := by
  refine savable_of_locate hmark hlink hlinks ?_ hup
  unfold isDirectory
  rcases start_cases t o with ⟨k, content, hk, hload, -⟩ | ⟨⟨fault, hfault⟩, -⟩ | ⟨-, -, hnot⟩
  · obtain ⟨bytes, hread, -⟩ := loadText_eq_ok_iff.mp hload
    obtain ⟨k', hk', hfile⟩ := readFile_eq_ok_iff.mp hread
    rw [hk']
    simp [hfile]
  · rw [hfault]
  · rw [hmay] at hnot
    cases hnot

/-- No resource file stands at the place of a temporary file. -/
theorem not_temporary {f : OpenFile} {dir : Key} {name : Text} (hstands : StandsAt t f dir name)
    (hmark : '/' ∉ mark) (p : Path) : t.temporaryKey? mark p ≠ some (dir ++ [name]) := by
  intro hkey
  obtain ⟨tdir, tname, hsite, heq⟩ := siteKey?_eq_some_iff.mp hkey
  have hname : name = tname := List.singleton_inj.mp (List.append_inj' heq rfl).2
  have hlast : tname = temporaryName mark p :=
    Option.some.inj (hsite.last.symm.trans (getLast?_pieces_temporary hmark p))
  -- the one ends in `.uni`, the other in `.tmp`
  obtain ⟨front, hfront⟩ := hstands.resource
  have hends : front ++ ".uni".toList = ('.' :: p.fileName?.getD [] ++ '.' :: mark) ++ ".tmp".toList := by
    rw [hfront, hname, hlast]
    simp [temporaryName]
  exact absurd (List.append_inj' hends rfl).2 (by decide)

/-! ## Files that were written -/

/-- The text of a file is where its path leads in the tree `x`: in a directory that was there in the
tree `t` as well, or has been made since. -/
structure Holds (t x : FileTree) (f : OpenFile) (dir : Key) (name : Text) : Prop where
  site : x.Site f.path dir name
  separator : f.path.endsWithSeparator = false
  before : t.Site f.path dir name ∨ t.get? dir = none
  file : x.get? (dir ++ [name]) = some (.file f.content.encode)

theorem holds_of_savedAt {place : Key} (h : SavedAt t x mark f.path f.content.encode place) :
    ∃ dir name, place = dir ++ [name] ∧ Holds t x f dir name := by
  obtain ⟨dir, name, rfl, hsite, hbefore⟩ := h.site
  exact ⟨dir, name, rfl, hsite, h.separator, hbefore, h.file⟩

theorem Holds.locate_eq (h : Holds t x f dir name) (hs : x.Sound) :
    x.locate f.path = .ok (dir ++ [name]) :=
  h.site.locate_eq h.separator (hs.parent dir name _ h.file).2.2.2.2.2 h.file nofun

theorem Holds.readFile_eq (h : Holds t x f dir name) (hs : x.Sound) :
    x.readFile f.path = .ok f.content.encode :=
  readFile_eq_ok_iff.mpr ⟨_, h.locate_eq hs, h.file⟩

/-- In a directory that was there, the path led to the same place. -/
theorem Holds.siteKey?_eq (h : Holds t x f dir name) (hdir : t.get? dir = some .directory) :
    t.siteKey? f.path = some (dir ++ [name]) := by
  rcases h.before with hsite | hnone
  · exact hsite.siteKey?_eq
  · exact nomatch hdir.symm.trans hnone

/-- The text stays through a change that leaves its place alone, or puts the same text there. -/
theorem Holds.kept (h : Holds t x f dir name) (hxy : Evolves x y touched)
    (hfile : touched (dir ++ [name]) → y.get? (dir ++ [name]) = some (.file f.content.encode)) :
    Holds t y f dir name := by
  refine ⟨hxy.site h.site, h.separator, h.before, ?_⟩
  by_cases htouched : touched (dir ++ [name])
  · exact hfile htouched
  · exact hxy.get?_eq htouched h.file

/-- Once the file `f` is saved, a save of `g` leaves its text where it is: `f` does not stand at the
place of the temporary file for `g`, nor has it another text if it stands at the place of `g`. -/
structure Spares (t : FileTree) (mark : Text) (f g : OpenFile) : Prop where
  temporary : ∀ k, t.siteKey? f.path = some k → t.temporaryKey? mark g.path ≠ some k
  content : f.path.endsWithSeparator = false → ∀ k, t.siteKey? f.path = some k →
    t.siteKey? g.path = some k → f.content = g.content

/-- From `t` to `x` the files `done` were written, and writing the files `tried` was tried. What else was
touched is the places of temporary files, and keys at which nothing was. -/
structure Wrote (t x : FileTree) (mark : Text) (tried done : List OpenFile) : Prop where
  evolves : ∃ touched, Evolves t x touched ∧ ∀ k, touched k →
    (∃ f ∈ done, t.siteKey? f.path = some k) ∨
      (∃ f ∈ tried, t.temporaryKey? mark f.path = some k) ∨ t.get? k = none
  holds : ∀ f ∈ done, ∃ dir name, Holds t x f dir name

variable {tried done : List OpenFile}

theorem Wrote.refl (t : FileTree) (mark : Text) (tried : List OpenFile) :
    Wrote t t mark tried [] :=
  ⟨⟨_, .refl t, fun _ => False.elim⟩, nofun⟩

/-- The account after one save, by which the file `f` was written. -/
theorem wrote_of_savedAt (hs : t.Sound) {place : Key}
    (h : SavedAt t x mark f.path f.content.encode place) (hf : f ∈ tried) : Wrote t x mark tried [f] := by
  obtain ⟨temporary, hevolves, -, -, htemporary, -⟩ := h.evolves
  obtain ⟨dir, name, rfl, hholds⟩ := holds_of_savedAt h
  refine ⟨⟨_, hevolves, fun k hk => ?_⟩, fun f' hf' => List.mem_singleton.mp hf' ▸ ⟨dir, name, hholds⟩⟩
  rcases hk with rfl | rfl
  · rcases hholds.before with hsite | hnone
    · exact Or.inl ⟨f, List.mem_singleton_self _, hsite.siteKey?_eq⟩
    · exact Or.inr (Or.inr (hs.get?_eq_none hnone name))
  · exact Or.inr (htemporary.imp_left fun hkey => ⟨f, hf, hkey⟩)

/-- The account after one save, which has failed. -/
theorem wrote_of_failedAt (h : FailedAt t x mark f.path) (hf : f ∈ tried) :
    Wrote t x mark tried [] := by
  obtain ⟨touched, hevolves, htouched⟩ := h
  exact ⟨⟨touched, hevolves, fun k hk =>
    Or.inr ((htouched k hk).imp_left fun hkey => ⟨f, hf, hkey⟩)⟩, nofun⟩

/-- A save of a resource file leaves in place what was written before. -/
theorem Holds.save (h : Holds t x f dir name) (hready : Ready t mark fs) {g₀ : OpenFile}
    (hg : g₀ ∈ fs) (hpath : g.path = g₀.path) (hspares : Spares t mark f g)
    (hxy : Evolves x y touched) {e? : Option Error}
    (htouched : ∀ k, touched k → e? = none ∧ t.siteKey? g.path = some k ∨
      t.temporaryKey? mark g.path = some k ∨ x.get? k = none)
    (hfile : e? = none → ∀ k, t.siteKey? g.path = some k →
      y.get? k = some (.file g.content.encode)) : Holds t y f dir name := by
  obtain ⟨gdir, gname, hstands⟩ := hready.stands g₀ hg
  have hsite := hpath ▸ hstands.site
  have hdir := hstands.site.directory
  refine h.kept hxy fun hk => ?_
  rcases htouched _ hk with ⟨hnone, hkey⟩ | hkey | hvacant
  · -- `g` stands at the same place, and was saved with the same text
    obtain ⟨rfl, -⟩ := List.append_inj' (Option.some.inj (hsite.siteKey?_eq.symm.trans hkey)) rfl
    rw [hspares.content h.separator _ (h.siteKey?_eq hdir) hkey]
    exact hfile hnone _ hkey
  · -- the temporary file for `g` lies beside `g`
    obtain ⟨-, hplace⟩ := hsite.temporaryKey?_eq hready.slash (.refl t) hkey
    obtain ⟨rfl, -⟩ := List.append_inj' hplace rfl
    exact absurd hkey (hspares.temporary _ (h.siteKey?_eq hdir))
  · exact nomatch hvacant.symm.trans h.file

/-- One save of a resource file. -/
theorem Wrote.save (hx : Wrote t x mark tried done) (h : Ready t mark fs) {saving : Saving}
    (hsaving : saving.Attempts mark) (hf : f ∈ fs) (hpath : g.path = f.path) (hg : g ∈ tried)
    (hspares : ∀ f ∈ done, Spares t mark f g) {e? : Option Error}
    (hy : saving x g.path g.content = (y, e?)) :
    Wrote t y mark tried (if e? = none then done ++ [g] else done) := by
  obtain ⟨touched, htx, htouched⟩ := hx.evolves
  obtain ⟨touched', hxy, htouched', hfile⟩ := h.save htx hsaving hf (hpath ▸ hy)
  rw [← hpath] at htouched' hfile
  have hkept : ∀ f ∈ done, ∃ dir name, Holds t y f dir name := by
    intro f' hf'
    obtain ⟨dir, name, hholds⟩ := hx.holds f' hf'
    exact ⟨dir, name, hholds.save h hf hpath (hspares f' hf') hxy htouched' hfile⟩
  refine ⟨⟨_, htx.trans hxy, fun k hk => ?_⟩, fun f' hf' => ?_⟩
  · have hold : touched k → (∃ f ∈ if e? = none then done ++ [g] else done,
        t.siteKey? f.path = some k) ∨
        (∃ f ∈ tried, t.temporaryKey? mark f.path = some k) ∨ t.get? k = none := by
      intro hk
      refine (htouched k hk).imp_left ?_
      rintro ⟨f', hf', hkey⟩
      refine ⟨f', ?_, hkey⟩
      split
      · exact List.mem_append_left _ hf'
      · exact hf'
    rcases hk with hk | hk
    · exact hold hk
    · rcases htouched' k hk with ⟨hnone, hkey⟩ | hkey | hvacant
      · rw [if_pos hnone]
        exact Or.inl ⟨g, List.mem_append_right _ (List.mem_singleton_self _), hkey⟩
      · exact Or.inr (Or.inl ⟨g, hg, hkey⟩)
      · exact (htx.touched_or_none hvacant).elim hold fun hnone => Or.inr (Or.inr hnone)
  · split at hf'
    · next hnone =>
      rcases List.mem_append.mp hf' with hf' | hf'
      · exact hkept f' hf'
      · obtain rfl := List.mem_singleton.mp hf'
        obtain ⟨dir, name, hstands⟩ := h.stands f hf
        have hsite := hpath ▸ hstands.site
        exact ⟨dir, name, (htx.trans hxy).site hsite, hpath ▸ hstands.separator, Or.inl hsite,
          hfile hnone _ hsite.siteKey?_eq⟩
    · exact hkept f' hf'

/-- A row of saves, each made in a way of its own: the report lists those that succeeded, and has an issue
for the others. -/
theorem wrote_foldl {savings : Nat → Saving} (hsavings : ∀ i, (savings i).Attempts mark)
    (h : Ready t mark fs) {changed : List OpenFile}
    (hchanged : ∀ g ∈ changed, g ∈ tried ∧ ∃ f ∈ fs, g.path = f.path)
    (hspares : ∀ f ∈ done ++ changed, ∀ g ∈ changed, Spares t mark f g) (n : Nat) (s : Session)
    (hx : Wrote t x mark tried done) :
    ∃ more, (∀ f ∈ more, f ∈ changed) ∧
      ((changed.zipIdx n).foldl (fun (t, s) (f, i) => s.save (savings i) t f)
        (x, s)).2.report.written = s.report.written ++ more.map OpenFile.path ∧
      (∀ f ∈ changed, f ∈ more ∨ ((changed.zipIdx n).foldl
        (fun (t, s) (f, i) => s.save (savings i) t f) (x, s)).2.HasUnsaved) ∧
      Wrote t ((changed.zipIdx n).foldl (fun (t, s) (f, i) => s.save (savings i) t f) (x, s)).1 mark
        tried (done ++ more) := by
  induction changed generalizing n s x done with
  | nil => exact ⟨[], nofun, by simp, nofun, by simpa using hx⟩
  | cons g changed ih =>
    obtain ⟨y, e?, hy⟩ : ∃ y e?, savings n x g.path g.content = (y, e?) := ⟨_, _, rfl⟩
    obtain ⟨hg, f, hf, hpath⟩ := hchanged g (List.mem_cons_self ..)
    have hstep := hx.save h (hsavings n) hf hpath hg (fun f hf =>
      hspares f (List.mem_append_left _ hf) g (List.mem_cons_self ..)) hy
    have hchanged' := fun g hg => hchanged g (List.mem_cons_of_mem _ hg)
    rw [foldl_save_cons hy]
    cases e? with
    | none =>
      rw [if_pos rfl] at hstep
      have hspares' : ∀ f ∈ (done ++ [g]) ++ changed, ∀ g ∈ changed, Spares t mark f g :=
        fun f hf g' hg' => hspares f (by simpa using hf) g' (List.mem_cons_of_mem _ hg')
      obtain ⟨more, hmore, hwritten, hnoted, hwrote⟩ :=
        ih hchanged' hspares' (n + 1) (s.saved g.path none) hstep
      refine ⟨g :: more, List.cons_subset_cons g hmore, ?_, fun f' hf' => ?_, by simpa using hwrote⟩
      · rw [hwritten, List.map_cons]
        exact List.append_assoc ..
      · rcases List.mem_cons.mp hf' with rfl | hf'
        · exact Or.inl (List.mem_cons_self ..)
        · exact (hnoted f' hf').imp_left (List.mem_cons_of_mem _)
    | some e =>
      rw [if_neg nofun] at hstep
      have hspares' : ∀ f ∈ done ++ changed, ∀ g ∈ changed, Spares t mark f g :=
        fun f hf g' hg' => hspares f (by grind) g' (List.mem_cons_of_mem _ hg')
      obtain ⟨more, hmore, hwritten, -, hwrote⟩ :=
        ih hchanged' hspares' (n + 1) (s.saved g.path (some e)) hstep
      -- the issue of this save stays to the end
      have hunsaved : (s.saved g.path (some e)).HasUnsaved :=
        ⟨_, List.mem_append_right _ (List.mem_singleton_self _), rfl⟩
      exact ⟨more, fun f' hf' => List.mem_cons_of_mem _ (hmore f' hf'), hwritten,
        fun _ _ => Or.inr ((notesWrites_foldl savings changed _ _ _).hasUnsaved hunsaved), hwrote⟩

/-! ## The files of a run -/

/-- The files that a run is to write: those that changed, but not a list of codes that could not be
read. -/
def changed (s : Session) : List OpenFile :=
  ((if s.mayWrite then [s.target] else []) ++ s.resources).filter OpenFile.dirty

theorem mem_changed_iff : f ∈ s.changed ↔
    (s.mayWrite = true ∧ f = s.target ∨ f ∈ s.resources) ∧ f.dirty = true := by
  rw [changed, List.mem_filter, List.mem_append]
  cases s.mayWrite <;> simp

/-- What a run is to write is the list of codes, or what became of a resource file. -/
theorem changed_cases (h : f ∈ (s.settle o).changed) :
    (s.settle o).mayWrite = true ∧ f = (s.settle o).target ∨ ∃ f₀ ∈ s.resources, edited o f₀ = f := by
  obtain ⟨hmem, -⟩ := mem_changed_iff.mp h
  exact hmem.imp_right fun hf => List.mem_map.mp (s.resources_settle o ▸ hf)

/-- A run writes to the paths that it has read from. -/
theorem path_of_mem_changed (h : f ∈ (s.settle o).changed) :
    f.path = s.target.path ∨ f.path ∈ s.resources.map OpenFile.path := by
  rcases changed_cases h with ⟨-, rfl⟩ | ⟨f₀, hf₀, rfl⟩
  · exact Or.inl (s.target_path_settle o)
  · exact Or.inr (path_edited o f₀ ▸ List.mem_map_of_mem hf₀)

/-- A run that no temporary file is in the way of: none of the files that it is to write has a link at
the place of its temporary file, or the end of the path of the list of codes. The session `s` is the one
after scanning. -/
structure Apart (t : FileTree) (o : Options) (mark : Text) (s : Session) : Prop where
  sound : t.Sound
  slash : '/' ∉ mark
  scan : scanned t o = .ok s
  link : ∀ f ∈ (s.settle o).changed, ∀ k l, t.temporaryKey? mark f.path = some k →
    t.get? k ≠ some (.link l)
  target : ∀ f ∈ (s.settle o).changed, ∀ k, t.temporaryKey? mark f.path = some k →
    t.siteKey? (o.target t) ≠ some k

/-- A run whose temporary files stand where nothing is, nor the end of the path of the list of codes. -/
theorem exists_apart {paths : List Path} (hsound : t.Sound) (hmark : '/' ∉ mark)
    (hpaths : (scanned t o).toOption.map (fun s => (s.settle o).changed.map OpenFile.path) = some paths)
    (hvacant : ∀ p ∈ paths, ∀ k ∈ t.temporaryKey? mark p,
      t.get? k = none ∧ t.siteKey? (o.target t) ≠ some k) :
    ∃ s, (s.settle o).changed.map OpenFile.path = paths ∧ Apart t o mark s := by
  obtain ⟨s, hs, rfl⟩ := Option.map_eq_some_iff.mp hpaths
  have hvacant : ∀ f ∈ (s.settle o).changed, ∀ k, t.temporaryKey? mark f.path = some k →
      t.get? k = none ∧ t.siteKey? (o.target t) ≠ some k := fun f hf k hk =>
    hvacant f.path (List.mem_map_of_mem hf) k hk
  refine ⟨s, rfl, hsound, hmark, toOption_eq_some_iff.mp hs, fun f hf k l hk hlink => ?_,
    fun f hf k hk => ?_⟩
  · exact nomatch (hvacant f hf k hk).1.symm.trans hlink
  · exact (hvacant f hf k hk).2

theorem Apart.target_path (h : Apart t o mark s) : (s.settle o).target.path = o.target t := by
  rw [target_path_settle, (gathers_scanned h.sound h.scan).target, start_target_path]

theorem Apart.isResource (h : Apart t o mark s) (hf : f ∈ s.resources) :
    IsResource t (start t o) f :=
  isResource_of_scanned h.sound h.scan hf

/-- The same file becomes the same, by whatever path it was read. -/
theorem Apart.edited_congr (h : Apart t o mark s) (hf : f ∈ s.resources) (hg : g ∈ s.resources)
    (hkey : t.siteKey? f.path = t.siteKey? g.path) :
    (edited o f).content = (edited o g).content ∧ (edited o f).dirty = (edited o g).dirty :=
  Session.edited_congr ((h.isResource hf).content_eq (h.isResource hg) hkey)
    ((h.isResource hf).clean.trans (h.isResource hg).clean.symm)

/-- A resource file that is to be written, and what was read of it. -/
theorem exists_of_mem_resources (hf : f ∈ (s.settle o).resources.filter OpenFile.dirty) :
    ∃ f₀ ∈ s.resources, edited o f₀ = f ∧ f ∈ (s.settle o).changed := by
  obtain ⟨hmem, hdirty⟩ := List.mem_filter.mp hf
  have hchanged := mem_changed_iff.mpr ⟨Or.inr hmem, hdirty⟩
  rw [resources_settle] at hmem
  obtain ⟨f₀, hf₀, heq⟩ := List.mem_map.mp hmem
  exact ⟨f₀, hf₀, heq, hchanged⟩

theorem Apart.ready (h : Apart t o mark s) :
    Ready t mark (s.resources.filter fun f => (edited o f).dirty) where
  sound := h.sound
  slash := h.slash
  stands f hf := (h.isResource (List.mem_filter.mp hf).1).standsAt
  temporary f hf := by
    obtain ⟨hf, hdirty⟩ := List.mem_filter.mp hf
    have hmem : edited o f ∈ (s.settle o).resources :=
      s.resources_settle o ▸ List.mem_map_of_mem hf
    rw [← path_edited o f]
    exact h.link _ (mem_changed_iff.mpr ⟨Or.inr hmem, hdirty⟩)

/-- What is written for a resource file goes to the path of one that was read. -/
theorem exists_ready (hg : g ∈ (s.settle o).resources.filter OpenFile.dirty) :
    g ∈ (s.settle o).changed ∧
      ∃ f ∈ s.resources.filter fun f => (edited o f).dirty, g.path = f.path := by
  obtain ⟨f, hf, rfl, hchanged⟩ := exists_of_mem_resources hg
  exact ⟨hchanged, f, List.mem_filter.mpr ⟨hf, (mem_changed_iff.mp hchanged).2⟩, path_edited o f⟩

/-- What is written before a resource file is spared by its save. -/
theorem Apart.spares (h : Apart t o mark s) (hf : f ∈ (s.settle o).changed)
    (hg : g ∈ (s.settle o).resources.filter OpenFile.dirty) : Spares t mark f g := by
  obtain ⟨g₀, hg₀, rfl, hgchanged⟩ := exists_of_mem_resources hg
  obtain ⟨gdir, gname, hstands⟩ := (h.isResource hg₀).standsAt
  rcases changed_cases hf with ⟨-, rfl⟩ | ⟨f₀, hf₀, rfl⟩
  · -- the list of codes
    have hpath := h.target_path
    refine ⟨fun k hk htemp => h.target _ hgchanged k htemp (hpath ▸ hk), fun hsep k hk hsite => ?_⟩
    rw [path_edited, hstands.site.siteKey?_eq] at hsite
    exact absurd (hpath ▸ hk.trans hsite.symm)
      ((h.isResource hg₀).siteKey?_target_ne hstands (hpath ▸ hsep))
  · obtain ⟨dir, name, hstandsf⟩ := (h.isResource hf₀).standsAt
    refine ⟨fun k hk htemp => ?_, fun _ k hk hsite => ?_⟩
    · rw [path_edited, hstandsf.site.siteKey?_eq] at hk
      exact not_temporary hstandsf h.slash _ (hk ▸ htemp)
    · rw [path_edited] at hk hsite
      exact (h.edited_congr hf₀ hg₀ (hk.trans hsite.symm)).1

/-- The list of codes may be saved at its path, if that goes up only where its directory is there, and is
not lost among links. -/
theorem Apart.savable (h : Apart t o mark s)
    (hup : Path.upStep ∈ (o.target t).names → (t.siteKey? (o.target t)).isSome)
    (hlinks : t.locate (o.target t) ≠ .error .tooManyLinks)
    (hdirty : (s.settle o).target.dirty = true) (hmay : (s.settle o).mayWrite = true) :
    t.Savable mark (o.target t) := by
  refine savable_target h.slash hup hlinks ?_ ?_
  · rw [← h.target_path]
    exact h.link _ (mem_changed_iff.mpr ⟨Or.inl ⟨hmay, rfl⟩, hdirty⟩)
  · rw [← (gathers_scanned h.sound h.scan).mayWrite, ← s.mayWrite_settle o, hmay]

/-- The account after the turn of the list of codes. -/
theorem Apart.wrote_target (h : Apart t o mark s)
    (hsavable : (s.settle o).target.dirty = true → (s.settle o).mayWrite = true →
      t.Savable mark (o.target t)) {saving : Saving} (hsaving : saving.Attempts mark) {s₁ : Session}
    {saved : Bool} (hsave : (s.settle o).saveTarget saving t = (v, s₁, saved)) :
    ∃ done, (∀ f ∈ done, f ∈ (s.settle o).changed) ∧ s₁.report.written = done.map OpenFile.path ∧
      (saved = true → (s.settle o).target.dirty = true → (s.settle o).target ∈ done) ∧
      (saved = false → done = []) ∧ Wrote t v mark (s.settle o).changed done := by
  have hnone : (s.settle o).report.written = [] := by
    rw [written_settle, (collected_scanned h.scan).written]
  rcases saveTarget_cases saving t (s.settle o) with ⟨hclean, heq⟩ | ⟨-, -, heq⟩ |
    ⟨hdirty, hmay, w, e?, hw, heq⟩
  · cases heq.symm.trans hsave
    exact ⟨[], nofun, hnone, fun _ hdirty => (nomatch hclean.symm.trans hdirty), fun _ => rfl,
      .refl t mark _⟩
  · cases heq.symm.trans hsave
    exact ⟨[], nofun, hnone, nofun, fun _ => rfl, .refl t mark _⟩
  · cases heq.symm.trans hsave
    have hchanged : (s.settle o).target ∈ (s.settle o).changed :=
      mem_changed_iff.mpr ⟨Or.inl ⟨hmay, rfl⟩, hdirty⟩
    have hsavable := h.target_path ▸ hsavable hdirty hmay
    cases e? with
    | none =>
      obtain ⟨place, hsaved⟩ := hsaving.saved h.sound hsavable hw
      exact ⟨[(s.settle o).target], fun f hf => List.mem_singleton.mp hf ▸ hchanged,
        congrArg (· ++ [_]) hnone, fun _ _ => List.mem_singleton_self _, nofun,
        wrote_of_savedAt h.sound hsaved hchanged⟩
    | some e =>
      exact ⟨[], nofun, hnone, nofun, fun _ => rfl,
        wrote_of_failedAt (hsaving.failed h.sound hsavable hw) hchanged⟩

/-- The account of a run that leaves the tree `u` and the session `s'`: the files `done` were written, and
are listed. -/
structure Account (t u : FileTree) (o : Options) (mark : Text) (s s' : Session)
    (done : List OpenFile) : Prop where
  changed : ∀ f ∈ done, f ∈ (s.settle o).changed
  listed : s'.report.written = done.map OpenFile.path
  wrote : Wrote t u mark (s.settle o).changed done
  /-- A file that changed and was not written is an issue. -/
  noted : ∀ f ∈ (s.settle o).target :: (s.settle o).resources, f.dirty = true →
    f ∈ done ∨ s'.HasUnsaved
  /-- No definition leaves its file before the list of codes has it. -/
  first : (s.settle o).target.dirty = true → (s.settle o).report.movedDefinitions ≠ 0 →
    (s.settle o).target ∈ done ∨ done = []

theorem Apart.account (h : Apart t o mark s)
    (hsavable : (s.settle o).target.dirty = true → (s.settle o).mayWrite = true →
      t.Savable mark (o.target t)) {savings : Nat → Saving}
    (hsavings : ∀ i, (savings i).Attempts mark) {s' : Session}
    (hflush : (s.settle o).flushEach savings t = (u, s')) : ∃ done, Account t u o mark s s' done := by
  obtain ⟨v, s₁, saved, hsave⟩ : ∃ v s₁ saved,
      (s.settle o).saveTarget (savings 0) t = (v, s₁, saved) := ⟨_, _, _, rfl⟩
  obtain ⟨done, hdone, hwritten, hsaved, hunsaved, hwrote⟩ :=
    h.wrote_target hsavable (hsavings 0) hsave
  have hnotes : NotesWrites (s.settle o) s₁ := by
    simpa only [hsave] using notesWrites_saveTarget (savings 0) t (s.settle o)
  rcases flushEach_cases hsave with ⟨hsaved', -, heq⟩ | ⟨hwrite, heq⟩
  · -- the resource files are kept back
    cases heq.symm.trans hflush
    obtain ⟨i, hi, hkind⟩ := hasUnsaved_of_saveTarget (hsaved' ▸ hsave)
    exact ⟨done, hdone, hwritten, hwrote,
      fun _ _ _ => Or.inr ⟨i, List.mem_append_left _ hi, hkind⟩, fun _ _ => Or.inr (hunsaved hsaved')⟩
  · rw [hnotes.resources, hflush] at heq
    have hall : ∀ f ∈ done ++ (s.settle o).resources.filter OpenFile.dirty,
        f ∈ (s.settle o).changed := by
      intro f hf
      exact (List.mem_append.mp hf).elim (hdone f) fun hf => (exists_ready hf).1
    have hnotes' := notesWrites_foldl savings ((s.settle o).resources.filter OpenFile.dirty) 1 v s₁
    obtain ⟨more, hmore, hlisted, hnoted, hwrote⟩ := wrote_foldl hsavings h.ready
      (fun _ => exists_ready)
      (fun f hf g hg => h.spares (hall f hf) hg) 1 s₁ hwrote
    rw [← heq] at hnotes' hlisted hnoted hwrote
    refine ⟨done ++ more, fun f hf => hall f ?_, by rw [hlisted, hwritten, List.map_append], hwrote,
      fun f hf hdirty => ?_, fun hdirty hmoved => ?_⟩
    · exact (List.mem_append.mp hf).elim (List.mem_append_left _)
        fun hf => List.mem_append_right _ (hmore f hf)
    · rcases List.mem_cons.mp hf with rfl | hf
      · cases saved with
        | true => exact Or.inl (List.mem_append_left _ (hsaved rfl hdirty))
        | false => exact Or.inr (hnotes'.hasUnsaved (hasUnsaved_of_saveTarget hsave))
      · exact (hnoted f (List.mem_filter.mpr ⟨hf, hdirty⟩)).imp_left (List.mem_append_right _)
    · have hsaved' : saved = true := hwrite.resolve_right (hnotes.moved ▸ hmoved)
      exact Or.inl (List.mem_append_left _ (hsaved hsaved' hdirty))

/-! ## What the account says -/

/-- A file that was written is where its path led before, if that was to anywhere. -/
theorem Wrote.locate_eq (h : Wrote t u mark tried done) (hs : t.Sound) (hf : f ∈ done)
    (hk : t.siteKey? f.path = some k) : u.locate f.path = .ok k := by
  obtain ⟨touched, hevolves, -⟩ := h.evolves
  obtain ⟨dir, name, hholds⟩ := h.holds f hf
  obtain ⟨dir', name', hsite, rfl⟩ := siteKey?_eq_some_iff.mp hk
  obtain ⟨rfl, rfl⟩ := (hevolves.site hsite).unique hholds.site
  exact hholds.locate_eq (hevolves.sound hs)

/-- What was written at a place that was there is there. -/
theorem Wrote.get?_of_mem (h : Wrote t u mark tried done) (hf : f ∈ done)
    (hsite : t.Site f.path dir name) : u.get? (dir ++ [name]) = some (.file f.content.encode) := by
  obtain ⟨touched, hevolves, -⟩ := h.evolves
  obtain ⟨dir', name', hholds⟩ := h.holds f hf
  obtain ⟨rfl, rfl⟩ := (hevolves.site hsite).unique hholds.site
  exact hholds.file

/-- What no save came near is as it was. -/
theorem Wrote.kept (h : Wrote t u mark tried done) {e : Entry} (he : t.get? k = some e)
    (hdone : ∀ f ∈ done, t.siteKey? f.path ≠ some k)
    (htemporary : ∀ f ∈ tried, t.temporaryKey? mark f.path ≠ some k) : u.get? k = some e := by
  obtain ⟨touched, hevolves, htouched⟩ := h.evolves
  refine hevolves.get?_eq (fun hk => ?_) he
  rcases htouched k hk with ⟨f, hf, hkey⟩ | ⟨f, hf, hkey⟩ | hnone
  · exact hdone f hf hkey
  · exact htemporary f hf hkey
  · exact nomatch hnone.symm.trans he

/-- What no listed path leads to is as it was, but at the places of temporary files. -/
theorem Wrote.get?_eq (h : Wrote t u mark tried done) (hs : t.Sound) {e : Entry}
    (he : t.get? k = some e) (hlisted : ∀ f ∈ done, u.locate f.path ≠ .ok k)
    (htemporary : ∀ f ∈ tried, t.temporaryKey? mark f.path ≠ some k) : u.get? k = some e :=
  h.kept he (fun f hf hkey => hlisted f hf (h.locate_eq hs hf hkey)) htemporary

/-- A file that no save came near is read as it was, if no link on the way to it was replaced. -/
theorem Wrote.readFile_of_kept (h : Wrote t u mark tried done) {bytes : List UInt8}
    (hp : t.locate p = .ok k) (hfile : t.get? k = some (.file bytes))
    (hdone : ∀ f ∈ done, t.siteKey? f.path ≠ some k ∧
      ∀ k l, t.siteKey? f.path = some k → t.get? k ≠ some (.link l))
    (htemporary : ∀ f ∈ tried, t.temporaryKey? mark f.path ≠ some k ∧
      ∀ k l, t.temporaryKey? mark f.path = some k → t.get? k ≠ some (.link l)) :
    u.readFile p = .ok bytes := by
  obtain ⟨touched, hevolves, htouched⟩ := h.evolves
  refine readFile_eq_ok_iff.mpr ⟨k, hevolves.locate_file (fun k' l hk' hlink => ?_) (fun hk => ?_) hp hfile⟩
  · rcases htouched k' hk' with ⟨f, hf, hkey⟩ | ⟨f, hf, hkey⟩ | hnone
    · exact (hdone f hf).2 k' l hkey hlink
    · exact (htemporary f hf).2 k' l hkey hlink
    · exact nomatch hnone.symm.trans hlink
  · rcases htouched k hk with ⟨f, hf, hkey⟩ | ⟨f, hf, hkey⟩ | hnone
    · exact (hdone f hf).1 hkey
    · exact (htemporary f hf).1 hkey
    · exact nomatch hnone.symm.trans hfile

theorem Wrote.readFile_eq (h : Wrote t u mark tried done) (hs : t.Sound) (hf : f ∈ done) :
    u.readFile f.path = .ok f.content.encode := by
  obtain ⟨touched, hevolves, -⟩ := h.evolves
  obtain ⟨dir, name, hholds⟩ := h.holds f hf
  exact hholds.readFile_eq (hevolves.sound hs)

end Session

end FirmwareIds
