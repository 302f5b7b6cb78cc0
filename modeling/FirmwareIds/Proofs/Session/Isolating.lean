import FirmwareIds.Proofs.FileTree.Erasing
import FirmwareIds.Proofs.Session.Touching
import FirmwareIds.Proofs.Session.Warning

/-!
# Files that cannot be read

A file whose bytes are no text is a warning for each time a walk comes to it, and nothing else: the run
is the one on the tree without the file (`unreadable_file_is_isolated`).

The two runs are followed side by side. No path that a run takes passes the file, so what the run reads
from the tree and changes in it does not depend on it: neither in the walks (`visit_erase`,
`scanned_erase`) nor in the saves (`flush_erase`). Where a walk comes to the file, the one session has a
warning more (`visit_eq`), and by that alone the two differ from there on.
-/

namespace FirmwareIds

open FileTree

namespace Session

variable {t u x : FileTree} {k : Key} {o : Options} {mark : Text} {s s' : Session} {f : OpenFile}
  {bytes : List UInt8} {extra : List Issue}

/-! ## Scanning -/

/-- The file at `k` holds no text, and no path that the run takes passes it: neither the one of the list
of codes nor the one of a root. No temporary file for a file to be written may stand there, or at a
link. -/
structure Isolated (t : FileTree) (o : Options) (mark : Text) (k : Key) : Prop where
  sound : t.Sound
  slash : '/' ∉ mark
  unreadable : ∃ bytes, t.get? k = some (.file bytes) ∧ TextContent.decode? bytes = none
  kind : ∃ name ∈ k.getLast?, (FileKind.ofName? name).isSome
  target : ¬ t.Passes (o.target t) k
  roots : ∀ root ∈ o.roots, ¬ t.Passes root k
  temporary : ∀ s, scanned t o = .ok s → ∀ f ∈ (s.settle o).changed, ∀ key,
    t.IsTemporary mark f.path key → key ≠ k ∧ ∀ target, t.get? key ≠ some (.link target)

/-- The paths by which the walks of a run come to the file at `k`. -/
def visits (t : FileTree) (o : Options) (k : Key) : List Path :=
  match o.exclusions with
  | .error _ => []
  | .ok excluded => o.roots.flatMap fun root =>
    ((t.walk root excluded).toOption.getD []).filterMap (t.visit? k)

theorem Isolated.file (h : Isolated t o mark k) : ∃ bytes, t.get? k = some (.file bytes) := by
  obtain ⟨bytes, hfile, -⟩ := h.unreadable
  exact ⟨bytes, hfile⟩

/-- The path of the directory that the list of codes lies in passes no more than its own does. -/
theorem passes_target_of_output (h : t.Passes o.output k) : t.Passes (o.target t) k := by
  unfold Options.target
  split
  · obtain ⟨hpieces, habs, -⟩ := o.output.join_name (n := "UqiList.uni".toList) (by decide) (by decide)
    refine h.of_names habs.symm ?_
    show o.output.names <+: (o.output.join ⟨"UqiList.uni".toList⟩).pieces.filter _
    rw [hpieces, List.filter_append]
    exact List.prefix_append ..
  · exact h

theorem Isolated.target_erase (h : Isolated t o mark k) : o.target (t.erase k) = o.target t := by
  obtain ⟨bytes, hfile⟩ := h.file
  unfold Options.target
  rw [(Beside.refl hfile).isDirectory_erase fun hp => h.target (passes_target_of_output hp)]

theorem Isolated.start_erase (h : Isolated t o mark k) : start (t.erase k) o = start t o := by
  obtain ⟨bytes, hfile⟩ := h.file
  unfold start
  dsimp only
  rw [h.target_erase, (Beside.refl hfile).locate_erase h.target,
    loadText_erase h.sound hfile h.target]

/-- The list of codes is not where the file is, by whatever path a walk comes to it. -/
theorem Isolated.leadsToTarget_eq (h : Isolated t o mark k) {p : Path} {dir : Key} {name : Text}
    (hfound : t.FoundAt p dir name) (hk : dir ++ [name] = k) :
    (start t o).leadsToTarget t p = false := by
  obtain ⟨bytes, hfile⟩ := h.file
  refine Bool.eq_false_iff.mpr fun hleads => h.target ?_
  unfold leadsToTarget at hleads
  rw [start_targetKey, start_target_path] at hleads
  cases htarget : t.locate (o.target t) with
  | ok key =>
    rw [htarget] at hleads
    obtain rfl : key = k := by
      cases hvalid : p.fault? with
      | none =>
        rw [hfound.locate_eq hvalid, hk] at hleads
        exact (Option.some.inj (eq_of_beq hleads)).symm
      | some fault =>
        rw [locate_of_fault hvalid] at hleads
        cases hleads
    exact h.sound.passes_of_locate hfile htarget
  | error fault =>
    rw [htarget] at hleads
    obtain ⟨hnames, habs⟩ := Path.names_eq_of_same hleads
    exact (hk ▸ hfound.passes).of_names habs (hnames ▸ List.prefix_rfl)

/-- A walk that comes to the file makes it a warning. -/
theorem Isolated.visit_eq (h : Isolated t o mark k) (root : Path) {p : Path} {dir : Key} {name : Text}
    (hfound : t.FoundAt p dir name) (hk : dir ++ [name] = k) (hs : Gathers t (start t o) s) :
    s.visit t root (.file p) = s.addIssues [.unreadableFile p] := by
  obtain ⟨bytes, hfile, hdecode⟩ := h.unreadable
  subst hk
  have hload : ∀ content, t.loadText p ≠ .ok content := by
    intro content hload
    obtain ⟨bytes', hread, hdecode'⟩ := loadText_eq_ok_iff.mp hload
    obtain ⟨-, hfile'⟩ := hfound.eq_of_readFile hread
    cases hfile.symm.trans hfile'
    exact nomatch hdecode.symm.trans hdecode'
  obtain ⟨e, he⟩ : ∃ e, t.loadText p = .error e := by
    cases hresult : t.loadText p with
    | ok content => exact absurd hresult (hload content)
    | error e => exact ⟨e, rfl⟩
  obtain ⟨kind, hkind⟩ : ∃ kind, FileKind.ofPath? p = some kind := by
    obtain ⟨name', hname, hkind⟩ := h.kind
    rw [List.getLast?_concat] at hname
    obtain rfl := Option.some.inj hname
    obtain ⟨kind, hkind⟩ := Option.isSome_iff_exists.mp hkind
    refine ⟨kind, ?_⟩
    unfold FileKind.ofPath?
    rw [hfound.fileName?_eq, Option.bind_some, hkind]
  unfold visit
  dsimp only
  rw [hkind]
  cases kind with
  | resource =>
    dsimp only
    unfold takeResource
    rw [hs.leadsToTarget, h.leadsToTarget_eq hfound rfl, he]
    rfl
  | form =>
    dsimp only
    unfold takeForm
    rw [he]

/-- What is not the file is taken in as if the file were not there. -/
theorem Isolated.visit_erase (h : Isolated t o mark k) {x : Found}
    (hx : ∀ p, x = .file p → ∃ dir name, t.FoundAt p dir name) (hother : t.visit? k x = none)
    (root : Path) (s : Session) : s.visit (t.erase k) root x = s.visit t root x := by
  obtain ⟨bytes, hfile⟩ := h.file
  cases x with
  | unlisted dir fault => rfl
  | file p =>
    obtain ⟨dir, name, hfound⟩ := hx p rfl
    have hne : dir ++ [name] ≠ k := by
      intro hk
      rw [hfound.visit?_eq, if_pos hk] at hother
      cases hother
    have hno := hfound.not_passes hfile hne
    unfold visit takeResource takeForm leadsToTarget
    dsimp only
    rw [loadText_erase h.sound hfile hno, (Beside.refl hfile).locate_erase hno]

/-- The issues that the file makes. -/
abbrev warnings (paths : List Path) : List Issue := paths.map .unreadableFile

/-- The visits of what a walk has found, with the file and without it. -/
theorem Isolated.foldl_visit (h : Isolated t o mark k) (root : Path) {found : List Found}
    (hfound : ∀ x ∈ found, ∀ p, x = .file p → ∃ dir name, t.FoundAt p dir name)
    (hgathers : ∀ x ∈ found, ∀ s, Gathers t s (s.visit t root x)) (hs : Gathers t (start t o) s)
    (hw : Warned extra s s') :
    Warned (extra ++ warnings (found.filterMap (t.visit? k))) (found.foldl (visit t root) s)
      ((found.filter fun x => (t.visit? k x).isNone).foldl (visit (t.erase k) root) s') := by
  induction found generalizing s s' extra with
  | nil => simpa using hw
  | cons x found ih =>
    have hgather := hgathers x (List.mem_cons_self ..) s
    have hrest : ∀ {extra s₁ s₁'}, Gathers t (start t o) s₁ → Warned extra s₁ s₁' → _ :=
      ih (fun x hx => hfound x (List.mem_cons_of_mem _ hx))
        (fun x hx => hgathers x (List.mem_cons_of_mem _ hx))
    cases hvisit : t.visit? k x with
    | none =>
      rw [List.filterMap_cons_none hvisit, List.filter_cons, if_pos (by rw [hvisit]; rfl),
        List.foldl_cons, List.foldl_cons, h.visit_erase (hfound x (List.mem_cons_self ..)) hvisit]
      exact hrest (hs.trans hgather) (hw.step (adds_visit t root x))
    | some p =>
      obtain ⟨rfl, dir, name, hat, hk⟩ : x = .file p ∧ ∃ dir name, t.FoundAt p dir name ∧
          dir ++ [name] = k := by
        cases x with
        | unlisted dir fault => cases hvisit
        | file q =>
          obtain ⟨dir, name, hat⟩ := hfound _ (List.mem_cons_self ..) q rfl
          rw [hat.visit?_eq] at hvisit
          split at hvisit
          · next hk =>
            cases hvisit
            exact ⟨rfl, dir, name, hat, hk⟩
          · cases hvisit
      have heq := h.visit_eq root hat hk hs
      rw [List.filterMap_cons_some hvisit, List.filter_cons, if_neg (by rw [hvisit]; simp),
        List.foldl_cons, warnings, List.map_cons, List.append_cons, heq]
      exact hrest (heq ▸ hs.trans hgather) (hw.warn _)

theorem Isolated.scanAll_erase (h : Isolated t o mark k) (excluded : List Path) {roots : List Path}
    (hroots : ∀ root ∈ roots, ¬ t.Passes root k) (hs : Gathers t (start t o) s)
    (hw : Warned extra s s') :
    (∀ e, s.scanAll t excluded roots = .error e → s'.scanAll (t.erase k) excluded roots = .error e) ∧
      ∀ s₁, s.scanAll t excluded roots = .ok s₁ →
        ∃ s₁', s'.scanAll (t.erase k) excluded roots = .ok s₁' ∧
          Warned (extra ++ warnings (roots.flatMap fun root =>
            ((t.walk root excluded).toOption.getD []).filterMap (t.visit? k))) s₁ s₁' := by
  obtain ⟨bytes, hfile⟩ := h.file
  induction roots generalizing s s' extra with
  | nil =>
    refine ⟨nofun, fun s₁ hs₁ => ⟨s', rfl, ?_⟩⟩
    cases hs₁
    simpa using hw
  | cons root roots ih =>
    have hwalk := walk_erase h.sound hfile (hroots root (List.mem_cons_self ..)) excluded
    rw [scanAll_cons, scanAll_cons]
    unfold scan
    rw [hwalk]
    cases hfound : t.walk root excluded with
    | error e =>
      dsimp only [Except.map]
      exact ⟨fun _ he => he, nofun⟩
    | ok found =>
      have hgathers : ∀ x ∈ found, ∀ s, Gathers t s (s.visit t root x) :=
        fun x hx s => gathers_visit h.sound hfound hx s
      have hstep := h.foldl_visit root
        (fun x hx p hp => foundAt_of_mem_walk h.sound hfound (hp ▸ hx)) hgathers hs hw
      obtain ⟨herror, hok⟩ := ih (fun root hroot => hroots root (List.mem_cons_of_mem _ hroot))
        (hs.trans (gathers_foldl (fun s x hx => hgathers x hx s) s)) hstep
      dsimp only [Except.map]
      refine ⟨herror, fun s₁ hs₁ => ?_⟩
      obtain ⟨s₁', hs₁', hwarned⟩ := hok s₁ hs₁
      refine ⟨s₁', hs₁', ?_⟩
      rw [List.flatMap_cons, warnings, List.map_append, ← List.append_assoc, hfound]
      exact hwarned

/-- The scans of the two trees. -/
theorem Isolated.scanned_erase (h : Isolated t o mark k) :
    (∀ e, scanned t o = .error e → scanned (t.erase k) o = .error e) ∧
      ∀ s, scanned t o = .ok s → ∃ s', scanned (t.erase k) o = .ok s' ∧
        Warned (warnings (visits t o k)) s s' := by
  have hends : ∀ t : FileTree, scanned t o =
      if o.roots.isEmpty then .error .noRoot
      else
        match o.exclusions with
        | .error e => .error e
        | .ok excluded => (start t o).scanAll t excluded o.roots := by
    intro t
    unfold scanned
    cases o.roots.isEmpty with
    | true => rfl
    | false => cases o.exclusions <;> rfl
  rw [hends, hends, h.start_erase]
  unfold visits
  cases o.roots.isEmpty with
  | true =>
    rw [if_pos rfl, if_pos rfl]
    exact ⟨fun _ he => he, nofun⟩
  | false =>
    rw [if_neg Bool.false_ne_true, if_neg Bool.false_ne_true]
    cases o.exclusions with
    | error e =>
      dsimp only
      exact ⟨fun _ he => he, nofun⟩
    | ok excluded =>
      dsimp only
      have hall := h.scanAll_erase excluded h.roots (.refl t _) (.refl _)
      rw [List.nil_append] at hall
      exact hall

/-! ## Writing -/

/-- A run that saves its files as it should. -/
def replacing (mark : Text) : Saving := fun t p content => t.replaceText mark p content

/-- The list of codes is saved as if the file were not there. -/
theorem saveTarget_erase (hfile : t.get? k = some (.file bytes))
    (hpath : s.target.dirty = true → s.mayWrite = true → t.Shuns mark s.target.path k) :
    ∃ x s₁ saved, s.saveTarget (replacing mark) t = (x, s₁, saved) ∧
      s.saveTarget (replacing mark) (t.erase k) = (x.erase k, s₁, saved) ∧ Beside t x k ∧
      s₁.resources = s.resources := by
  rcases s.saveTarget_cases (replacing mark) t with
    ⟨hdirty, heq⟩ | ⟨hdirty, hmay, heq⟩ | ⟨hdirty, hmay, x, e?, hsave, heq⟩
  · refine ⟨_, _, _, heq, ?_, .refl hfile, rfl⟩
    unfold saveTarget
    rw [hdirty]
    exact if_pos rfl
  · refine ⟨_, _, _, heq, ?_, .refl hfile, rfl⟩
    unfold saveTarget
    rw [hdirty, hmay]
    exact (if_neg (by decide)).trans (if_pos rfl)
  · obtain ⟨hx, herase⟩ := (Beside.refl hfile).replaceText (hpath hdirty hmay) s.target.content
    have hsame : replacing mark (t.erase k) s.target.path s.target.content = (x.erase k, e?) := by
      refine herase.trans ?_
      rw [show t.replaceText mark s.target.path s.target.content = (x, e?) from hsave]
    rw [show t.replaceText mark s.target.path s.target.content = (x, e?) from hsave] at hx
    refine ⟨_, _, _, heq, ?_, hx, by cases e? <;> rfl⟩
    unfold saveTarget
    rw [hdirty, hmay, hsame]
    exact (if_neg (by decide)).trans (if_neg (by decide))

/-- A row of saves, with the file and without it. -/
theorem foldl_save_erase (hx : Beside t x k) {changed : List OpenFile}
    (hpaths : ∀ f ∈ changed, t.Shuns mark f.path k) (n : Nat) (s : Session) :
    ∃ y s₁, (changed.zipIdx n).foldl (fun (t, s) (f, i) =>
        s.save ((fun _ => replacing mark) i) t f) (x, s) = (y, s₁) ∧
      (changed.zipIdx n).foldl (fun (t, s) (f, i) =>
        s.save ((fun _ => replacing mark) i) t f) (x.erase k, s) = (y.erase k, s₁) ∧
      Beside t y k := by
  induction changed generalizing x s n with
  | nil => exact ⟨x, s, rfl, rfl, hx⟩
  | cons f changed ih =>
    obtain ⟨hy, herase⟩ := hx.replaceText (hpaths f (List.mem_cons_self ..)) f.content
    obtain ⟨y, e?, hsave⟩ : ∃ y e?, x.replaceText mark f.path f.content = (y, e?) := ⟨_, _, rfl⟩
    rw [hsave] at hy herase
    rw [@foldl_save_cons _ _ (fun _ => replacing mark) _ _ _ hsave,
      @foldl_save_cons _ _ (fun _ => replacing mark) _ _ _ herase]
    exact ih hy (fun f hf => hpaths f (List.mem_cons_of_mem _ hf)) (n + 1) _

/-- All files are written as if the one were not there. -/
theorem flush_erase (hfile : t.get? k = some (.file bytes))
    (hpaths : ∀ f ∈ s.changed, t.Shuns mark f.path k) :
    ∃ y s₁, s.flush (replacing mark) t = (y, s₁) ∧
      s.flush (replacing mark) (t.erase k) = (y.erase k, s₁) ∧ Beside t y k := by
  obtain ⟨x, s₁, saved, hsave, hsave', hx, hresources⟩ := saveTarget_erase (s := s) hfile
    fun hdirty hmay => hpaths _ (mem_changed_iff.mpr ⟨Or.inl ⟨hmay, rfl⟩, hdirty⟩)
  have hchanged : ∀ f ∈ s₁.resources.filter OpenFile.dirty, t.Shuns mark f.path k := by
    intro f hf
    obtain ⟨hf, hdirty⟩ := List.mem_filter.mp hf
    exact hpaths f (mem_changed_iff.mpr ⟨Or.inr (hresources ▸ hf), hdirty⟩)
  unfold flush flushEach
  rw [hsave, hsave']
  dsimp only
  split
  · exact ⟨x, _, rfl, rfl, hx⟩
  · exact foldl_save_erase hx hchanged 1 s₁

/-! ## Runs -/

/-- Every file that is to be written keeps clear of the file that cannot be read. -/
theorem Isolated.shuns (h : Isolated t o mark k) (hscan : scanned t o = .ok s)
    (hf : f ∈ (s.settle o).changed) : t.Shuns mark f.path k := by
  refine ⟨h.slash, ?_, h.temporary s hscan f hf⟩
  rcases path_of_mem_changed hf with hpath | hpath
  · rw [hpath, (gathers_scanned h.sound hscan).target, start_target_path]
    exact h.target
  · obtain ⟨f₀, hf₀, hpath⟩ := List.mem_map.mp hpath
    obtain ⟨bytes, hfile, hnone⟩ := h.unreadable
    have hresource := isResource_of_scanned h.sound hscan hf₀
    obtain ⟨dir, name, hfound⟩ := hresource.found
    rw [← hpath]
    refine hfound.not_passes hfile ?_
    -- what was taken in could be read
    rintro rfl
    obtain ⟨own, hread, hdecode⟩ := loadText_eq_ok_iff.mp hresource.load
    obtain ⟨-, hown⟩ := hfound.eq_of_readFile hread
    cases hfile.symm.trans hown
    exact nomatch hnone.symm.trans hdecode

theorem run_eq (saving : Saving) (t : FileTree) (o : Options) : run saving t o =
    match scanned t o with
    | .error e => .error e
    | .ok s => .ok (((s.settle o).flush saving t).1, ((s.settle o).flush saving t).2.report) := by
  unfold run runEach
  cases scanned t o <;> rfl

/-- A file that cannot be read does not change what a run does. Without it the run fails in the same way,
or leaves the same tree but for the file, which it has not touched, and gives the same report but for the
issues: those are the same in the same order when one warning is taken out for each path by which a walk
has come to the file. -/
theorem unreadable_file_is_isolated (h : Isolated t o mark k) :
    (∀ e, run (replacing mark) t o = .error e → run (replacing mark) (t.erase k) o = .error e) ∧
      ∀ u r, run (replacing mark) t o = .ok (u, r) → u.get? k = t.get? k ∧
        ∃ r', run (replacing mark) (t.erase k) o = .ok (u.erase k, r') ∧
          r = { r' with issues := r.issues } ∧ r'.issues.Sublist r.issues ∧
          r.issues.Perm (r'.issues ++ warnings (visits t o k)) := by
  obtain ⟨herror, hok⟩ := h.scanned_erase
  obtain ⟨bytes, hfile⟩ := h.file
  rw [run_eq, run_eq]
  cases hscan : scanned t o with
  | error e =>
    rw [herror e hscan]
    exact ⟨fun _ he => he, nofun⟩
  | ok s =>
    obtain ⟨s', hscan', hwarned⟩ := hok s hscan
    rw [hscan']
    refine ⟨nofun, fun u r hrun => ?_⟩
    have hwarn : ∀ i ∈ warnings (visits t o k), i.fails = false := by
      intro i hi
      obtain ⟨p, -, rfl⟩ := List.mem_map.mp hi
      rfl
    -- the file is taken away first, and the warnings after that
    obtain ⟨y, s₁, hflush, hflush', hy⟩ := flush_erase hfile fun f hf => h.shuns hscan hf
    have hsettled := (hwarned.settle hwarn o).flush (replacing mark) (t.erase k)
    rw [hflush'] at hsettled
    dsimp only at hrun hsettled
    rw [hflush] at hrun
    cases hrun
    obtain ⟨htree, issues, rfl, hsublist, hperm⟩ := hsettled
    exact ⟨hy.kept, _, by rw [htree], rfl, hsublist, hperm⟩

/-- A directory with one file that holds no text, beside one with a definition. -/
def malformedBeside : FileTree :=
  (oneDefinition.put ["bad".toList] .directory).put ["bad".toList, "b.uni".toList] (.file [0xFF])

/-- Where the file without text is. -/
def malformedKey : Key := ["bad".toList, "b.uni".toList]

/-- A strip run that walks the directory with the definition, and twice that of the other file. -/
def stripBoth (output : String) : Options where
  output := ⟨output.toList⟩
  roots := [⟨"root".toList⟩, ⟨"bad".toList⟩, ⟨"bad".toList⟩]
  strip := true

/-- No temporary file bears the name of the file without text. -/
theorem not_temporary_malformedKey {p : Path} {key : Key} (h : t.IsTemporary mark p key) :
    key ≠ malformedKey := by
  rintro rfl
  have hname := Option.some.inj (h.2 : some "b.uni".toList = some _)
  exact absurd (List.cons.inj hname).1 (by decide)

theorem isolated_malformedBeside :
    Isolated malformedBeside (stripBoth "UqiList.uni") ['1'] malformedKey := by
  have hno : ∀ key target, malformedBeside.get? key ≠ some (.link target) := by
    intro key target hlink
    have hlinks : ∀ x ∈ malformedBeside.entries, isLink x.2 = false := by decide +kernel
    exact ne_link_of_isLink (hlinks _ (mem_entries_iff.mpr hlink)) target rfl
  have hpasses : ∀ p : Path, "b.uni".toList ∉ p.steps → ¬ malformedBeside.Passes p malformedKey := by
    intro p hp hpasses
    obtain ⟨name, hname, hlast⟩ := hpasses.getLast?_mem hno
    obtain rfl : "b.uni".toList = name := Option.some.inj hlast
    exact hp hname
  exact ⟨by decide +kernel, by decide, ⟨[0xFF], by decide +kernel, by decide +kernel⟩,
    ⟨"b.uni".toList, rfl, by decide⟩, hpasses _ (by decide +kernel),
    fun root hroot => hpasses root (by revert root; decide +kernel),
    fun _ _ _ _ key htemp => ⟨not_temporary_malformedKey htemp, hno key⟩⟩

/-- Two walks come to a file without text; that is two warnings. -/
theorem malformed_file_warns_twice :
    ∃ u r r', run (replacing ['1']) malformedBeside (stripBoth "UqiList.uni") = .ok (u, r) ∧
      u.get? malformedKey = some (.file [0xFF]) ∧
      run (replacing ['1']) (malformedBeside.erase malformedKey) (stripBoth "UqiList.uni") =
        .ok (u.erase malformedKey, r') ∧
      r.issues.Perm (r'.issues ++ warnings [⟨"bad/b.uni".toList⟩, ⟨"bad/b.uni".toList⟩]) := by
  have hruns : (run (replacing ['1']) malformedBeside (stripBoth "UqiList.uni")).toOption.any
      (fun _ => true) = true := by decide +kernel
  obtain ⟨u, r, hrun, -⟩ := exists_of_any hruns
  obtain ⟨hkept, r', hrun', -, -, hperm⟩ :=
    (unreadable_file_is_isolated isolated_malformedBeside).2 u r hrun
  have hvisits : visits malformedBeside (stripBoth "UqiList.uni") malformedKey =
      [⟨"bad/b.uni".toList⟩, ⟨"bad/b.uni".toList⟩] := by decide +kernel
  refine ⟨u, r, r', hrun, hkept.trans (by decide +kernel), hrun', ?_⟩
  rw [← hvisits]
  exact hperm

/-- The file at `k` holds no text. It lies below a root, is not the list of codes, does not stand where a
temporary file may, and no path that the run is given holds its name; what links lead to is not asked. -/
structure Unnamed (t : FileTree) (o : Options) (mark : Text) (k : Key) : Prop where
  unreadable : ∃ bytes, t.get? k = some (.file bytes) ∧ TextContent.decode? bytes = none
  kind : ∃ name ∈ k.getLast?, (FileKind.ofName? name).isSome
  below : visits t o k ≠ []
  target : t.locate (o.target t) ≠ .ok k
  temporary : ∀ p key, t.IsTemporary mark p key → key ≠ k
  names : ∀ p ∈ o.output :: o.roots, ∀ name ∈ p.pieces, k.getLast? ≠ some name

/-- A link to the file without text, where the temporary file for the list of codes is to stand. -/
def linkedTemporary : FileTree :=
  malformedBeside.put [".UqiList.uni.1.tmp".toList] (.link ⟨"bad/b.uni".toList⟩)

/-- A link to the file without text, in place of a directory. -/
def linkedDirectory : FileTree := malformedBeside.put ["link".toList] (.link ⟨"bad/b.uni".toList⟩)

/-- Where links lead to a file without text it is not isolated. The list of codes is written over it through
a link at the place of the temporary file. And where the path of the list of codes leads through it, no
directory can be made, which has another reason if the file is not there. -/
theorem malformed_file_behind_link :
    (Unnamed linkedTemporary (stripBoth "UqiList.uni") ['1'] malformedKey ∧
      ∃ u r, run (replacing ['1']) linkedTemporary (stripBoth "UqiList.uni") = .ok (u, r) ∧
        u.get? malformedKey ≠ linkedTemporary.get? malformedKey) ∧
    Unnamed linkedDirectory (stripBoth "link/x/UqiList.uni") ['1'] malformedKey ∧
      ∃ u r u' r', run (replacing ['1']) linkedDirectory (stripBoth "link/x/UqiList.uni") =
          .ok (u, r) ∧
        run (replacing ['1']) (linkedDirectory.erase malformedKey)
          (stripBoth "link/x/UqiList.uni") = .ok (u', r') ∧
        ¬ r'.issues.Sublist r.issues := by
  refine ⟨⟨⟨⟨[0xFF], by decide +kernel, by decide +kernel⟩, ⟨"b.uni".toList, rfl, by decide⟩,
    by decide +kernel, by decide +kernel, fun _ _ => not_temporary_malformedKey, by decide⟩, ?_⟩,
    ⟨⟨[0xFF], by decide +kernel, by decide +kernel⟩, ⟨"b.uni".toList, rfl, by decide⟩,
    by decide +kernel, by decide +kernel, fun _ _ => not_temporary_malformedKey, by decide⟩, ?_⟩
  · have hlost : (run (replacing ['1']) linkedTemporary (stripBoth "UqiList.uni")).toOption.any
        (fun x => x.1.get? malformedKey != linkedTemporary.get? malformedKey) = true := by
      decide +kernel
    obtain ⟨u, r, hrun, htest⟩ := exists_of_any hlost
    exact ⟨u, r, hrun, bne_iff_ne.mp htest⟩
  · have hruns : (run (replacing ['1']) linkedDirectory
        (stripBoth "link/x/UqiList.uni")).toOption.any (fun x =>
          (run (replacing ['1']) (linkedDirectory.erase malformedKey)
            (stripBoth "link/x/UqiList.uni")).toOption.any fun x' =>
              !x'.2.issues.isSublist x.2.issues) = true := by decide +kernel
    obtain ⟨u, r, hrun, htest⟩ := exists_of_any hruns
    obtain ⟨u', r', hrun', htest'⟩ := exists_of_any htest
    refine ⟨u, r, u', r', hrun, hrun', fun hsublist => ?_⟩
    rw [List.isSublist_iff_sublist.mpr hsublist] at htest'
    cases htest'

end Session

end FirmwareIds
