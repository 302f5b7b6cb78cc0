import Mathlib.Data.List.Dedup
import FirmwareIds.Proofs.Session.Keeping

/-!
# When a strip run adds definitions

A strip run moves definitions, so one would expect as many of them on disk afterwards as before. That
is so exactly under three conditions (`strip_run_keeps_count_iff`): no file with definitions was scanned
more than once, no file that was stripped defines anything when it is read again, and the list of codes
defines no more when it is read again than it was given.

The first one fails for a root that is given twice, or for a root inside another one
(`definition_doubled_by_root_twice`): the files are taken in once for each walk that comes to them, and
their lines moved as often.

What the resource files define afterwards follows from the account of the run, and so does what the list
of codes defines if it was written. Where it was not, nothing may have come to its path either: a run in
which every save succeeds makes no file where none was (`Narrowed`).
-/

namespace FirmwareIds

open FileTree Definition

/-! ## Counting -/

/-- Taking a part of what a list gives for each element, once for each different element. -/
theorem flatMap_dedup_sublist {α β : Type} [DecidableEq α] (f : α → List β) (l : List α) :
    (l.dedup.flatMap f).Sublist (l.flatMap f) := by
  induction l with
  | nil => exact .refl _
  | cons a l ih =>
    rw [List.flatMap_cons]
    by_cases ha : a ∈ l
    · rw [List.dedup_cons_of_mem ha]
      exact ih.trans (List.sublist_append_right ..)
    · rw [List.dedup_cons_of_notMem ha, List.flatMap_cons]
      exact (List.append_sublist_append_left _).mpr ih

/-- Nothing is left out where an element that gives something occurs once. -/
theorem length_flatMap_dedup_iff {α β : Type} [DecidableEq α] [BEq α] [LawfulBEq α]
    (f : α → List β) (l : List α) :
    (l.flatMap f).length = (l.dedup.flatMap f).length ↔ ∀ a ∈ l, f a ≠ [] → l.count a = 1 := by
  induction l with
  | nil => simp
  | cons a l ih =>
    have hle := (flatMap_dedup_sublist f l).length_le
    have hcount : ∀ b, b ≠ a → (a :: l).count b = l.count b := fun b hb =>
      List.count_cons_of_ne (Ne.symm hb)
    rw [List.flatMap_cons, List.length_append]
    by_cases ha : a ∈ l
    · -- another occurrence of `a` follows, which must give nothing
      rw [List.dedup_cons_of_mem ha]
      have hpos := List.count_pos_iff.mpr ha
      constructor
      · intro h b hb hne
        have hempty : f a = [] := List.eq_nil_of_length_eq_zero (by omega)
        have hba : b ≠ a := fun he => hne (he ▸ hempty)
        rw [hcount b hba]
        exact ih.mp (by omega) b (List.mem_of_ne_of_mem hba hb) hne
      · intro h
        have hempty : f a = [] := by
          refine Decidable.byContradiction fun hne => ?_
          have := h a (List.mem_cons_self ..) hne
          rw [List.count_cons_self] at this
          omega
        have hlast := ih.mpr fun b hb hne => by
          have hba : b ≠ a := fun he => hne (he ▸ hempty)
          rw [← hcount b hba]
          exact h b (List.mem_cons_of_mem _ hb) hne
        rw [hempty, List.length_nil]
        omega
    · rw [List.dedup_cons_of_notMem ha, List.flatMap_cons, List.length_append,
        Nat.add_left_cancel_iff, ih]
      constructor
      · intro h b hb hne
        rcases List.mem_cons.mp hb with rfl | hb
        · rw [List.count_cons_self, List.count_eq_zero_of_not_mem ha]
        · rw [hcount b fun he => ha (he ▸ hb)]
          exact h b hb hne
      · intro h b hb hne
        rw [← hcount b fun he => ha (he ▸ hb)]
        exact h b (List.mem_cons_of_mem _ hb) hne

theorem flatMap_dedup_eq_iff {α β : Type} [DecidableEq α] [BEq α] [LawfulBEq α]
    (f : α → List β) (l : List α) :
    l.dedup.flatMap f = l.flatMap f ↔ ∀ a ∈ l, f a ≠ [] → l.count a = 1 := by
  rw [← length_flatMap_dedup_iff]
  exact ⟨fun h => by rw [h], fun h => (flatMap_dedup_sublist f l).eq_of_length h.symm⟩

/-- If `b` has `a` and what was moved, and `d` is a part of that, then `b` and `c` give what `a` and `d`
give only if nothing comes on top. -/
theorem perm_map_append_iff {α β : Type} (f : α → β) {a b c d moved : List α}
    (hb : (a ++ moved).Sublist b) (hd : d.Sublist moved) :
    ((b ++ c).map f).Perm ((a ++ d).map f) ↔ b = a ++ moved ∧ c = [] ∧ d = moved := by
  constructor
  · intro hperm
    have hlength := hperm.length_eq
    have hless := hb.length_le
    have hmoved := hd.length_le
    simp only [List.length_map, List.length_append] at hlength hless
    exact ⟨(hb.eq_of_length (by rw [List.length_append]; omega)).symm,
      List.eq_nil_of_length_eq_zero (by omega), hd.eq_of_length (by omega)⟩
  · rintro ⟨rfl, rfl, rfl⟩
    rw [List.append_nil]

/-- What the files at the keys of `l` define is what the files `l` define. -/
theorem flatMap_filterMap_eq {α β κ : Type} {key? : α → Option κ} {at' : κ → List β}
    {give : α → List β} {l : List α} (h : ∀ a ∈ l, ∃ k, key? a = some k ∧ at' k = give a) :
    (l.filterMap key?).flatMap at' = l.flatMap give := by
  induction l with
  | nil => rfl
  | cons a l ih =>
    obtain ⟨k, hk, hgive⟩ := h a (List.mem_cons_self ..)
    rw [List.filterMap_cons_some hk, List.flatMap_cons, List.flatMap_cons, hgive,
      ih fun b hb => h b (List.mem_cons_of_mem _ hb)]

/-! ## The files on disk -/

/-- The definitions of the file at a key. -/
def FileTree.definitionsAt (t : FileTree) (k : Key) : List Definition :=
  match t.get? k with
  | some (.file bytes) => ((TextContent.decode? bytes).map fun content => all content.text).getD []
  | _ => []

variable {t u x y : FileTree} {o : Options} {s s' : Session} {mark : Text} {savings : Nat → Saving}
  {fs done : List OpenFile} {f g : OpenFile} {k : Key}

theorem FileTree.definitions_congr {p : Path}
    (h : ∀ bytes, u.readFile p = .ok bytes ↔ t.readFile p = .ok bytes) :
    u.definitions p = t.definitions p := by
  unfold definitions loadText
  cases ht : t.readFile p with
  | ok bytes => rw [(h bytes).mpr ht]
  | error fault =>
    cases hu : u.readFile p with
    | ok bytes => exact nomatch ht.symm.trans ((h bytes).mp hu)
    | error fault' => rfl

namespace Session

/-- The keys of the resource files that were scanned, one for each time. -/
def keys (t : FileTree) (s : Session) : List Key :=
  s.resources.filterMap fun f => t.siteKey? f.path

/-- What the list of codes and the scanned resource files define in the tree `u`, each file counted
once. -/
def definitionsOnDisk (u t : FileTree) (o : Options) (s : Session) : List Definition :=
  u.definitions (o.target t) ++ (keys t s).dedup.flatMap u.definitionsAt

theorem mem_keys : k ∈ keys t s ↔ ∃ f ∈ s.resources, t.siteKey? f.path = some k :=
  List.mem_filterMap

/-! ## The resource files -/

/-- A file that was written where a resource file stands is that file. -/
theorem Apart.dirty_of_siteKey (h : Apart t o mark s) (ha : Account t u o mark s s' done)
    (hg : g ∈ done) (hf : f ∈ s.resources) (hkey : t.siteKey? g.path = t.siteKey? f.path) :
    (edited o f).dirty = true := by
  rcases changed_cases (ha.changed g hg) with ⟨-, rfl⟩ | ⟨f', hf', rfl⟩
  · -- the list of codes stands elsewhere
    obtain ⟨dir, name, hstands⟩ := (h.isResource hf).standsAt
    obtain ⟨_, _, hholds⟩ := ha.wrote.holds _ hg
    have hsep := hholds.separator
    rw [h.target_path] at hkey hsep
    exact absurd (hkey.trans hstands.site.siteKey?_eq)
      ((h.isResource hf).siteKey?_target_ne hstands hsep)
  · rw [path_edited] at hkey
    rw [← (h.edited_congr hf' hf hkey).2]
    exact (mem_changed_iff.mp (ha.changed _ hg)).2

theorem Apart.definitionsAt_eq (h : Apart t o mark s) (hf : f ∈ s.resources)
    (hk : t.siteKey? f.path = some k) : t.definitionsAt k = all f.content.text := by
  obtain ⟨dir, name, hstands⟩ := (h.isResource hf).standsAt
  obtain ⟨bytes, hfile, hdecode⟩ := hstands.file
  obtain rfl := Option.some.inj (hstands.site.siteKey?_eq.symm.trans hk)
  unfold FileTree.definitionsAt
  rw [hfile]
  dsimp only
  rw [hdecode]
  rfl

/-- What a stripped file defines on disk, once every save has succeeded. -/
theorem Apart.definitionsAt_after (h : Apart t o mark s) (ha : Account t u o mark s s' done)
    (hstrip : o.strip = true) (hsaved : ¬ s'.HasUnsaved) (hf : f ∈ s.resources)
    (hk : t.siteKey? f.path = some k) :
    u.definitionsAt k = if f.strip.file.dirty then f.strip.file.content.reread else [] := by
  obtain ⟨dir, name, hstands⟩ := (h.isResource hf).standsAt
  obtain ⟨bytes, hfile, -⟩ := hstands.file
  have hkey := hstands.site.siteKey?_eq
  have hedited : edited o f = f.strip.file := by rw [edited, if_pos hstrip]
  cases hdirty : f.strip.file.dirty with
  | true =>
    have hmem : edited o f ∈ (s.settle o).resources :=
      s.resources_settle o ▸ List.mem_map_of_mem hf
    have hdone := (ha.noted _ (List.mem_cons_of_mem _ hmem) (hedited ▸ hdirty)).resolve_right hsaved
    have hwritten := ha.wrote.get?_of_mem hdone (path_edited o f ▸ hstands.site)
    obtain rfl := Option.some.inj (hkey.symm.trans hk)
    unfold FileTree.definitionsAt
    rw [hwritten, hedited]
    rfl
  | false =>
    -- nobody wrote this file, and it defines nothing
    have hlines : f.strip.lines = [] := by
      have : (f.dirty || !f.strip.lines.isEmpty || !f.strip.languages.isEmpty) = false := hdirty
      simp only [Bool.or_eq_false_iff, Bool.not_eq_false', List.isEmpty_iff] at this
      exact this.1.2
    have hnone : t.definitionsAt k = [] := by
      rw [h.definitionsAt_eq hf hk, ← all_strip_lines, hlines]
      rfl
    obtain rfl := Option.some.inj (hkey.symm.trans hk)
    have hkept := ha.wrote.kept hfile
      (fun g hg hgk => by
        have := h.dirty_of_siteKey ha hg hf (hgk.trans hkey.symm)
        rw [hedited, hdirty] at this
        cases this)
      fun g _ => not_temporary hstands h.slash g.path
    unfold FileTree.definitionsAt at hnone ⊢
    rw [hkept, ← hfile]
    exact hnone

/-- What the resource files defined before, once for each time they were scanned, was moved. -/
theorem Apart.flatMap_keys (h : Apart t o mark s) :
    (keys t s).flatMap t.definitionsAt = s.movedLines.flatMap all := by
  rw [all_movedLines]
  refine flatMap_filterMap_eq fun f hf => ?_
  obtain ⟨dir, name, hstands⟩ := (h.isResource hf).standsAt
  exact ⟨_, hstands.site.siteKey?_eq, h.definitionsAt_eq hf hstands.site.siteKey?_eq⟩

/-- The resource files define nothing afterwards exactly if none of those that were stripped does when it
is read again. -/
theorem Apart.flatMap_keys_eq_nil_iff (h : Apart t o mark s) (ha : Account t u o mark s s' done)
    (hstrip : o.strip = true) (hsaved : ¬ s'.HasUnsaved) :
    (keys t s).dedup.flatMap u.definitionsAt = [] ↔
      ∀ f ∈ s.resources, f.strip.file.dirty = true → f.strip.file.content.reread = [] := by
  rw [List.flatMap_eq_nil_iff]
  constructor
  · intro hempty f hf hdirty
    obtain ⟨dir, name, hstands⟩ := (h.isResource hf).standsAt
    have hkey := hstands.site.siteKey?_eq
    have hafter := h.definitionsAt_after ha hstrip hsaved hf hkey
    rw [hdirty, if_pos rfl] at hafter
    rw [← hafter]
    exact hempty _ (List.mem_dedup.mpr (mem_keys.mpr ⟨f, hf, hkey⟩))
  · intro hbare k hk
    obtain ⟨f, hf, hkey⟩ := mem_keys.mp (List.mem_dedup.mp hk)
    rw [h.definitionsAt_after ha hstrip hsaved hf hkey]
    split
    · next hdirty => exact hbare f hf hdirty
    · rfl

/-! ## Runs that make no file -/

/-- What is in the tree `x` was in the tree `t`, but for the content of files. -/
def Narrowed (t x : FileTree) : Prop :=
  ∀ k e, x.get? k = some e → t.get? k = some e ∨
    (∃ bytes, t.get? k = some (.file bytes)) ∧ ∃ bytes, e = .file bytes

/-- A save of a resource file that succeeds takes its temporary file away. -/
theorem Ready.narrowed (h : Ready t mark fs) {touched : Key → Prop} (hx : Evolves t x touched)
    (hn : Narrowed t x) {saving : Saving} (hsaving : saving.Attempts mark) (hf : f ∈ fs)
    {content : TextContent} (hy : saving x f.path content = (y, none)) : Narrowed t y := by
  obtain ⟨dir, name, hstands⟩ := h.stands f hf
  have hsaved := h.saved hx hsaving hf hstands.site hy
  obtain ⟨temporary, -, -, hgone, -, hexact⟩ := hsaved.evolves
  intro k e he
  by_cases hplace : k = dir ++ [name]
  · obtain ⟨bytes, hfile, -⟩ := hstands.file
    subst hplace
    exact Or.inr ⟨⟨bytes, hfile⟩, _, Option.some.inj (he.symm.trans hsaved.file)⟩
  · have htemporary : k ≠ temporary := by
      rintro rfl
      exact nomatch hgone.symm.trans he
    refine hn k e ?_
    rw [← hexact ?_ k hplace htemporary, he]
    rw [(hx.site hstands.site).siteKey?_eq]
    rfl

/-- A row of saves, none of which has failed in the end. -/
theorem narrowed_foldl (hsavings : ∀ i, (savings i).Attempts mark) (h : Ready t mark fs)
    {changed : List OpenFile} (hchanged : ∀ g ∈ changed, ∃ f ∈ fs, g.path = f.path) (n : Nat)
    (s : Session) {touched : Key → Prop} (hx : Evolves t x touched) (hn : Narrowed t x)
    (hsaved : ¬ ((changed.zipIdx n).foldl
      (fun (t, s) (f, i) => s.save (savings i) t f) (x, s)).2.HasUnsaved) :
    Narrowed t ((changed.zipIdx n).foldl
      (fun (t, s) (f, i) => s.save (savings i) t f) (x, s)).1 := by
  induction changed generalizing n s x touched with
  | nil => exact hn
  | cons g changed ih =>
    obtain ⟨y, e?, hy⟩ : ∃ y e?, savings n x g.path g.content = (y, e?) := ⟨_, _, rfl⟩
    rw [foldl_save_cons hy] at hsaved ⊢
    cases e? with
    | some error =>
      -- the issue of this save stays to the end
      have hunsaved : (s.saved g.path (some error)).HasUnsaved :=
        ⟨_, List.mem_append_right _ (List.mem_singleton_self _), rfl⟩
      exact absurd ((notesWrites_foldl savings changed _ _ _).hasUnsaved hunsaved) hsaved
    | none =>
      obtain ⟨f, hf, hpath⟩ := hchanged g (List.mem_cons_self ..)
      rw [hpath] at hy
      obtain ⟨touched', hxy, -⟩ := h.save hx (hsavings n) hf hy
      exact ih (fun g hg => hchanged g (List.mem_cons_of_mem _ hg)) (n + 1) _ (hx.trans hxy)
        (h.narrowed hx hn (hsavings n) hf hy) hsaved

/-- A run that does not change the list of codes, and in which every save succeeds. -/
theorem Apart.narrowed (h : Apart t o mark s) (hsavings : ∀ i, (savings i).Attempts mark)
    (hclean : (s.settle o).target.dirty = false)
    (hflush : (s.settle o).flushEach savings t = (u, s')) (hsaved : ¬ s'.HasUnsaved) :
    Narrowed t u := by
  rcases flushEach_cases (saveTarget_of_clean (savings 0) t hclean) with ⟨hunsaved, -⟩ | ⟨-, heq⟩
  · cases hunsaved
  · have hfold := narrowed_foldl hsavings h.ready (fun g hg => (exists_ready hg).2) 1 (s.settle o)
      (.refl t) (fun _ _ => Or.inl)
    rw [← heq, hflush] at hfold
    exact hfold hsaved

/-! ## The list of codes -/

/-- A list of codes that did not change is the same file. -/
theorem Tame.readFile_target_iff (h : Tame t o mark s) (ha : Account t u o mark s s' done)
    (hclean : (s.settle o).target.dirty = false) (hn : Narrowed t u) {bytes : List UInt8} :
    u.readFile (o.target t) = .ok bytes ↔ t.readFile (o.target t) = .ok bytes := by
  have hnot : (s.settle o).target ∉ done := fun hmem =>
    nomatch hclean.symm.trans (mem_changed_iff.mp (ha.changed _ hmem)).2
  refine ⟨fun hread => ?_, h.readFile_target ha hnot⟩
  obtain ⟨k, hk, hfile⟩ := readFile_eq_ok_iff.mp hread
  obtain ⟨touched, hevolves, -⟩ := ha.wrote.evolves
  -- a file was at this key before, and the same way led to it
  obtain ⟨old, hold⟩ : ∃ old, t.get? k = some (.file old) :=
    (hn k _ hfile).elim (fun hsame => ⟨bytes, hsame⟩) And.left
  have hsame : ∀ k e, (∀ bytes, e ≠ .file bytes) → u.get? k = some e → t.get? k = some e :=
    fun k e hno he => (hn k e he).resolve_right fun hfile => hfile.2.elim hno
  have hlocate := locate_file_of_kept hevolves.here.symm (fun k => hsame k _ nofun)
    (fun k _ => hsame k _ nofun) hold hk
  have hread' := readFile_eq_ok_iff.mpr ⟨k, hlocate, hold⟩
  rw [hread', ← h.readFile_target ha hnot hread', hread]

/-- What the list of codes defines before a run is what its text does in the session. -/
theorem Apart.definitions_target (h : Apart t o mark s) :
    t.definitions (o.target t) = all s.target.content.text := by
  have hempty : all ({} : TextContent).text = [] := by decide +kernel
  rw [(gathers_scanned h.sound h.scan).target]
  unfold FileTree.definitions
  rcases start_cases t o with ⟨k, content, -, hload, htarget, -⟩ | ⟨⟨fault, hfault⟩, htarget, -⟩ |
    ⟨⟨e, he⟩, htarget, -⟩
  · rw [hload, htarget]
  · have hload : t.loadText (o.target t) = .error (.file (o.target t) fault) := by
      unfold loadText readFile
      rw [hfault]
    rw [hload, htarget, hempty]
  · rw [he, htarget, hempty]

/-- What the list of codes defines after a strip run: what it did, if nothing was moved to it, and
else what is read of its new text. -/
theorem Tame.definitions_target_after (h : Tame t o mark s) (hs' : Stripped s (s.settle o) [])
    (hsavings : ∀ i, (savings i).Attempts mark)
    (hflush : (s.settle o).flushEach savings t = (u, s')) (ha : Account t u o mark s s' done)
    (hsaved : ¬ s'.HasUnsaved) :
    u.definitions (o.target t) = if s.movedLines = [] then all s.target.content.text
      else (s.target.append s.movedLines).content.reread := by
  have htarget : (s.settle o).target = s.target.append s.movedLines := hs'.target
  split
  · next hmoved =>
    have hclean : (s.settle o).target.dirty = false := by
      rw [htarget, hmoved, OpenFile.append_nil, (collected_scanned h.scan).target]
    have hn := h.narrowed hsavings hclean hflush hsaved
    rw [← h.definitions_target]
    exact FileTree.definitions_congr fun bytes => h.readFile_target_iff ha hclean hn
  · next hmoved =>
    have hdone := (ha.noted _ (List.mem_cons_self ..) (hs'.dirty hmoved)).resolve_right hsaved
    have hread := ha.wrote.readFile_eq h.sound hdone
    rw [h.target_path] at hread
    rw [FileTree.definitions_of_encode hread, htarget]

/-! ## Strip runs that keep the count -/

/-- When a strip run moves each definition once. -/
structure MovesOnce (t : FileTree) (s : Session) : Prop where
  /-- A file that defines something was scanned once. -/
  once : ∀ k ∈ keys t s, t.definitionsAt k ≠ [] → (keys t s).count k = 1
  /-- A file that was stripped defines nothing when it is read again. -/
  bare : ∀ f ∈ s.resources, f.strip.file.dirty = true → f.strip.file.content.reread = []
  /-- The list of codes defines what its text does when it is read again. -/
  target : s.movedLines ≠ [] → (s.target.append s.movedLines).content.reread =
    all (s.target.append s.movedLines).content.text

/-- The string that a definition is for, and its code. -/
def pair (d : Definition) : Text × UInt16 := (d.identifier, d.code)

/-- What a strip run gives the list of codes to define. -/
theorem all_append_movedLines (s : Session) : all (s.target.append s.movedLines).content.text =
    all s.target.content.text ++ s.movedLines.flatMap all := by
  rw [OpenFile.text_append, all_foldl_append fun line => prefix_of_mem_movedLines]

/-- A strip run in which every save succeeds leaves as many definitions on disk as there were, each as
often, exactly when it moves each of them once. -/
theorem strip_run_keeps_count_iff {savings : Nat → Saving} {report : Report}
    (htame : Tame t o mark s) (hstrip : o.strip = true) (hupdate : o.update = false)
    (hsavings : ∀ i, (savings i).Attempts mark)
    (hrun : runEach savings t o = .ok (u, report))
    (hissues : ∀ i ∈ report.issues, i.kind ≠ .notSaved) :
    ((definitionsOnDisk u t o s).map pair).Perm ((definitionsOnDisk t t o s).map pair) ↔
      MovesOnce t s := by
  obtain ⟨s₀, s', hscan, hflush, rfl⟩ := runEach_eq_ok_iff.mp hrun
  obtain rfl : s₀ = s := Except.ok.inj (hscan.symm.trans htame.scan)
  obtain ⟨new, hs', hnew⟩ := settle_strip s₀ hstrip
  obtain rfl := hnew hupdate
  obtain ⟨done, ha⟩ := htame.exists_account hsavings hflush
  have hsaved : ¬ s'.HasUnsaved := fun ⟨i, hi, hkind⟩ => hissues i hi hkind
  have htarget := htame.definitions_target_after hs' hsavings hflush ha hsaved
  -- the list of codes has at least what it had and all that was moved
  have hmore : (all s₀.target.content.text ++ s₀.movedLines.flatMap all).Sublist
      (u.definitions (o.target t)) := by
    rw [htarget, ← all_append_movedLines]
    split
    · next hnil => rw [hnil, OpenFile.append_nil]
    · exact TextContent.all_sublist_reread _
  have hless : ((keys t s₀).dedup.flatMap t.definitionsAt).Sublist (s₀.movedLines.flatMap all) :=
    htame.flatMap_keys ▸ flatMap_dedup_sublist ..
  unfold definitionsOnDisk
  rw [htame.definitions_target, perm_map_append_iff pair hmore hless, htarget,
    htame.flatMap_keys_eq_nil_iff ha hstrip hsaved, ← htame.flatMap_keys, flatMap_dedup_eq_iff,
    htame.flatMap_keys, ← all_append_movedLines]
  have hreads : ((if s₀.movedLines = [] then all s₀.target.content.text
        else (s₀.target.append s₀.movedLines).content.reread) =
      all (s₀.target.append s₀.movedLines).content.text) ↔ (s₀.movedLines ≠ [] →
        (s₀.target.append s₀.movedLines).content.reread =
          all (s₀.target.append s₀.movedLines).content.text) := by
    split
    · next hnil => exact ⟨fun _ hne => absurd hnil hne, fun _ => by rw [hnil, OpenFile.append_nil]⟩
    · next hne => exact ⟨fun h _ => h, fun h => h hne⟩
  rw [hreads]
  exact ⟨fun ⟨htarget, hbare, honce⟩ => ⟨honce, hbare, htarget⟩,
    fun h => ⟨h.target, h.bare, h.once⟩⟩

/-- The codes on disk before a run of `o` and after it, if nothing keeps it from saving. -/
def countsOnDisk (t : FileTree) (o : Options) : Option (List (Text × UInt16) × List (Text × UInt16)) :=
  match scanned t o, run (fun t p content => t.replaceText ['1'] p content) t o with
  | .ok s, .ok (u, report) =>
    if report.issues.all (·.kind ≠ .notSaved) then
      some ((definitionsOnDisk t t o s).map pair, (definitionsOnDisk u t o s).map pair)
    else none
  | _, _ => none

theorem exists_of_countsOnDisk {before after : List (Text × UInt16)}
    (h : countsOnDisk t o = some (before, after)) :
    ∃ s u report, scanned t o = .ok s ∧
      run (fun t p content => t.replaceText ['1'] p content) t o = .ok (u, report) ∧
      (∀ i ∈ report.issues, i.kind ≠ .notSaved) ∧
      (definitionsOnDisk t t o s).map pair = before ∧
      (definitionsOnDisk u t o s).map pair = after := by
  unfold countsOnDisk at h
  split at h
  · next s u report hs hrun =>
    split at h
    · next hissues =>
      cases h
      exact ⟨s, u, report, hs, hrun, by simpa using hissues, rfl, rfl⟩
    · cases h
  · cases h

/-- One file that is scanned once. -/
theorem movesOnce_oneDefinition : ∃ s,
    scanned oneDefinition (stripRoot "UqiList.uni") = .ok s ∧ MovesOnce oneDefinition s := by
  have hcounts : countsOnDisk oneDefinition (stripRoot "UqiList.uni") =
      some ([("STR_A".toList, 1)], [("STR_A".toList, 1)]) := by decide +kernel
  obtain ⟨s, u, report, hs, hrun, hissues, hbefore, hafter⟩ := exists_of_countsOnDisk hcounts
  obtain ⟨s', -, htame⟩ := tame_oneDefinition
  obtain rfl : s' = s := Except.ok.inj (htame.scan.symm.trans hs)
  refine ⟨s', hs, (strip_run_keeps_count_iff htame rfl rfl
    (fun _ => attempts_replaceText ['1']) hrun hissues).mp ?_⟩
  rw [hbefore, hafter]

/-- A strip run of `root`, given twice. -/
def rootTwice : Options :=
  { stripRoot "UqiList.uni" with roots := [⟨"root".toList⟩, ⟨"root".toList⟩] }

/-- A root that is given twice doubles the definitions below it. -/
theorem definition_doubled_by_root_twice :
    ∃ s u report, scanned oneDefinition rootTwice = .ok s ∧
      run (fun t p content => t.replaceText ['1'] p content) oneDefinition rootTwice =
        .ok (u, report) ∧
      (∀ i ∈ report.issues, i.kind ≠ .notSaved) ∧
      (definitionsOnDisk oneDefinition oneDefinition rootTwice s).map pair =
        [("STR_A".toList, 1)] ∧
      (definitionsOnDisk u oneDefinition rootTwice s).map pair =
        [("STR_A".toList, 1), ("STR_A".toList, 1)] :=
  exists_of_countsOnDisk (by decide +kernel)

end Session

end FirmwareIds
