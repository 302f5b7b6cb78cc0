import FirmwareIds.Proofs.FileTree.Passing
import FirmwareIds.Proofs.FileTree.Widening
import Mathlib.Data.List.Basic

/-!
# A tree without one of its files

What a file is in the way of is seen when it is taken away. A save at a path that keeps clear of the
file, and so does the temporary file (`Shuns`), does to the tree without the file what it does to the
tree with it, down to the fault that it is refused with (`Beside.replaceText`). And a walk of the tree
without the file finds what the walk of the tree finds, in the same order and without the file
(`walk_erase`).

Each operation on files has its equation of this form: it and the removal of the file may be done in
either order.
-/

namespace FirmwareIds

/-- What is left out of a list adds nothing to what is put together from it. -/
theorem flatMap_filter {α β : Type} (p : α → Bool) (f : α → List β) (l : List α) :
    (l.filter p).flatMap f = l.flatMap fun a => if p a then f a else [] := by
  induction l with
  | nil => rfl
  | cons a l ih =>
    rw [List.filter_cons, List.flatMap_cons, ← ih]
    split <;> rfl

namespace FileTree

open FirmwareIds.Path

variable {t x y : FileTree} {k key dir : Key} {name mark : Text} {p above : Path} {e : Entry}
  {bytes : List UInt8}

/-! ## Changes in either order -/

theorem ext_entries {t u : FileTree} (hentries : t.entries = u.entries) (hhere : t.here = u.here) :
    t = u := by
  obtain ⟨entries, here, distinct⟩ := t
  obtain ⟨entries', here', distinct'⟩ := u
  obtain rfl : entries = entries' := hentries
  obtain rfl : here = here' := hhere
  rfl

theorem erase_comm (t : FileTree) (k key : Key) : (t.erase k).erase key = (t.erase key).erase k :=
  ext_entries (List.filter_comm ..) rfl

theorem put_erase (t : FileTree) (hne : key ≠ k) (e : Entry) :
    (t.erase k).put key e = (t.put key e).erase k := by
  refine ext_entries ?_ rfl
  show (key, e) :: ((t.erase k).erase key).entries =
    ((key, e) :: (t.erase key).entries).filter fun entry => !(entry.1 == k)
  rw [List.filter_cons, if_pos (by simpa using hne), erase_comm]
  rfl

theorem Beside.ne (h : Beside t x k) {e : Option Entry} (hkey : x.get? key = e)
    (he : ∀ bytes, e ≠ some (.file bytes)) : key ≠ k := by
  rintro rfl
  obtain ⟨bytes, hfile⟩ := h.file
  exact he bytes (hkey.symm.trans (h.kept.trans hfile))

theorem Beside.put_directory (h : Beside t x k) (hnone : x.get? key = none) :
    Beside t (x.put key .directory) k where
  here := h.here
  file := h.file
  kept := by rw [get?_put, if_neg (h.ne hnone nofun).symm, h.kept]
  link_of key' target hlink := by
    rw [get?_put] at hlink
    split at hlink
    · cases hlink
    · exact h.link_of key' target hlink
  link key' target hlink := by
    rw [get?_put]
    split
    · next heq =>
      subst heq
      rcases h.link key' target hlink with hlink | ⟨bytes, hfile⟩
      · exact nomatch hnone.symm.trans hlink
      · exact nomatch hnone.symm.trans hfile
    · exact h.link key' target hlink

theorem Beside.put_file (h : Beside t x k) (hne : key ≠ k) (bytes : List UInt8) :
    Beside t (x.put key (.file bytes)) k where
  here := h.here
  file := h.file
  kept := by rw [get?_put, if_neg hne.symm, h.kept]
  link_of key' target hlink := by
    rw [get?_put] at hlink
    split at hlink
    · cases hlink
    · exact h.link_of key' target hlink
  link key' target hlink := by
    rw [get?_put]
    split
    · exact Or.inr ⟨bytes, rfl⟩
    · exact h.link key' target hlink

theorem Beside.erase (h : Beside t x k) (hne : key ≠ k)
    (hno : ∀ target, t.get? key ≠ some (.link target)) : Beside t (x.erase key) k where
  here := h.here
  file := h.file
  kept := by rw [get?_erase, if_neg hne.symm, h.kept]
  link_of key' target hlink := by
    rw [get?_erase] at hlink
    split at hlink
    · cases hlink
    · exact h.link_of key' target hlink
  link key' target hlink := by
    rw [get?_erase]
    split
    · next heq => exact absurd hlink (heq ▸ hno target)
    · exact h.link key' target hlink

/-- A path that does not pass the file has its last name elsewhere. -/
theorem Beside.ne_of_nameKey (h : Beside t x k) (hno : ¬ t.Passes p k) {noName : Fault}
    (hkey : x.nameKey p noName = .ok key) : key ≠ k := by
  obtain ⟨dir, name, hsite, -, rfl⟩ := nameKey_eq_ok_iff.mp hkey
  rintro rfl
  exact hno (h.passes_site hsite)

/-! ## Making directories -/

theorem Beside.makeDirectory (h : Beside t x k) (hno : ¬ t.Passes p k) :
    (∀ y, x.makeDirectory p = .ok y → Beside t y k) ∧
      (x.erase k).makeDirectory p = (x.makeDirectory p).map (·.erase k) := by
  refine ⟨fun y hy => ?_, ?_⟩
  · obtain ⟨key, -, hnone, rfl⟩ := make_eq_ok_iff.mp hy
    exact h.put_directory hnone
  · unfold FileTree.makeDirectory make
    rw [h.nameKey_erase hno]
    cases hkey : x.nameKey p .alreadyExists with
    | error fault => rfl
    | ok key =>
      have hne := h.ne_of_nameKey hno hkey
      dsimp only
      rw [get?_erase, if_neg hne]
      split
      · rfl
      · exact congrArg Except.ok (x.put_erase hne .directory)

/-- Making a directory is as if the file were not there. -/
theorem Beside.ensureDirectory (h : Beside t x k) (hno : ¬ t.Passes p k) :
    Beside t (x.ensureDirectory p).1 k ∧ (x.erase k).ensureDirectory p =
      ((x.ensureDirectory p).1.erase k, (x.ensureDirectory p).2) := by
  obtain ⟨hbeside, heq⟩ := h.makeDirectory hno
  unfold FileTree.ensureDirectory
  rw [heq]
  cases hy : x.makeDirectory p with
  | ok y => exact ⟨hbeside y hy, rfl⟩
  | error fault =>
    refine ⟨h, ?_⟩
    show (x.erase k, _) = _
    rw [h.isDirectory_erase hno]

/-- Making directories is as if the file were not there, if none of their paths passes it. -/
theorem Beside.makeDirectories {x : FileTree} {p : Path} (h : Beside t x k)
    (hno : p.text ≠ [] → ¬ t.Passes p k) :
    Beside t (x.makeDirectories p).1 k ∧ (x.erase k).makeDirectories p =
      ((x.makeDirectories p).1.erase k, (x.makeDirectories p).2) := by
  rw [FileTree.makeDirectories, FileTree.makeDirectories]
  by_cases hempty : p.text = []
  · rw [hempty]
    exact ⟨h, rfl⟩
  have hno := hno hempty
  rw [if_neg (by simpa using hempty), if_neg (by simpa using hempty)]
  obtain ⟨hy, heq⟩ := h.ensureDirectory hno
  obtain ⟨y, fault?, hens⟩ : ∃ y fault?, x.ensureDirectory p = (y, fault?) := ⟨_, _, rfl⟩
  rw [hens] at hy heq
  rw [heq, hens]
  by_cases hmissing : fault? = some .notFound
  · subst hmissing
    dsimp only
    split
    · exact ⟨hy, rfl⟩
    · next above habove =>
      obtain ⟨hz, heq'⟩ := hy.makeDirectories fun hne hp =>
        hno (passes_of_parent? habove hne hp)
      obtain ⟨z, fault?, hmade⟩ : ∃ z fault?, y.makeDirectories above = (z, fault?) := ⟨_, _, rfl⟩
      rw [hmade] at hz heq'
      rw [heq', hmade]
      cases fault? with
      | some fault => exact ⟨hz, rfl⟩
      | none => exact hz.ensureDirectory hno
  · cases fault? with
    | none => exact ⟨hy, rfl⟩
    | some fault =>
      cases fault with
      | notFound => exact absurd rfl hmissing
      | _ => exact ⟨hy, rfl⟩
termination_by p.text.length
decreasing_by exact length_parent?_lt (by assumption)

theorem Beside.makeParent (h : Beside t x k) (hno : ¬ t.Passes p k) :
    Beside t (x.makeParent p).1 k ∧ (x.erase k).makeParent p =
      ((x.makeParent p).1.erase k, (x.makeParent p).2) := by
  unfold FileTree.makeParent
  cases habove : p.parent? with
  | none => exact ⟨h, rfl⟩
  | some above =>
    obtain ⟨hy, heq⟩ := h.makeDirectories (p := above) fun hne hp =>
      hno (passes_of_parent? habove hne hp)
    refine ⟨hy, ?_⟩
    dsimp only
    rw [heq]

/-! ## Saving -/

/-- The path keeps clear of the file at `k`, and so does its temporary file; and no link is where that
may stand. -/
structure Shuns (t : FileTree) (mark : Text) (p : Path) (k : Key) : Prop where
  slash : '/' ∉ mark
  path : ¬ t.Passes p k
  temporary : ∀ key, t.IsTemporary mark p key →
    key ≠ k ∧ ∀ target, t.get? key ≠ some (.link target)

theorem Shuns.not_passes_temporary (h : t.Shuns mark p k) :
    ¬ t.Passes (FileTree.temporary mark p) k := by
  intro hp
  rcases passes_of_temporary h.slash hp with hp | ⟨key, hkey, rfl | ⟨target, hlink⟩⟩
  · exact h.path hp
  · exact (h.temporary key hkey).1 rfl
  · exact (h.temporary key hkey).2 target hlink

/-- Where the temporary file stands, it may stand. -/
theorem Beside.isTemporary (h : Beside t x k) (hmark : '/' ∉ mark)
    (hkey : x.temporaryKey? mark p = some key) : t.IsTemporary mark p key := by
  obtain ⟨dir, name, hsite, rfl⟩ := siteKey?_eq_some_iff.mp hkey
  have hlast := hsite.last
  rw [getLast?_pieces_temporary hmark] at hlast
  exact ⟨h.passes_site hsite, by rw [List.getLast?_concat, hlast]⟩

/-- A temporary file is written where it may stand. -/
theorem Beside.isTemporary_of_fileKey (h : Beside t x k) (hp : t.Shuns mark p k)
    (hkey : x.fileKey (temporary mark p) = .ok key) :
    x.temporaryKey? mark p = some key ∧ t.IsTemporary mark p key := by
  have hsep := endsWithSeparator_temporary hp.slash p
  obtain ⟨dir, hsite⟩ := site_of_fileKey hkey hsep (getLast?_pieces_temporary hp.slash p)
    (isStay_temporaryName mark p) (temporaryName_ne_upStep mark p)
  have htemp := h.isTemporary hp.slash hsite.siteKey?_eq
  obtain ⟨rfl, -⟩ := hsite.fileKey_eq hsep
    (fun target hlink => (hp.temporary _ htemp).2 target (h.link_of _ _ hlink)) hkey
  exact ⟨hsite.siteKey?_eq, htemp⟩

theorem Beside.writeFile_erase (h : Beside t x k) (hp : t.Shuns mark p k) :
    (x.erase k).writeFile (temporary mark p) bytes =
      (x.writeFile (temporary mark p) bytes).map (·.erase k) := by
  unfold writeFile
  rw [h.fileKey_erase hp.not_passes_temporary]
  cases hkey : x.fileKey (temporary mark p) with
  | error fault => rfl
  | ok key =>
    have hne := (hp.temporary key (h.isTemporary_of_fileKey hp hkey).2).1
    exact congrArg Except.ok (x.put_erase hne (.file bytes))

theorem Beside.move_erase (h : Beside t x k) (hp : t.Shuns mark p k) :
    (x.erase k).move (temporary mark p) p = (x.move (temporary mark p) p).map (·.erase k) := by
  unfold move
  rw [h.nameKey_erase hp.not_passes_temporary, h.nameKey_erase hp.path]
  cases hkey : x.nameKey (temporary mark p) .busy with
  | error fault => rfl
  | ok key =>
    cases hkey' : x.nameKey p .busy with
    | error fault => rfl
    | ok key' =>
      have hne := h.ne_of_nameKey hp.not_passes_temporary hkey
      have hne' := h.ne_of_nameKey hp.path hkey'
      simp only [bind, Except.bind, get?_erase, if_neg hne, if_neg hne']
      split
      · rfl
      · rfl
      · split
        · rfl
        · split
          · rfl
          · rw [erase_comm, put_erase _ hne']
            rfl

theorem Beside.removeFile_erase (h : Beside t x k) (hp : t.Shuns mark p k) :
    (x.erase k).removeFile (temporary mark p) =
      (x.removeFile (temporary mark p)).map (·.erase k) := by
  unfold removeFile
  rw [h.nameKey_erase hp.not_passes_temporary]
  cases hkey : x.nameKey (temporary mark p) .isDirectory with
  | error fault => rfl
  | ok key =>
    have hne := h.ne_of_nameKey hp.not_passes_temporary hkey
    simp only [bind, Except.bind, get?_erase, if_neg hne]
    split
    · rfl
    · rfl
    · split
      · rfl
      · rw [erase_comm]
        rfl

/-- Taking the temporary file away leaves the links alone. -/
theorem Beside.removeFile (h : Beside t x k) (hp : t.Shuns mark p k)
    (hy : x.removeFile (temporary mark p) = .ok y) : Beside t y k := by
  obtain ⟨key, hkey, -, rfl⟩ := removeFile_eq_ok hy
  have htemp := hp.temporary key (h.isTemporary hp.slash hkey)
  exact h.erase htemp.1 htemp.2

/-- Writing beside and moving over is as if the file were not there. -/
theorem Beside.writeAndMove (h : Beside t x k) (hp : t.Shuns mark p k) (bytes : List UInt8) :
    Beside t (x.writeAndMove (temporary mark p) p bytes).1 k ∧
      (x.erase k).writeAndMove (temporary mark p) p bytes =
        ((x.writeAndMove (temporary mark p) p bytes).1.erase k,
          (x.writeAndMove (temporary mark p) p bytes).2) := by
  unfold FileTree.writeAndMove
  rw [h.writeFile_erase hp]
  cases hwrite : x.writeFile (temporary mark p) bytes with
  | error fault => exact ⟨h, rfl⟩
  | ok y =>
    obtain ⟨key, hkey, rfl⟩ := writeFile_eq_ok_iff.mp hwrite
    obtain ⟨hsite, htemp⟩ := h.isTemporary_of_fileKey hp hkey
    obtain ⟨hne, hlink⟩ := hp.temporary key htemp
    have hy := h.put_file hne bytes
    dsimp only [Except.map]
    rw [hy.move_erase hp]
    cases hmove : (x.put key (.file bytes)).move (temporary mark p) p with
    | error fault => exact ⟨hy, rfl⟩
    | ok z =>
      refine ⟨?_, rfl⟩
      -- what is moved is the file that was written
      obtain ⟨key', dir, name, e, hkey', hover, -, he, -, -, rfl⟩ := move_eq_ok hmove
      obtain rfl : key' = key := by
        obtain ⟨dir', name', hsite', -, rfl⟩ := nameKey_eq_ok_iff.mp hkey'
        exact Option.some.inj (hsite'.of_put_file.siteKey?_eq.symm.trans hsite)
      rw [get?_put, if_pos rfl] at he
      obtain rfl := Option.some.inj he
      refine (hy.erase hne hlink).put_file ?_ bytes
      rintro rfl
      exact hp.path (hy.passes_site hover)

/-- A save is as if the file were not there. -/
theorem Beside.replaceText (h : Beside t x k) (hp : t.Shuns mark p k) (content : TextContent) :
    Beside t (x.replaceText mark p content).1 k ∧ (x.erase k).replaceText mark p content =
      ((x.replaceText mark p content).1.erase k, (x.replaceText mark p content).2) := by
  unfold FileTree.replaceText
  obtain ⟨hy, heq⟩ := h.makeParent hp.path
  obtain ⟨y, error?, hparent⟩ : ∃ y error?, x.makeParent p = (y, error?) := ⟨_, _, rfl⟩
  rw [hparent] at hy heq
  rw [heq, hparent]
  cases error? with
  | some error => exact ⟨hy, rfl⟩
  | none =>
    obtain ⟨hz, heq'⟩ := hy.writeAndMove hp content.encode
    obtain ⟨z, error?, hmoved⟩ : ∃ z error?,
      y.writeAndMove (temporary mark p) p content.encode = (z, error?) := ⟨_, _, rfl⟩
    rw [hmoved] at hz heq'
    dsimp only
    rw [heq', hmoved]
    cases error? with
    | none => exact ⟨hz, rfl⟩
    | some error =>
      dsimp only
      rw [hz.removeFile_erase hp]
      cases hremove : z.removeFile (temporary mark p) with
      | error fault => exact ⟨hz, rfl⟩
      | ok v => exact ⟨hz.removeFile hp hremove, rfl⟩

/-! ## Walks -/

/-- Without the file, its directory holds the same in the same order. -/
theorem children_erase (t : FileTree) (k dir : Key) :
    (t.erase k).children dir = (t.children dir).filter fun child => dir ++ [child.1] ≠ k := by
  -- both lists are in the strict order of their names
  have hsorted := pairwise_children t dir
  refine List.Perm.eq_of_pairwise
    (fun a b _ _ hab hba => absurd (Text.le_antisymm hab.1 hba.1) hab.2)
    (pairwise_children _ dir) (hsorted.filter _) ?_
  have hnodup : ∀ t : FileTree, (t.children dir).Nodup := fun t =>
    (pairwise_children t dir).imp fun hab heq => hab.2 (congrArg Prod.fst heq)
  refine (List.perm_ext_iff_of_nodup (hnodup _) ((hnodup t).filter _)).mpr fun ⟨name, e⟩ => ?_
  rw [mem_children, mem_entries_iff, get?_erase, List.mem_filter, mem_children, mem_entries_iff]
  by_cases hk : dir ++ [name] = k <;> simp [hk]

/-- The path of a file that a walk has found, if it is the one at the key `k`. The path may be longer
than one that can be taken. -/
def visit? (t : FileTree) (k : Key) : Found → Option Path
  | .file p =>
    if (t.follow false linkLimit (startFrom t.here p) p.steps).toOption = some (.there k) then some p
    else none
  | .unlisted .. => none

theorem FoundAt.follow_eq (h : t.FoundAt p dir name) :
    t.follow false linkLimit (startFrom t.here p) p.steps = .ok (.there (dir ++ [name])) := by
  obtain ⟨left, hway⟩ := h.way
  obtain ⟨bytes, hfile⟩ := h.file
  have hname : t.NameStep dir name := ⟨hway.directory, h.stay, h.named.2.2.2.1, h.named.2.2.2.2⟩
  rw [h.steps_eq, hway.follow_append (List.cons_ne_nil _ _) fun hno => Bool.false_ne_true hno.1,
    follow_name hname not_creating_nil, hfile]
  exact follow_nil

theorem FoundAt.visit?_eq (h : t.FoundAt p dir name) :
    t.visit? k (.file p) = if dir ++ [name] = k then some p else none := by
  show (if _ = some (Place.there k) then some p else none) = _
  rw [h.follow_eq]
  simp [Except.toOption]

/-- The walks below one directory. -/
theorem walkBelow_erase (hs : t.Sound) (hfile : t.get? k = some (.file bytes))
    (excluded : List Path) {dir : Path} {key : Key} {left : Nat}
    (hway : t.Way left key linkLimit (startFrom t.here dir) dir.pieces) :
    (t.erase k).walkBelow excluded dir key =
      (t.walkBelow excluded dir key).filter fun x => (t.visit? k x).isNone := by
  rw [walkBelow_eq, walkBelow_eq]
  cases dir.fault? with
  | some fault => rfl
  | none =>
    dsimp only
    rw [children_erase, List.filter_flatMap, flatMap_filter]
    refine List.flatMap_congr fun ⟨name, e⟩ hchild => ?_
    have he := mem_entries_iff.mp (mem_children.mp hchild)
    unfold walkChild
    dsimp only
    by_cases hk : key ++ [name] = k
    · -- this is the file, if it is not excluded
      subst hk
      obtain rfl := Option.some.inj (he.symm.trans hfile)
      have hvisit := (foundAt_of_child hs hway he).visit?_eq (k := key ++ [name])
      rw [if_pos rfl] at hvisit
      rw [if_neg (by simp)]
      split
      · rfl
      · simp [hvisit]
    · rw [if_pos (by simpa using hk)]
      split
      · rfl
      cases e with
      | link target => rfl
      | file bytes =>
        have hvisit := (foundAt_of_child hs hway he).visit?_eq (k := k)
        rw [if_neg hk] at hvisit
        simp [hvisit]
      | directory => exact walkBelow_erase hs hfile excluded (way_of_child hs hway he)
termination_by t.depth - key.length
decreasing_by
  have := length_lt_depth hchild
  rw [List.length_append, List.length_singleton]
  omega

/-- A walk of a root that does not pass the file finds all but the file. -/
theorem walk_erase (hs : t.Sound) (hfile : t.get? k = some (.file bytes)) {root : Path}
    (hno : ¬ t.Passes root k) (excluded : List Path) :
    (t.erase k).walk root excluded =
      (t.walk root excluded).map (·.filter fun x => (t.visit? k x).isNone) := by
  have hbeside := Beside.refl hfile
  unfold walk
  rw [hbeside.locate_erase hno]
  cases hk : t.locate root with
  | error fault => rfl
  | ok key =>
    dsimp only
    by_cases hdir : t.get? key = some .directory
    · rw [if_neg (not_not_intro hdir), if_neg (not_not_intro (hbeside.directory_erase.mpr hdir))]
      split
      · rfl
      · have hroot : t.isDirectory root = true := by
          unfold isDirectory
          rw [hk]
          exact beq_iff_eq.mpr hdir
        obtain ⟨hvalid, left, stop, hway⟩ := isDirectory_iff.mp hroot
        rw [locate_of_way hvalid hway] at hk
        cases hk
        exact congrArg Except.ok (walkBelow_erase hs hfile excluded hway)
    · rw [if_pos hdir, if_pos (mt hbeside.directory_erase.mp hdir)]
      rfl

end FileTree

end FirmwareIds
