import FirmwareIds.Proofs.FileTree.Directories
import FirmwareIds.Proofs.Success

/-!
# Saving a text

What `replaceText` does to a tree, whether it succeeds or not. If it succeeds the path leads to a
file with the new bytes (`replaceText_saved`); if it fails the place of the temporary file is all that
changed, apart from directories that were made (`replaceText_failed`). Neither breaks a way.

This needs a path at which a save can do no harm (`Savable`). A link at the place of the temporary
file would be written through. A link at the path itself is replaced, which is harmless unless it
leads to a directory: then a way can go through it. It does not if the path leads to no directory,
but that must not be for the number of links on the way alone (`savable_of_locate`).
-/

namespace FirmwareIds

namespace FileTree

open FirmwareIds.Path

variable {t u : FileTree} {p : Path} {dir : Key} {name mark : Text}

/-- The key at which the last name of a path stands. -/
def siteKey? (t : FileTree) (p : Path) : Option Key :=
  match t.site p with
  | .ok (dir, some name) => some (dir ++ [name])
  | _ => none

theorem siteKey?_eq_some_iff {k : Key} :
    t.siteKey? p = some k ↔ ∃ dir name, t.Site p dir name ∧ k = dir ++ [name] := by
  unfold siteKey?
  constructor
  · intro h
    split at h
    · next dir name hsite =>
      exact ⟨dir, name, site_eq_ok_iff.mp hsite, (Option.some.inj h).symm⟩
    · cases h
  · rintro ⟨dir, name, hsite, rfl⟩
    rw [site_eq_ok_iff.mpr hsite]

theorem Site.siteKey?_eq (h : t.Site p dir name) : t.siteKey? p = some (dir ++ [name]) :=
  siteKey?_eq_some_iff.mpr ⟨dir, name, h, rfl⟩

/-- The key at which the temporary file for a path stands. -/
def temporaryKey? (t : FileTree) (mark : Text) (p : Path) : Option Key :=
  t.siteKey? (temporary mark p)

/-- A text can be saved at the path without harm to the ways of the tree. -/
structure Savable (t : FileTree) (mark : Text) (p : Path) : Prop where
  slash : '/' ∉ mark
  temporary : ∀ k target, t.temporaryKey? mark p = some k → t.get? k ≠ some (.link target)
  nowhere : ∀ dir name, t.Site p dir name → IsEntryName name → p.endsWithSeparator = false →
    t.LeadsNowhere (dir ++ [name])
  up : upStep ∈ p.names → (t.siteKey? p).isSome

theorem savable_of_locate (hmark : '/' ∉ mark)
    (htemporary : ∀ k target, t.temporaryKey? mark p = some k → t.get? k ≠ some (.link target))
    (hlinks : t.locate p ≠ .error .tooManyLinks) (hfile : t.isDirectory p = false)
    (hup : upStep ∈ p.names → (t.siteKey? p).isSome) : t.Savable mark p where
  slash := hmark
  temporary := htemporary
  nowhere _ _ hsite hname hsep := hsite.leadsNowhere hsep hname.2.2.2.2 hlinks hfile
  up := hup

/-! ## The temporary file -/

theorem length_temporaryName (mark : Text) (p : Path) :
    (temporaryName mark p).length = (p.fileName?.getD []).length + mark.length + 6 := by
  simp only [temporaryName, List.cons_append, List.length_cons, List.length_append]
  have : ".tmp".toList.length = 4 := rfl
  omega

theorem isStay_temporaryName (mark : Text) (p : Path) : isStay (temporaryName mark p) = false := by
  have hlength := length_temporaryName mark p
  refine isStay_eq_false_iff.mpr ⟨List.cons_ne_nil _ _, fun h => ?_⟩
  rw [h, List.length_singleton] at hlength
  omega

theorem temporaryName_ne_upStep (mark : Text) (p : Path) : temporaryName mark p ≠ upStep := by
  intro h
  have hlength := length_temporaryName mark p
  rw [h, show upStep.length = 2 from rfl] at hlength
  omega

/-- The temporary file does not bear the name of the file. -/
theorem temporaryName_ne (mark : Text) (h : p.fileName? = some name) :
    temporaryName mark p ≠ name := by
  intro heq
  have hlength := length_temporaryName mark p
  rw [h, heq, Option.getD_some] at hlength
  omega

theorem endsWithSeparator_temporary (hmark : '/' ∉ mark) (p : Path) :
    (temporary mark p).endsWithSeparator = false := by
  have hjoin : ∀ dir : Path, (dir.join ⟨temporaryName mark p⟩).endsWithSeparator = false :=
    fun dir => (dir.join_name (slash_not_mem_temporaryName hmark p) (List.cons_ne_nil _ _)).2.2
  show (p.withFileName (temporaryName mark p)).endsWithSeparator = false
  unfold withFileName
  split <;> exact hjoin _

/-- A temporary file that was written stands under its name in a directory. -/
theorem site_of_writeFile (hmark : '/' ∉ mark) {bytes : List UInt8}
    (hlink : ∀ k target, t.temporaryKey? mark p = some k → t.get? k ≠ some (.link target))
    (h : t.writeFile (temporary mark p) bytes = .ok u) :
    ∃ dir, t.Site (temporary mark p) dir (temporaryName mark p) ∧
      IsEntryName (temporaryName mark p) ∧
      t.get? (dir ++ [temporaryName mark p]) ≠ some .directory ∧
      u = t.put (dir ++ [temporaryName mark p]) (.file bytes) := by
  obtain ⟨k, hk, rfl⟩ := writeFile_eq_ok_iff.mp h
  have hsep := endsWithSeparator_temporary hmark p
  obtain ⟨dir, hsite⟩ := site_of_fileKey hk hsep (getLast?_pieces_temporary hmark p)
    (isStay_temporaryName mark p) (temporaryName_ne_upStep mark p)
  obtain ⟨rfl, hshort, hdir⟩ := hsite.fileKey_eq hsep
    (fun target => hlink _ target hsite.siteKey?_eq) hk
  exact ⟨dir, hsite, hsite.isEntryName hshort, hdir, rfl⟩

/-- The temporary file for a path lies where the path does. -/
theorem liesIn_temporary {above : Path} {n : Text} (hmark : '/' ∉ mark) (hfile : p.fileName? = some n)
    (habove : p.parent? = some above) : LiesIn (FileTree.temporary mark p) above := by
  obtain ⟨above', habove', htemp⟩ : ∃ above, p.parent? = some above ∧
      FileTree.temporary mark p = above.join ⟨temporaryName mark p⟩ := temporary_eq hfile
  obtain rfl : above' = above := Option.some.inj (habove'.symm.trans habove)
  obtain ⟨hpieces, habs, -⟩ :=
    above'.join_name (slash_not_mem_temporaryName hmark p) (List.cons_ne_nil _ _)
  rw [htemp]
  refine ⟨habs.symm, ?_, ?_⟩
  · unfold join
    rw [if_neg (show ¬ isAbsolute ⟨temporaryName mark p⟩ = true from Bool.false_ne_true)]
    split
    · exact List.prefix_append ..
    · exact List.prefix_append ..
  · rw [hpieces, List.dropLast_concat]

/-- The temporary file for a file stands beside it. -/
theorem Site.temporary (hmark : '/' ∉ mark) (h : t.Site p dir name)
    (hvalid : (FileTree.temporary mark p).fault? = none) :
    t.Site (FileTree.temporary mark p) dir (temporaryName mark p) := by
  obtain ⟨above, habove, hfile, hin⟩ := h.parent
  have hbeside := liesIn_temporary hmark hfile habove
  obtain ⟨left, hway⟩ := h.way_above hin
  refine ⟨hvalid, getLast?_pieces_temporary hmark p, isStay_temporaryName mark p,
    temporaryName_ne_upStep mark p, left, ?_⟩
  rw [← startFrom_eq rfl hbeside.absolute]
  exact hway.of_plain hbeside.pieces

/-- Changes of the tree do not move the temporary file for a file. -/
theorem Site.temporaryKey?_eq (hmark : '/' ∉ mark) (h : t.Site p dir name) {touched : Key → Prop}
    (hevolves : Evolves t u touched) {k : Key} (hk : u.temporaryKey? mark p = some k) :
    t.temporaryKey? mark p = some k ∧ k = dir ++ [temporaryName mark p] := by
  obtain ⟨dir', name', hsite, rfl⟩ := siteKey?_eq_some_iff.mp hk
  have hu := (hevolves.site h).temporary hmark hsite.valid
  obtain ⟨rfl, rfl⟩ := hu.unique hsite
  exact ⟨(h.temporary hmark hsite.valid).siteKey?_eq, rfl⟩

/-- If the directory of a file had to be made, the file and the temporary file for it stand in a new one,
and what was made is on the way there. -/
theorem site_of_makeParent {q : Path} (hs : t.Sound) (hmark : '/' ∉ mark) (hup : upStep ∉ p.names)
    (hu : (t.makeParent p).1 = u) (hne : u ≠ t) (hq : q = p ∨ q = FileTree.temporary mark p)
    (hsite : u.Site q dir name) : t.get? dir = none ∧ ∀ k, u.get? k ≠ t.get? k → k <+: dir := by
  cases hq with
  | inl hq =>
    obtain ⟨above, habove, -, hin⟩ := (hq ▸ hsite).parent
    exact makeParent_fresh hs hup hu hne habove (hq ▸ hin) hsite
  | inr hq =>
    obtain ⟨n, above, hfile, habove⟩ := named_of_makeParent hup (hu ▸ hne)
    exact makeParent_fresh hs hup hu hne habove (hq ▸ liesIn_temporary hmark hfile habove) hsite

/-- Once the directory of a file is made, it is the one that was there, or a new one; and the
temporary file stands in the same. -/
theorem Savable.site_cases (h : t.Savable mark p) (hs : t.Sound)
    (hparent : t.makeParent p = (u, none)) :
    u = t ∨ (∀ dir name, u.Site p dir name → t.get? dir = none) ∧
      ∀ dir name, u.Site (FileTree.temporary mark p) dir name → t.get? dir = none := by
  have hu : (t.makeParent p).1 = u := by rw [hparent]
  by_cases hup : upStep ∈ p.names
  · obtain ⟨k, hk⟩ := Option.isSome_iff_exists.mp (h.up hup)
    obtain ⟨dir, name, hsite, -⟩ := siteKey?_eq_some_iff.mp hk
    rw [makeParent_of_site hsite] at hu
    exact Or.inl hu.symm
  by_cases hne : u = t
  · exact Or.inl hne
  · exact Or.inr ⟨fun _ _ hsite => (site_of_makeParent hs h.slash hup hu hne (Or.inl rfl) hsite).1,
      fun _ _ hsite => (site_of_makeParent hs h.slash hup hu hne (Or.inr rfl) hsite).1⟩

/-- No link stands at the place of the temporary file when the directory of the file is made. -/
theorem Savable.temporary_of_grown (h : t.Savable mark p) (hs : t.Sound)
    (hparent : t.makeParent p = (u, none)) :
    ∀ k target, u.temporaryKey? mark p = some k → u.get? k ≠ some (.link target) := by
  have hgrows : Grows t u := by
    have := t.grows_makeParent p
    rwa [hparent] at this
  intro k target hk hlink
  rcases h.site_cases hs hparent with rfl | ⟨-, htemporary⟩
  · exact h.temporary k target hk hlink
  · obtain ⟨dir, name, hsite, rfl⟩ := siteKey?_eq_some_iff.mp hk
    have hnone := hs.get?_eq_none (htemporary dir name hsite) name
    rw [hgrows.link_of hlink] at hnone
    cases hnone

/-! ## Moving and removing -/

theorem move_eq_ok {q : Path} (h : t.move q p = .ok u) :
    ∃ k dir name e, t.nameKey q .busy = .ok k ∧ t.Site p dir name ∧ IsEntryName name ∧
      t.get? k = some e ∧ t.get? (dir ++ [name]) ≠ some .directory ∧
      p.endsWithSeparator = false ∧ u = (t.erase k).put (dir ++ [name]) e := by
  unfold move at h
  obtain ⟨k, hk, h⟩ := bind_eq_ok_iff.mp h
  obtain ⟨k', hk', h⟩ := bind_eq_ok_iff.mp h
  obtain ⟨dir, name, hsite, hshort, rfl⟩ := nameKey_eq_ok_iff.mp hk'
  split at h
  · cases h
  · cases h
  · next e _ he =>
    split at h
    · cases h
    · next hsep =>
      split at h
      · cases h
      · next hdir =>
        cases h
        refine ⟨k, dir, name, e, hk, hsite, hsite.isEntryName hshort, he, hdir, ?_, rfl⟩
        simp only [Bool.or_eq_true, not_or, Bool.not_eq_true] at hsep
        exact hsep.2

theorem removeFile_eq_ok {q : Path} (h : t.removeFile q = .ok u) :
    ∃ k, t.siteKey? q = some k ∧ t.get? k ≠ some .directory ∧ u = t.erase k := by
  unfold removeFile at h
  obtain ⟨k, hk, h⟩ := bind_eq_ok_iff.mp h
  obtain ⟨dir, name, hsite, -, rfl⟩ := nameKey_eq_ok_iff.mp hk
  split at h
  · cases h
  · cases h
  · next e hdir he =>
    split at h
    · cases h
    · cases h
      refine ⟨_, hsite.siteKey?_eq, ?_, rfl⟩
      intro hd
      rw [he] at hd
      exact hdir (Option.some.inj hd)

/-- A file that is moved over what is no directory, and no link to one. -/
theorem evolves_move {k : Key} {bytes : List UInt8} (hk : t.get? k = some (.file bytes))
    (hdir : t.get? dir = some .directory) (hname : IsEntryName name)
    (hover : t.get? (dir ++ [name]) ≠ some .directory)
    (hlink : t.LeadsNowhere (dir ++ [name])) :
    Evolves t ((t.erase k).put (dir ++ [name]) (.file bytes))
      (fun k' => k' = dir ++ [name] ∨ k' = k) where
  here := rfl
  elsewhere k' h := by
    obtain ⟨h₁, h₂⟩ := not_or.mp h
    rw [get?_put, if_neg h₁, get?_erase, if_neg h₂]
    exact Or.inl rfl
  noDirectory k' h hd := by
    rcases h with rfl | rfl
    · exact hover hd
    · rw [hk] at hd
      cases hd
  leadsNowhere k' h := by
    rcases h with rfl | rfl
    · exact hlink
    · exact leadsNowhere_of_not_link fun target hl => nomatch hk.symm.trans hl
  noLink k' target h := by
    rw [get?_put]
    split
    · exact nofun
    · next hne =>
      rw [get?_erase, if_pos (h.resolve_left hne)]
      exact nofun
  sound hs := by
    have hkd : t.get? k ≠ some .directory := fun hd => nomatch hk.symm.trans hd
    have hne : dir ≠ k := fun he => hkd (he ▸ hdir)
    refine (hs.erase hkd).put ?_ hname fun hd => ?_
    · rw [get?_erase, if_neg hne]
      exact hdir
    · rw [get?_erase] at hd
      split at hd
      · cases hd
      · exact absurd hd hover

/-- A file that is written makes no way: what is a directory or a link behind it was one before. -/
theorem Way.of_put_file {k : Key} {bytes : List UInt8} {left links : Nat} {stop : Key}
    {steps : List Text} (h : (t.put k (.file bytes)).Way left stop links dir steps) :
    t.Way left stop links dir steps := by
  have hold : ∀ x e, (∀ bytes, e ≠ .file bytes) →
      (t.put k (.file bytes)).get? x = some e → t.get? x = some e := by
    intro x e he hx
    rw [get?_put] at hx
    split at hx
    · exact absurd (Option.some.inj hx).symm (he bytes)
    · exact hx
  exact h.of_kept (fun x => hold x _ nofun) fun x target hx => Or.inl (hold x _ nofun hx)

theorem Site.of_put_file {k : Key} {bytes : List UInt8}
    (h : (t.put k (.file bytes)).Site p dir name) : t.Site p dir name := by
  obtain ⟨left, hway⟩ := h.way
  exact ⟨h.valid, h.last, h.stay, h.up, left, hway.of_put_file⟩

theorem LeadsNowhere.put_file {k k' : Key} (h : t.LeadsNowhere k') (bytes : List UInt8) :
    (t.put k (.file bytes)).LeadsNowhere k' := by
  intro target hlink links left stop hway
  rw [get?_put] at hlink
  split at hlink
  · cases hlink
  · exact h target hlink links left stop hway.of_put_file

/-! ## Saving -/

/-- A text was saved at the path: its file lies at the key `place` now. No directory was made if the
one of the file was there. -/
structure SavedAt (t u : FileTree) (mark : Text) (p : Path) (bytes : List UInt8)
    (place : Key) : Prop where
  evolves : ∃ temporary, Evolves t u (fun k => k = place ∨ k = temporary) ∧
    temporary ≠ place ∧ u.get? temporary = none ∧
    (t.temporaryKey? mark p = some temporary ∨ t.get? temporary = none) ∧
    ((t.siteKey? p).isSome → ∀ k, k ≠ place → k ≠ temporary → u.get? k = t.get? k)
  locate : u.locate p = .ok place
  file : u.get? place = some (.file bytes)
  separator : p.endsWithSeparator = false
  site : ∃ dir name, place = dir ++ [name] ∧ u.Site p dir name ∧
    (t.Site p dir name ∨ t.get? dir = none)

/-- The text was written to a temporary file in the directory `tdir`, and this was moved over what stood
under its name in the directory `dir`. -/
structure MovedOver (t u : FileTree) (mark : Text) (p : Path) (bytes : List UInt8) (tdir dir : Key)
    (name : Text) : Prop where
  temporary : t.Site (temporary mark p) tdir (temporaryName mark p)
  beside : IsEntryName (temporaryName mark p)
  free : t.get? (tdir ++ [temporaryName mark p]) ≠ some .directory
  site : t.Site p dir name
  named : IsEntryName name
  covered : t.get? (dir ++ [name]) ≠ some .directory
  separator : p.endsWithSeparator = false
  apart : tdir ++ [temporaryName mark p] ≠ dir ++ [name]
  eq : u = ((t.put (tdir ++ [temporaryName mark p]) (.file bytes)).erase
    (tdir ++ [temporaryName mark p])).put (dir ++ [name]) (.file bytes)

theorem MovedOver.get?_eq {bytes : List UInt8} {tdir : Key}
    (h : MovedOver t u mark p bytes tdir dir name) (k : Key) :
    u.get? k = if k = dir ++ [name] then some (.file bytes)
      else if k = tdir ++ [temporaryName mark p] then none else t.get? k := by
  rw [h.eq, get?_put, get?_erase]
  split
  · rfl
  · split
    · rfl
    · next hk => rw [get?_put, if_neg hk]

theorem writeAndMove_eq_ok (hmark : '/' ∉ mark) {bytes : List UInt8}
    (hlink : ∀ k target, t.temporaryKey? mark p = some k → t.get? k ≠ some (.link target))
    (h : t.writeAndMove (FileTree.temporary mark p) p bytes = (u, none)) :
    ∃ tdir dir name, MovedOver t u mark p bytes tdir dir name := by
  unfold writeAndMove at h
  cases hwrite : t.writeFile (FileTree.temporary mark p) bytes with
  | error fault => rw [hwrite] at h; cases h
  | ok v =>
    rw [hwrite] at h
    dsimp only at h
    cases hmove : v.move (FileTree.temporary mark p) p with
    | error fault => rw [hmove] at h; cases h
    | ok w =>
      rw [hmove] at h
      obtain rfl : w = u := (Prod.ext_iff.mp h).1
      obtain ⟨tdir, htemp, htname, hover, rfl⟩ := site_of_writeFile hmark hlink hwrite
      obtain ⟨k, dir, name, e, hk, hsite, hname, he, hdir, hsep, rfl⟩ := move_eq_ok hmove
      have hput := evolves_put_file htemp.directory htname hover
        (leadsNowhere_of_not_link fun target => hlink _ target htemp.siteKey?_eq) bytes
      -- the temporary file is found where it was written
      obtain rfl : k = tdir ++ [temporaryName mark p] := by
        obtain ⟨dir', name', hsite', -, rfl⟩ := nameKey_eq_ok_iff.mp hk
        obtain ⟨rfl, rfl⟩ := hsite'.unique (hput.site htemp)
        rfl
      rw [get?_put, if_pos rfl] at he
      obtain rfl := (Option.some.inj he).symm
      have hne : tdir ++ [temporaryName mark p] ≠ dir ++ [name] := by
        intro heq
        obtain ⟨above, -, hfile, -⟩ := hsite.parent
        exact temporaryName_ne mark hfile (List.singleton_inj.mp (List.append_inj' heq rfl).2)
      rw [get?_put, if_neg hne.symm] at hdir
      exact ⟨tdir, dir, name, htemp, htname, hover, hsite.of_put_file, hname, hdir, hsep, hne, rfl⟩

/-- Writing beside and moving over, where the directory is there already. -/
theorem writeAndMove_saved (hmark : '/' ∉ mark) {bytes : List UInt8}
    (hlink : ∀ k target, t.temporaryKey? mark p = some k → t.get? k ≠ some (.link target))
    (hnowhere : ∀ dir name, t.Site p dir name → IsEntryName name →
      p.endsWithSeparator = false → t.LeadsNowhere (dir ++ [name]))
    (h : t.writeAndMove (FileTree.temporary mark p) p bytes = (u, none)) :
    ∃ place, SavedAt t u mark p bytes place ∧ ∀ dir name, u.Site p dir name → t.Site p dir name := by
  obtain ⟨tdir, dir, name, hmoved⟩ := writeAndMove_eq_ok hmark hlink h
  have hget := hmoved.get?_eq
  obtain ⟨htemp, htname, hfree, hsite, hname, hover, hsep, hne, heq⟩ := hmoved
  have hput := evolves_put_file htemp.directory htname hfree
    (leadsNowhere_of_not_link fun target => hlink _ target htemp.siteKey?_eq) bytes
  have hwritten : (t.put (tdir ++ [temporaryName mark p]) (.file bytes)).get?
      (tdir ++ [temporaryName mark p]) = some (.file bytes) := by rw [get?_put, if_pos rfl]
  have hmove := evolves_move hwritten (hput.site hsite).directory hname
    (by rwa [get?_put, if_neg hne.symm]) ((hnowhere dir name hsite hname hsep).put_file bytes)
  have hall : Evolves t u fun k => k = dir ++ [name] ∨ k = tdir ++ [temporaryName mark p] := by
    rw [heq]
    exact (hput.trans hmove).congr fun k => by grind
  have hplaced := hall.site hsite
  have hfile : u.get? (dir ++ [name]) = some (.file bytes) := by rw [hget, if_pos rfl]
  refine ⟨dir ++ [name], ⟨⟨_, hall, hne, ?_, Or.inl htemp.siteKey?_eq, fun _ k h₁ h₂ => ?_⟩,
    hplaced.locate_eq hsep hname.2.2.2.2 hfile nofun, hfile, hsep, dir, name, rfl, hplaced,
    Or.inl hsite⟩, fun dir' name' hsite' => ?_⟩
  · rw [hget, if_neg hne, if_pos rfl]
  · rw [hget, if_neg h₁, if_neg h₂]
  · obtain ⟨rfl, rfl⟩ := hplaced.unique hsite'
    exact hsite

/-- Saving goes its ways in turn: the directory of the file is made, the text is written beside the
file and moved over it. -/
theorem replaceText_cases (t : FileTree) (mark : Text) (p : Path) (content : TextContent) :
    (∃ u error, t.makeParent p = (u, some error) ∧
      t.replaceText mark p content = (u, some error)) ∨
    ∃ u v e?, t.makeParent p = (u, none) ∧
      u.writeAndMove (FileTree.temporary mark p) p content.encode = (v, e?) ∧
      (e? = none ∧ t.replaceText mark p content = (v, none) ∨
        ∃ error, e? = some error ∧ t.replaceText mark p content =
          ((v.removeFile (FileTree.temporary mark p)).toOption.getD v, some error)) := by
  unfold replaceText
  rcases t.makeParent p with ⟨u, _ | error⟩
  · refine Or.inr ⟨u, ?_⟩
    dsimp only
    rcases u.writeAndMove (FileTree.temporary mark p) p content.encode with ⟨v, _ | error⟩
    · exact ⟨v, none, rfl, rfl, Or.inl ⟨rfl, rfl⟩⟩
    · exact ⟨v, some error, rfl, rfl, Or.inr ⟨error, rfl, rfl⟩⟩
  · exact Or.inl ⟨u, error, rfl, rfl⟩

theorem replaceText_saved (hs : t.Sound) (h : t.Savable mark p) {content : TextContent}
    (hu : t.replaceText mark p content = (u, none)) :
    ∃ place, SavedAt t u mark p content.encode place := by
  rcases t.replaceText_cases mark p content with ⟨v, error, -, heq⟩ |
    ⟨v, w, e?, hparent, hwrite, ⟨rfl, heq⟩ | ⟨error, -, heq⟩⟩
  · rw [heq] at hu
    cases hu
  · rw [heq] at hu
    obtain rfl : w = u := (Prod.ext_iff.mp hu).1
    have hgrows : Grows t v := by
      have := t.grows_makeParent p
      rwa [hparent] at this
    have hcases := h.site_cases hs hparent
    have hnowhere : ∀ dir name, v.Site p dir name → IsEntryName name →
        p.endsWithSeparator = false → v.LeadsNowhere (dir ++ [name]) := by
      intro dir name hsite hname hsep
      rcases hcases with rfl | ⟨hfresh, -⟩
      · exact h.nowhere dir name hsite hname hsep
      · refine leadsNowhere_of_not_link fun target hlink => ?_
        have hnone := hs.get?_eq_none (hfresh dir name hsite) name
        rw [hgrows.link_of hlink] at hnone
        cases hnone
    obtain ⟨place, hsaved, hback⟩ :=
      writeAndMove_saved h.slash (h.temporary_of_grown hs hparent) hnowhere hwrite
    obtain ⟨temporary, hevolves, hne, hnone, htemp, hexact⟩ := hsaved.evolves
    obtain ⟨dir, name, hplace, hsite, -⟩ := hsaved.site
    refine ⟨place, ⟨⟨temporary, (Evolves.trans hgrows hevolves).congr fun k => by simp, hne, hnone,
      ?_, fun hsome => ?_⟩, hsaved.locate, hsaved.file, hsaved.separator, dir, name, hplace, hsite, ?_⟩⟩
    · rcases htemp with htemp | htemp
      · rcases hcases with rfl | ⟨-, hfresh⟩
        · exact Or.inl htemp
        · obtain ⟨tdir, tname, htsite, rfl⟩ := siteKey?_eq_some_iff.mp htemp
          exact Or.inr (hs.get?_eq_none (hfresh tdir tname htsite) tname)
      · refine Or.inr ?_
        rcases hgrows.elsewhere temporary not_false with hsame | ⟨hnone, -⟩
        · rw [← hsame, htemp]
        · exact hnone
    · obtain ⟨k, hk⟩ := Option.isSome_iff_exists.mp hsome
      obtain ⟨dir', name', hsite', -⟩ := siteKey?_eq_some_iff.mp hk
      rw [makeParent_of_site hsite'] at hparent
      obtain rfl : t = v := (Prod.ext_iff.mp hparent).1
      exact hexact hsome
    · rcases hcases with rfl | ⟨hfresh, -⟩
      · exact Or.inl (hback dir name hsite)
      · exact Or.inr (hfresh dir name (hback dir name hsite))
  · rw [heq] at hu
    cases hu

/-- A save that fails has changed at most the place of the temporary file, and made directories. -/
def FailedAt (t u : FileTree) (mark : Text) (p : Path) : Prop :=
  ∃ touched, Evolves t u touched ∧
    ∀ k, touched k → t.temporaryKey? mark p = some k ∨ t.get? k = none

/-- A write that fails has changed nothing, or it has left the temporary file. -/
theorem writeAndMove_eq_error (hmark : '/' ∉ mark) {bytes : List UInt8} {error : Error}
    (hlink : ∀ k target, t.temporaryKey? mark p = some k → t.get? k ≠ some (.link target))
    (h : t.writeAndMove (FileTree.temporary mark p) p bytes = (u, some error)) :
    u = t ∨ ∃ tdir, t.Site (FileTree.temporary mark p) tdir (temporaryName mark p) ∧
      IsEntryName (temporaryName mark p) ∧
      t.get? (tdir ++ [temporaryName mark p]) ≠ some .directory ∧
      u = t.put (tdir ++ [temporaryName mark p]) (.file bytes) := by
  unfold writeAndMove at h
  cases hwrite : t.writeFile (FileTree.temporary mark p) bytes with
  | error fault =>
    rw [hwrite] at h
    exact Or.inl (Prod.ext_iff.mp h).1.symm
  | ok v =>
    rw [hwrite] at h
    dsimp only at h
    split at h
    · obtain rfl : v = u := (Prod.ext_iff.mp h).1
      exact Or.inr (site_of_writeFile hmark hlink hwrite)
    · cases h

/-- What is left of a failed write is at the place of the temporary file. -/
theorem writeAndMove_failed (hmark : '/' ∉ mark) {bytes : List UInt8} {error : Error}
    (hlink : ∀ k target, t.temporaryKey? mark p = some k → t.get? k ≠ some (.link target))
    (h : t.writeAndMove (FileTree.temporary mark p) p bytes = (u, some error)) :
    (∃ touched, Evolves t u touched ∧ ∀ k, touched k → t.temporaryKey? mark p = some k) ∧
      ∀ k, u.temporaryKey? mark p = some k →
        t.temporaryKey? mark p = some k ∧ ∀ target, u.get? k ≠ some (.link target) := by
  rcases writeAndMove_eq_error hmark hlink h with rfl | ⟨tdir, htemp, htname, hfree, rfl⟩
  · exact ⟨⟨_, .refl u, fun _ => False.elim⟩, fun k hk => ⟨hk, fun target => hlink k target hk⟩⟩
  · have hkey := htemp.siteKey?_eq
    have hput := evolves_put_file htemp.directory htname hfree
      (leadsNowhere_of_not_link fun target => hlink _ target hkey) bytes
    refine ⟨⟨_, hput, fun k hk => hk ▸ hkey⟩, fun k hk => ?_⟩
    obtain rfl : tdir ++ [temporaryName mark p] = k :=
      Option.some.inj ((hput.site htemp).siteKey?_eq.symm.trans hk)
    refine ⟨hkey, fun target => ?_⟩
    rw [get?_put, if_pos rfl]
    exact nofun

theorem replaceText_failed (hs : t.Sound) (h : t.Savable mark p) {content : TextContent}
    {error : Error} (hu : t.replaceText mark p content = (u, some error)) :
    FailedAt t u mark p := by
  rcases t.replaceText_cases mark p content with ⟨v, e, hparent, heq⟩ |
    ⟨v, w, e?, hparent, hwrite, ⟨-, heq⟩ | ⟨e, rfl, heq⟩⟩
  · rw [heq] at hu
    obtain rfl : v = u := (Prod.ext_iff.mp hu).1
    have hgrows := t.grows_makeParent p
    rw [hparent] at hgrows
    exact ⟨_, hgrows, fun _ => False.elim⟩
  · rw [heq] at hu
    cases hu
  · rw [heq] at hu
    have hgrows : Grows t v := by
      have := t.grows_makeParent p
      rwa [hparent] at this
    obtain ⟨⟨touched, hevolves, htouched⟩, hleft⟩ :=
      writeAndMove_failed h.slash (h.temporary_of_grown hs hparent) hwrite
    have hold : ∀ k, v.temporaryKey? mark p = some k →
        t.temporaryKey? mark p = some k ∨ t.get? k = none := by
      intro k hk
      rcases h.site_cases hs hparent with rfl | ⟨-, hfresh⟩
      · exact Or.inl hk
      · obtain ⟨dir, name, hsite, rfl⟩ := siteKey?_eq_some_iff.mp hk
        exact Or.inr (hs.get?_eq_none (hfresh dir name hsite) name)
    cases hremove : w.removeFile (FileTree.temporary mark p) with
    | error fault =>
      rw [hremove] at hu
      obtain rfl : w = u := (Prod.ext_iff.mp hu).1
      refine ⟨_, Evolves.trans hgrows hevolves, fun k hk => hold k (htouched k ?_)⟩
      exact hk.resolve_left not_false
    | ok x =>
      rw [hremove] at hu
      obtain rfl : x = u := (Prod.ext_iff.mp hu).1
      obtain ⟨k, hk, hdir, rfl⟩ := removeFile_eq_ok hremove
      obtain ⟨hkey, hlink⟩ := hleft k hk
      have herase := evolves_erase hdir (leadsNowhere_of_not_link hlink)
      refine ⟨_, Evolves.trans hgrows (hevolves.trans herase), fun k' hk' => hold k' ?_⟩
      rcases hk'.resolve_left not_false with htouched' | rfl
      · exact htouched k' htouched'
      · exact hkey

end FileTree

end FirmwareIds
