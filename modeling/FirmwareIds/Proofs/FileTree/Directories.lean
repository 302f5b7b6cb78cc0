import FirmwareIds.FileTree.Replace
import FirmwareIds.Proofs.FileTree.Change

/-!
# Making the directory of a file

Before a file is saved the directories on its way are made. That changes nothing if they are there
(`makeParent_of_site`). Otherwise the last of them is made, so there was nothing at its key, and what
was made is on the way there (`makeParent_fresh`). That holds for a path that does not go up: one that
does can lead by a new directory to an old one.
-/

namespace FirmwareIds.FileTree

open FirmwareIds.Path

variable {t u : FileTree} {p q : Path} {dir : Key} {name mark : Text}

/-- Only directories were made, where nothing was. -/
abbrev Grows (t u : FileTree) : Prop := Evolves t u fun _ => False

theorem Grows.trans {v : FileTree} (h : Grows t u) (h' : Grows u v) : Grows t v := by
  have := Evolves.trans h h'
  simpa using this

theorem Site.isEntryName (h : t.Site p dir name) (hshort : ¬ nameLimit < name.byteLength) :
    IsEntryName name := by
  have hmem := List.mem_of_getLast? h.last
  obtain ⟨hne, hdot⟩ := isStay_eq_false_iff.mp h.stay
  exact ⟨hne, slash_not_mem_of_mem_pieces hmem, hdot, h.up, hshort⟩

/-! ## The directory that a last name stands in -/

/-- The last name of the path `q` stands in the directory that the path `above` leads to. -/
structure LiesIn (q above : Path) : Prop where
  absolute : above.isAbsolute = q.isAbsolute
  text : above.text <+: q.text
  pieces : plain above.pieces = plain q.pieces.dropLast

/-- A path to a file lies in the path above it. -/
theorem Site.parent (h : t.Site p dir name) :
    ∃ above, p.parent? = some above ∧ p.fileName? = some name ∧ LiesIn p above := by
  have hnames : p.names = plain p.pieces.dropLast ++ [name] := by
    have hname : plain [name] = [name] := by simp [plain, h.stay]
    rw [← plain_pieces, h.pieces_eq, plain_append, List.dropLast_concat, hname]
  have hfile := fileName?_of_names hnames h.up
  obtain ⟨above, habove, hsplit, habs, htext, -⟩ := names_of_fileName? hfile
  refine ⟨above, habove, hfile, habs, htext, ?_⟩
  rw [plain_pieces]
  exact (List.append_inj' (hsplit.symm.trans hnames) rfl).1

/-- The front of a path that can be taken can be taken, unless it is empty. -/
theorem fault?_of_front (h : q.text <+: p.text) (hp : p.fault? = none) (hq : q.text ≠ []) :
    q.fault? = none := by
  obtain ⟨more, hmore⟩ := h
  unfold fault? at hp ⊢
  rw [← hmore] at hp
  by_cases hnul : '\x00' ∈ q.text
  · simp [hnul] at hp
  · have hlength : q.text.byteLength ≤ (q.text ++ more).byteLength := by
      rw [Text.byteLength_append]
      exact Nat.le_add_right ..
    by_cases hlong : 4096 ≤ (q.text ++ more).byteLength
    · rw [if_pos hlong] at hp
      split at hp
      · cases hp
      · split at hp <;> cases hp
    · have hlong : ¬ 4096 ≤ q.text.byteLength := fun h => hlong (Nat.le_trans h hlength)
      simp [hnul, hlong, hq]

/-- The way to the directory of a last name is the way of the path that this lies in. -/
theorem Site.way_above {above : Path} (h : t.Site q dir name) (hin : LiesIn q above) :
    ∃ left, t.Way left dir linkLimit (startFrom t.here above) above.pieces := by
  obtain ⟨left, hway⟩ := h.way
  rw [startFrom_eq rfl hin.absolute]
  exact ⟨left, hway.of_plain hin.pieces.symm⟩

theorem Site.isDirectory_above {above : Path} (h : t.Site q dir name) (hin : LiesIn q above)
    (hne : above.text ≠ []) : t.isDirectory above = true := by
  obtain ⟨left, hway⟩ := h.way_above hin
  exact isDirectory_iff.mpr ⟨fault?_of_front hin.text h.valid hne, left, dir, hway⟩

/-- The steps of a path with a name are those of the path above it, and the name. -/
theorem plain_pieces_of_fileName? {above : Path} (hname : p.fileName? = some name)
    (habove : p.parent? = some above) :
    plain p.pieces = plain (above.pieces ++ [name]) ∧ isStay name = false ∧ name ∈ p.names ∧
      above.isAbsolute = p.isAbsolute ∧ above.text <+: p.text := by
  obtain ⟨above', habove', hnames, habs, htext, -⟩ := names_of_fileName? hname
  obtain rfl : above' = above := Option.some.inj (habove'.symm.trans habove)
  have hmem : name ∈ p.names := hnames ▸ List.mem_append_right _ (List.mem_singleton_self _)
  have hstay : isStay name = false := by
    rw [← plain_pieces] at hmem
    simpa using (List.mem_filter.mp hmem).2
  refine ⟨?_, hstay, hnames ▸ List.mem_append_right _ (List.mem_singleton_self _), habs, htext⟩
  rw [plain_append, plain_pieces, plain_pieces, hnames]
  simp [plain, hstay]

/-! ## Making directories -/

theorem makeDirectory_eq_ok_iff : t.makeDirectory p = .ok u ↔
    ∃ dir name, t.Site p dir name ∧ IsEntryName name ∧ t.get? (dir ++ [name]) = none ∧
      u = t.put (dir ++ [name]) .directory := by
  unfold makeDirectory
  rw [make_eq_ok_iff]
  constructor
  · rintro ⟨k, hk, hnone, rfl⟩
    obtain ⟨dir, name, hsite, hshort, rfl⟩ := nameKey_eq_ok_iff.mp hk
    exact ⟨dir, name, hsite, hsite.isEntryName hshort, hnone, rfl⟩
  · rintro ⟨dir, name, hsite, hname, hnone, rfl⟩
    exact ⟨_, hsite.nameKey_eq hname.2.2.2.2 _, hnone, rfl⟩

theorem grows_makeDirectory (h : t.makeDirectory p = .ok u) : Grows t u := by
  obtain ⟨dir, name, hsite, hname, hnone, rfl⟩ := makeDirectory_eq_ok_iff.mp h
  exact evolves_put_directory hsite.directory hname hnone

/-- Making one directory: it is made, or nothing changes. -/
theorem ensureDirectory_cases (t : FileTree) (p : Path) :
    (∃ u, t.makeDirectory p = .ok u ∧ t.ensureDirectory p = (u, none)) ∨
      t.ensureDirectory p = (t, none) ∧ t.isDirectory p = true ∨
      ∃ fault, t.ensureDirectory p = (t, some fault) ∧ t.isDirectory p = false := by
  unfold ensureDirectory
  cases h : t.makeDirectory p with
  | ok u => exact Or.inl ⟨u, rfl, rfl⟩
  | error fault =>
    dsimp only
    cases hd : t.isDirectory p with
    | true => exact Or.inr (Or.inl ⟨rfl, rfl⟩)
    | false => exact Or.inr (Or.inr ⟨fault, rfl, rfl⟩)

theorem fst_ensureDirectory (t : FileTree) (p : Path) :
    (t.ensureDirectory p).1 = t ∨ t.makeDirectory p = .ok (t.ensureDirectory p).1 := by
  rcases t.ensureDirectory_cases p with ⟨u, hmake, h⟩ | ⟨h, -⟩ | ⟨fault, h, -⟩
  · rw [h]
    exact Or.inr hmake
  · rw [h]
    exact Or.inl rfl
  · rw [h]
    exact Or.inl rfl

/-- One level of making directories. If the one above is missing it is made first, and without it
nothing more is done. -/
theorem makeDirectories_cases (t : FileTree) (p : Path) :
    p.text = [] ∧ t.makeDirectories p = (t, none) ∨
      t.makeDirectories p = t.ensureDirectory p ∨
      ∃ above, p.parent? = some above ∧ t.isDirectory p = false ∧
        ((t.makeDirectories above).2 = none ∧
            t.makeDirectories p = (t.makeDirectories above).1.ensureDirectory p ∨
          ∃ fault, t.makeDirectories p = ((t.makeDirectories above).1, some fault)) := by
  rw [makeDirectories]
  split
  · next hempty => exact Or.inl ⟨List.isEmpty_iff.mp hempty, rfl⟩
  refine Or.inr ?_
  split
  · next u hmissing =>
    obtain ⟨rfl, hdir⟩ : u = t ∧ t.isDirectory p = false := by
      rcases t.ensureDirectory_cases p with ⟨u, -, h⟩ | ⟨h, -⟩ | ⟨fault, h, hdir⟩
      · rw [h] at hmissing
        cases hmissing
      · rw [h] at hmissing
        cases hmissing
      · rw [h] at hmissing
        exact ⟨(Prod.ext_iff.mp hmissing).1.symm, hdir⟩
    split
    · exact Or.inl hmissing.symm
    · next above habove =>
      refine Or.inr ⟨above, habove, hdir, ?_⟩
      split
      · next v fault h =>
        rw [h]
        exact Or.inr ⟨fault, rfl⟩
      · next v h =>
        rw [h]
        exact Or.inl ⟨rfl, rfl⟩
  · exact Or.inl rfl

/-- One level of making directories, as far as the tree goes: it is the one in which those above are made,
if they had to be, and the directory is made in it or not. -/
theorem fst_makeDirectories (t : FileTree) (p : Path) :
    ∃ v, (v = t ∨ ∃ above, p.parent? = some above ∧ v = (t.makeDirectories above).1) ∧
      ((t.makeDirectories p).1 = v ∨ v.makeDirectory p = .ok (t.makeDirectories p).1) := by
  rcases t.makeDirectories_cases p with ⟨-, h⟩ | h | ⟨above, habove, -, h⟩
  · rw [h]
    exact ⟨t, Or.inl rfl, Or.inl rfl⟩
  · rw [h]
    exact ⟨t, Or.inl rfl, t.fst_ensureDirectory p⟩
  · refine ⟨_, Or.inr ⟨above, habove, rfl⟩, ?_⟩
    rcases h with ⟨-, h⟩ | ⟨fault, h⟩
    · rw [h]
      exact fst_ensureDirectory _ p
    · rw [h]
      exact Or.inl rfl

theorem grows_makeDirectories (t : FileTree) (p : Path) : Grows t (t.makeDirectories p).1 := by
  obtain ⟨v, hv, hu⟩ := t.fst_makeDirectories p
  have hgrows : Grows t v := by
    rcases hv with rfl | ⟨above, habove, rfl⟩
    · exact .refl v
    · exact grows_makeDirectories t above
  rcases hu with hu | hmake
  · rw [hu]
    exact hgrows
  · exact hgrows.trans (grows_makeDirectory hmake)
termination_by p.text.length
decreasing_by exact length_parent?_lt habove

/-- At the last name of a path to a directory stands the directory or a link. -/
theorem Site.get?_ne_none (h : t.Site p dir name) (hp : t.isDirectory p = true) :
    t.get? (dir ++ [name]) ≠ none := by
  obtain ⟨-, left, stop, hway⟩ := isDirectory_iff.mp hp
  rw [h.pieces_eq] at hway
  obtain ⟨left', stop', hfront, hlast⟩ := hway.split
  obtain ⟨left₀, hsite⟩ := h.way
  rw [hfront.unique hsite] at hlast
  intro hnone
  cases hlast with
  | stay _ hstay _ => exact absurd hstay (Bool.eq_false_iff.mp h.stay)
  | up _ _ => exact h.up rfl
  | link _ hlink _ => exact nomatch hnone.symm.trans hlink
  | down _ hdir _ => exact nomatch hnone.symm.trans hdir

/-- Where a path leads to a directory, none is made. -/
theorem makeDirectories_of_isDirectory (hp : t.isDirectory p = true) :
    t.makeDirectories p = (t, none) := by
  rcases t.makeDirectories_cases p with ⟨-, h⟩ | h | ⟨above, -, hdir, -⟩
  · exact h
  · rw [h]
    rcases t.ensureDirectory_cases p with ⟨u, hmake, -⟩ | ⟨h, -⟩ | ⟨fault, -, hdir⟩
    · obtain ⟨dir, name, hsite, -, hnone, -⟩ := makeDirectory_eq_ok_iff.mp hmake
      exact absurd hnone (hsite.get?_ne_none hp)
    · exact h
    · rw [hp] at hdir
      cases hdir
  · rw [hp] at hdir
    cases hdir

/-- What was made from `t` to `u` are directories on the way of the path, and the last of them stands where
nothing was. -/
def MadeOnWay (t u : FileTree) (p : Path) : Prop :=
  ∀ left stop, u.Way left stop linkLimit (startFrom u.here p) p.pieces →
    t.get? stop = none ∧ ∀ k, u.get? k ≠ t.get? k → k <+: stop

/-- A directory that is made stands at the end of the way, behind those that were made before. -/
theorem Grows.madeOnWay {v : FileTree} (hgrows : Grows t v) (h : v.makeDirectory p = .ok u)
    (habove : v ≠ t → ∃ above, p.parent? = some above ∧ MadeOnWay t v above) : MadeOnWay t u p := by
  intro left stop hway
  have hmade := grows_makeDirectory h
  obtain ⟨dir, name, hsite, hname, hnone, rfl⟩ := makeDirectory_eq_ok_iff.mp h
  obtain rfl : stop = dir ++ [name] := by
    have hnew : (v.put (dir ++ [name]) .directory).get? (dir ++ [name]) = some .directory := by
      rw [get?_put, if_pos rfl]
    obtain ⟨left', hfront⟩ := (hmade.site hsite).way
    have hend := hfront.append (.down ((hmade.site hsite).nameStep hname.2.2.2.2) hnew (.done hnew))
    rw [← hsite.pieces_eq] at hend
    exact hway.unique hend
  refine ⟨(hgrows.touched_or_none hnone).resolve_left not_false, fun k hk => ?_⟩
  rw [get?_put] at hk
  by_cases hstop : k = dir ++ [name]
  · exact hstop ▸ List.prefix_rfl
  · rw [if_neg hstop] at hk
    obtain ⟨above, hparent, hfresh⟩ := habove fun heq => hk (heq ▸ rfl)
    obtain ⟨above', hparent', -, hin⟩ := hsite.parent
    obtain rfl : above' = above := Option.some.inj (hparent'.symm.trans hparent)
    obtain ⟨left', hfront⟩ := hsite.way_above hin
    exact ((hfresh _ _ hfront).2 k hk).trans (List.prefix_append ..)

/-- Nothing stands in the directory that was made last, so no path leads on from there. -/
theorem Grows.no_way_beyond {above : Path} (hgrows : Grows t u) (hs : t.Sound)
    (hup : upStep ∉ p.names) (hname : p.fileName? = some name) (habove : p.parent? = some above)
    (hfresh : MadeOnWay t u above) {left : Nat} {stop : Key} :
    ¬ u.Way left stop linkLimit (startFrom u.here p) p.pieces := by
  intro hway
  obtain ⟨hplain, hstay, hmem, habs, -⟩ := plain_pieces_of_fileName? hname habove
  obtain ⟨left', stop', hfront, hlast⟩ := (hway.of_plain hplain).split
  rw [← startFrom_eq rfl habs] at hfront
  obtain ⟨hnone, hmade⟩ := hfresh left' stop' hfront
  have hbelow := hs.get?_eq_none hnone name
  cases hlast with
  | stay _ h _ => exact Bool.eq_false_iff.mp hstay h
  | up _ _ => exact hup hmem
  | link _ hlink _ =>
    rw [hgrows.link_of hlink] at hbelow
    cases hbelow
  | down _ hdown _ =>
    have hlong := (hmade (stop' ++ [name]) (by rw [hdown, hbelow]; exact nofun)).length_le
    rw [List.length_append, List.length_singleton] at hlong
    omega

/-- Where directories were made for the path above a path, it has names, and the path has one more. -/
theorem named_of_made {above : Path} (hup : upStep ∉ p.names) (habove : p.parent? = some above)
    (hne : (t.makeDirectories above).1 ≠ t) :
    above.text ≠ [] ∧ upStep ∉ above.names ∧ ∃ n, p.fileName? = some n := by
  have htext : above.text ≠ [] := by
    intro hempty
    rw [makeDirectories, hempty] at hne
    exact hne rfl
  refine ⟨htext, fun hm => hup ((names_of_parent? habove htext).2.subset hm), ?_⟩
  exact Option.ne_none_iff_exists'.mp fun hname => htext (parent?_of_no_fileName hname hup habove)

/-- If directories had to be made for a path that does not go up, they are on its way. -/
theorem makeDirectories_madeOnWay {t u : FileTree} {p : Path} (hs : t.Sound) (hvalid : p.fault? = none)
    (hup : upStep ∉ p.names) (hu : (t.makeDirectories p).1 = u) (hne : u ≠ t) : MadeOnWay t u p := by
  obtain ⟨v, hv, hmake⟩ := t.fst_makeDirectories p
  rw [hu] at hmake
  -- so it is for the path above, if directories had to be made for that
  have ih : v ≠ t → Grows t v ∧ ∃ n above, p.fileName? = some n ∧ p.parent? = some above ∧
      MadeOnWay t v above := by
    intro hchanged
    obtain ⟨above, habove, rfl⟩ := hv.resolve_left hchanged
    obtain ⟨htext, hup', n, hn⟩ := named_of_made hup habove hchanged
    obtain ⟨-, -, -, -, hfront⟩ := plain_pieces_of_fileName? hn habove
    refine ⟨t.grows_makeDirectories above, n, above, hn, habove, ?_⟩
    exact makeDirectories_madeOnWay hs (fault?_of_front hfront hvalid htext) hup' rfl hchanged
  rcases hmake with rfl | hmake
  · intro left stop hway
    obtain ⟨hgrows, n, above, hn, habove, hfresh⟩ := ih hne
    exact absurd hway (hgrows.no_way_beyond hs hup hn habove hfresh)
  · have hgrows : Grows t v := by
      by_cases hvt : v = t
      · rw [hvt]
        exact .refl t
      · exact (ih hvt).1
    refine hgrows.madeOnWay hmake fun hvt => ?_
    obtain ⟨-, n, above, -, habove, hfresh⟩ := ih hvt
    exact ⟨above, habove, hfresh⟩
termination_by p.text.length
decreasing_by exact length_parent?_lt habove

/-! ## The directory that a file lies in -/

/-- Where the directory of a file is there, none is made. -/
theorem makeParent_of_site (h : t.Site p dir name) : t.makeParent p = (t, none) := by
  obtain ⟨above, habove, -, hin⟩ := h.parent
  have hmake : t.makeDirectories above = (t, none) := by
    by_cases hempty : above.text = []
    · rw [makeDirectories, hempty]
      rfl
    · exact makeDirectories_of_isDirectory (h.isDirectory_above hin hempty)
  unfold makeParent
  rw [habove]
  dsimp only
  rw [hmake]
  rfl

theorem grows_makeParent (t : FileTree) (p : Path) : Grows t (t.makeParent p).1 := by
  unfold makeParent
  cases p.parent? with
  | none => exact .refl t
  | some above => exact t.grows_makeDirectories above

theorem fst_makeParent {above : Path} (habove : p.parent? = some above) :
    (t.makeParent p).1 = (t.makeDirectories above).1 := by
  unfold makeParent
  rw [habove]

/-- Where directories were made for a path, it has a name and a path above it. -/
theorem named_of_makeParent (hup : upStep ∉ p.names) (hne : (t.makeParent p).1 ≠ t) :
    ∃ n above, p.fileName? = some n ∧ p.parent? = some above := by
  cases habove : p.parent? with
  | none =>
    unfold makeParent at hne
    rw [habove] at hne
    exact absurd rfl hne
  | some above =>
    rw [fst_makeParent habove] at hne
    obtain ⟨-, -, n, hn⟩ := named_of_made hup habove hne
    exact ⟨n, above, hn, rfl⟩

/-- If the directory of a file had to be made, a path that lies in it does so in a new directory, and
what was made is on the way there. This needs a path that does not go up. -/
theorem makeParent_fresh {above : Path} (hs : t.Sound) (hup : upStep ∉ p.names)
    (hu : (t.makeParent p).1 = u) (hne : u ≠ t) (habove : p.parent? = some above)
    (hin : LiesIn q above) (hsite : u.Site q dir name) :
    t.get? dir = none ∧ ∀ k, u.get? k ≠ t.get? k → k <+: dir := by
  rw [fst_makeParent habove] at hu
  obtain ⟨htext, hup', -⟩ := named_of_made hup habove (hu ▸ hne)
  obtain ⟨left, hway⟩ := hsite.way_above hin
  exact makeDirectories_madeOnWay hs (fault?_of_front hin.text hsite.valid htext) hup' hu hne _ _ hway

end FirmwareIds.FileTree
