import FirmwareIds.Proofs.FileTree.Passing

/-!
# Replacing a text as a whole

Saving a text does all of it or nothing. If it fails, whichever step it was, nothing is changed but that
directories may have been made (`Kept`): what was written beside the file is taken away again. If it
succeeds, the file stands under the last name of the path, nothing is left beside it, and no other entry is
changed (`Replaced`). So it is for every path that does not go up (`replaceText_all_or_nothing`).

A link at the path is replaced and not followed. That is how a save can succeed and the path lead nowhere
afterwards: the way to its directory may go through the very link that stands under its last name. This is
the only case, and `Replaced.node` says so.
-/

namespace FirmwareIds.FileTree

open FirmwareIds.Path

variable {t u v w : FileTree} {p q above : Path} {k dir tdir stop : Key} {name mark : Text}
  {bytes : List UInt8} {left links : Nat} {steps : List Text}

/-! ## What a path names -/

/-- The entry that a path names. A link at its last name is not followed. -/
def nodeAt? (t : FileTree) (p : Path) : Option Entry := (t.siteKey? p).bind t.get?

theorem nodeAt?_eq_some_iff {e : Entry} : t.nodeAt? p = some e ↔
    ∃ dir name, t.Site p dir name ∧ t.get? (dir ++ [name]) = some e := by
  unfold nodeAt?
  rw [Option.bind_eq_some_iff]
  constructor
  · intro ⟨k, hk, he⟩
    obtain ⟨dir, name, hsite, rfl⟩ := siteKey?_eq_some_iff.mp hk
    exact ⟨dir, name, hsite, he⟩
  · intro ⟨dir, name, hsite, he⟩
    exact ⟨dir ++ [name], hsite.siteKey?_eq, he⟩

theorem Site.nodeAt?_eq (h : t.Site p dir name) : t.nodeAt? p = t.get? (dir ++ [name]) := by
  unfold nodeAt?
  rw [h.siteKey?_eq]
  rfl

/-- What a path names is seen from the entries, and from where it starts. -/
theorem nodeAt?_congr (hhere : u.here = t.here) (hget : ∀ key, u.get? key = t.get? key) (p : Path) :
    u.nodeAt? p = t.nodeAt? p := by
  have hsite : ∀ {x y : FileTree} {dir name}, y.here = x.here → (∀ key, y.get? key = x.get? key) →
      x.Site p dir name → y.Site p dir name := by
    intro x y dir name hhere hget h
    obtain ⟨left, hway⟩ := h.way
    refine ⟨h.valid, h.last, h.stay, h.up, left, ?_⟩
    rw [startFrom_eq hhere rfl]
    exact hway.of_kept (fun key hdir => (hget key).trans hdir)
      fun key target hlink => Or.inl ((hget key).trans hlink)
  apply Option.ext
  intro e
  rw [nodeAt?_eq_some_iff, nodeAt?_eq_some_iff]
  constructor
  · intro ⟨dir, name, h, he⟩
    exact ⟨dir, name, hsite hhere.symm (fun key => (hget key).symm) h, (hget _).symm.trans he⟩
  · intro ⟨dir, name, h, he⟩
    exact ⟨dir, name, hsite hhere hget h, (hget _).trans he⟩

/-! ## Making the directory -/

/-- Nothing stands in a directory that was made for a file. -/
theorem get?_of_makeParent (hs : t.Sound) (hmark : '/' ∉ mark) (hup : upStep ∉ p.names)
    (hu : (t.makeParent p).1 = u) (hne : u ≠ t) (hq : q = p ∨ q = temporary mark p)
    (hsite : u.Site q dir name) : u.get? (dir ++ [name]) = none := by
  obtain ⟨hnone, hmade⟩ := site_of_makeParent hs hmark hup hu hne hq hsite
  have hbelow := hs.get?_eq_none hnone name
  rw [← hbelow]
  refine Decidable.byContradiction fun hchanged => ?_
  have hlong := (hmade _ hchanged).length_le
  rw [List.length_append, List.length_singleton] at hlong
  omega

/-- Making the directory of a file changes neither what the path names, nor what the path of the temporary
file does. -/
theorem nodeAt?_makeParent (hs : t.Sound) (hmark : '/' ∉ mark) (hup : upStep ∉ p.names)
    (hq : q = p ∨ q = temporary mark p) : (t.makeParent p).1.nodeAt? q = t.nodeAt? q := by
  generalize hu : (t.makeParent p).1 = u
  by_cases hne : u = t
  · rw [hne]
  have hgrows : Grows t u := hu ▸ t.grows_makeParent p
  have hnew : u.nodeAt? q = none := by
    rw [Option.eq_none_iff_forall_ne_some]
    intro e he
    obtain ⟨dir, name, hsite, he⟩ := nodeAt?_eq_some_iff.mp he
    rw [get?_of_makeParent hs hmark hup hu hne hq hsite] at he
    cases he
  have hold : t.nodeAt? q = none := by
    rw [Option.eq_none_iff_forall_ne_some]
    intro e he
    obtain ⟨dir, name, hsite, -⟩ := nodeAt?_eq_some_iff.mp he
    -- the directory was there, and is not a new one
    have hnone := (site_of_makeParent hs hmark hup hu hne hq (hgrows.site hsite)).1
    rw [hsite.directory] at hnone
    cases hnone
  rw [hnew, hold]

/-! ## Taking the temporary file away -/

theorem Site.removeFile_eq (h : t.Site q dir name) (hshort : ¬ nameLimit < name.byteLength)
    (hsep : q.endsWithSeparator = false) (hfile : t.get? (dir ++ [name]) = some (.file bytes)) :
    t.removeFile q = .ok (t.erase (dir ++ [name])) := by
  unfold removeFile
  rw [h.nameKey_eq hshort, hsep]
  simp only [bind, Except.bind, hfile]
  rfl

/-- Nothing, or only a directory, stands at the place of the temporary file. -/
def TemporaryFree (t : FileTree) (mark : Text) (p : Path) : Prop :=
  ∀ e, t.nodeAt? (temporary mark p) = some e → e = .directory

theorem TemporaryFree.get?_eq_none (h : t.TemporaryFree mark p)
    (hsite : t.Site (temporary mark p) tdir name) (hdir : t.get? (tdir ++ [name]) ≠ some .directory) :
    t.get? (tdir ++ [name]) = none := by
  rw [Option.eq_none_iff_forall_ne_some]
  intro e he
  rw [h e (hsite.nodeAt?_eq.trans he)] at he
  exact hdir he

theorem TemporaryFree.not_link (h : t.TemporaryFree mark p) :
    ∀ key target, t.temporaryKey? mark p = some key → t.get? key ≠ some (.link target) := by
  intro key target hkey hlink
  obtain ⟨dir, name, hsite, rfl⟩ := siteKey?_eq_some_iff.mp hkey
  cases h _ (hsite.nodeAt?_eq.trans hlink)

/-- After a write that failed, what it has left is removed, and every entry is as it was. -/
theorem get?_of_cleanUp (hmark : '/' ∉ mark) (hfree : t.TemporaryFree mark p) {error : Error}
    (h : t.writeAndMove (temporary mark p) p bytes = (u, some error)) :
    ((u.removeFile (temporary mark p)).toOption.getD u).here = t.here ∧
      ∀ key, ((u.removeFile (temporary mark p)).toOption.getD u).get? key = t.get? key := by
  rcases writeAndMove_eq_error hmark hfree.not_link h with rfl | ⟨tdir, hsite, hname, hdir, rfl⟩
  · cases hremove : u.removeFile (temporary mark p) with
    | error fault => exact ⟨rfl, fun _ => rfl⟩
    | ok x =>
      -- nothing that could be removed stands there
      obtain ⟨key, hkey, hdir, rfl⟩ := removeFile_eq_ok hremove
      obtain ⟨tdir, name, hsite, rfl⟩ := siteKey?_eq_some_iff.mp hkey
      refine ⟨rfl, fun key => ?_⟩
      show (u.erase (tdir ++ [name])).get? key = u.get? key
      rw [get?_erase]
      split
      · next hkey => rw [hkey, hfree.get?_eq_none hsite hdir]
      · rfl
  · have hput := evolves_put_file hsite.directory hname hdir
      (leadsNowhere_of_not_link fun target => hfree.not_link _ target hsite.siteKey?_eq) bytes
    have hwritten : (t.put (tdir ++ [temporaryName mark p]) (.file bytes)).get?
        (tdir ++ [temporaryName mark p]) = some (.file bytes) := by rw [get?_put, if_pos rfl]
    have hremove := (hput.site hsite).removeFile_eq hname.2.2.2.2
      (endsWithSeparator_temporary hmark p) hwritten
    rw [hremove]
    refine ⟨rfl, fun key => ?_⟩
    show (erase _ _).get? key = t.get? key
    rw [get?_erase]
    split
    · next hkey => rw [hkey, hfree.get?_eq_none hsite hdir]
    · next hkey => rw [get?_put, if_neg hkey]

/-! ## Replacing a link on the way -/

/-- Whether steps come to a key depends on the links that stand elsewhere. -/
theorem PassesFrom.congr (h : t.PassesFrom k dir steps)
    (hlinks : ∀ key target, key ≠ k →
      (u.get? key = some (.link target) ↔ t.get? key = some (.link target))) :
    u.PassesFrom k dir steps := by
  induction h with
  | here hstay hup hk => exact .here hstay hup hk
  | stay hstay _ ih => exact .stay hstay ih
  | up _ ih => exact .up ih
  | @link dir step target rest hstay hup hlink _ ih =>
    by_cases hk : dir ++ [step] = k
    · exact .here hstay hup hk
    · exact .link hstay hup ((hlinks _ target hk).mpr hlink) ih
  | @down dir step rest hstay hup hno _ ih =>
    by_cases hk : dir ++ [step] = k
    · exact .here hstay hup hk
    · exact .down hstay hup (fun target hlink => hno target ((hlinks _ target hk).mp hlink)) ih

/-- A way stays when the directories stay, and the links but for one that it does not come to. -/
theorem Way.of_not_passes (h : t.Way left stop links dir steps)
    (hdirs : ∀ key, t.get? key = some .directory → u.get? key = some .directory)
    (hlinks : ∀ key target, key ≠ k → t.get? key = some (.link target) →
      u.get? key = some (.link target))
    (hno : ∀ target, t.get? k = some (.link target) → ¬ t.PassesFrom k dir steps) :
    u.Way left stop links dir steps := by
  induction h with
  | done hdir => exact .done (hdirs _ hdir)
  | stay hdir hstay _ ih =>
    exact .stay (hdirs _ hdir) hstay (ih fun target hk hp => hno target hk (.stay hstay hp))
  | up hdir _ ih => exact .up (hdirs _ hdir) (ih fun target hk hp => hno target hk (.up hp))
  | @link links dir step target rest hname hlink hway ih =>
    have hne : dir ++ [step] ≠ k := by
      intro hk
      exact hno target (hk ▸ hlink) (.here hname.stay hname.up hk)
    refine .link (hname.of_kept hdirs) (hlinks _ target hne hlink) (ih fun target' hk hp => ?_)
    exact hno target' hk (.link hname.stay hname.up hlink hp)
  | down hname hdir _ ih =>
    refine .down (hname.of_kept hdirs) (hdirs _ hdir) (ih fun target hk hp => hno target hk ?_)
    exact .down hname.stay hname.up (fun _ hlink => nomatch hdir.symm.trans hlink) hp

/-- The path above comes to a key as the steps before the last name do. -/
theorem LiesIn.passes_iff (h : LiesIn p above) :
    t.Passes above k ↔ t.PassesFrom k (startFrom t.here p) p.pieces.dropLast := by
  have hplain : plain above.steps = plain p.pieces.dropLast := (plain_steps above).trans h.pieces
  unfold Passes
  rw [startFrom_eq rfl h.absolute]
  exact ⟨fun hp => hp.of_plain_prefix (hplain ▸ List.prefix_rfl),
    fun hp => hp.of_plain_prefix (hplain ▸ List.prefix_rfl)⟩

/-- What stands under a path in the new tree stood under it in the old one. -/
theorem MovedOver.site_of (h : MovedOver t u mark p bytes tdir dir name) {dir' : Key} {name' : Text}
    (hsite : u.Site q dir' name') : t.Site q dir' name' := by
  have hold : ∀ key e, (∀ bytes, e ≠ .file bytes) → u.get? key = some e → t.get? key = some e := by
    intro key e he hkey
    rw [h.get?_eq] at hkey
    split at hkey
    · exact absurd (Option.some.inj hkey).symm (he bytes)
    · split at hkey
      · cases hkey
      · exact hkey
  obtain ⟨left, hway⟩ := hsite.way
  refine ⟨hsite.valid, hsite.last, hsite.stay, hsite.up, left, ?_⟩
  rw [startFrom_eq (t := u) (by rw [h.eq]; rfl) rfl]
  exact hway.of_kept (fun key => hold key _ nofun) fun key target hlink =>
    Or.inl (hold key _ nofun hlink)

/-- The path leads to the directory that it led to, unless it does so through the link that was
replaced. -/
theorem MovedOver.site_kept (h : MovedOver t u mark p bytes tdir dir name)
    (hfree : t.TemporaryFree mark p)
    (hno : ∀ target, t.get? (dir ++ [name]) = some (.link target) →
      ¬ t.PassesFrom (dir ++ [name]) (startFrom t.here p) p.pieces.dropLast) :
    u.Site p dir name := by
  have hnone := hfree.get?_eq_none h.temporary h.free
  have hkept : ∀ key e, key ≠ dir ++ [name] → t.get? key = some e → u.get? key = some e := by
    intro key e hne he
    have hne' : key ≠ tdir ++ [temporaryName mark p] := by
      intro heq
      rw [heq, hnone] at he
      cases he
    rw [h.get?_eq, if_neg hne, if_neg hne', he]
  obtain ⟨left, hway⟩ := h.site.way
  refine ⟨h.site.valid, h.site.last, h.site.stay, h.site.up, left, ?_⟩
  rw [startFrom_eq (t := t) (by rw [h.eq]; rfl) rfl]
  exact hway.of_not_passes (fun key hdir => hkept key _ (fun heq => h.covered (heq ▸ hdir)) hdir)
    (fun key target hne => hkept key _ hne) hno

/-! ## Saving -/

/-- The text of a file was replaced. The file stands at the key `k` now, which is where the path stood, or
is in a directory that was made for it. -/
structure Replaced (t u : FileTree) (mark : Text) (p : Path) (bytes : List UInt8) (k : Key) : Prop where
  place : t.siteKey? p = some k ∨ t.get? k.dropLast = none ∧ u.siteKey? p = some k
  file : u.get? k = some (.file bytes)
  elsewhere : ∀ key, key ≠ k → u.get? key = t.get? key ∨
    t.get? key = none ∧ u.get? key = some .directory ∧ key <+: k
  temporary : u.nodeAt? (temporary mark p) = none
  node : u.nodeAt? p = some (.file bytes) ↔ ∀ above target, p.parent? = some above →
    t.get? k = some (.link target) → ¬ t.Passes above k

/-- Nothing was replaced: every entry is as it was, and only directories were made. -/
structure Kept (t u : FileTree) (mark : Text) (p : Path) : Prop where
  elsewhere : ∀ key, u.get? key = t.get? key ∨ t.get? key = none ∧ u.get? key = some .directory
  node : u.nodeAt? p = t.nodeAt? p
  temporary : u.nodeAt? (temporary mark p) = t.nodeAt? (temporary mark p)

/-- Apart from the file only directories have come, and they are on the way to it. -/
theorem MovedOver.elsewhere (hs : t.Sound) (hmark : '/' ∉ mark) (hup : upStep ∉ p.names)
    (hv : (t.makeParent p).1 = v) (hfree : v.TemporaryFree mark p)
    (h : MovedOver v u mark p bytes tdir dir name) {key : Key} (hne : key ≠ dir ++ [name]) :
    u.get? key = t.get? key ∨
      t.get? key = none ∧ u.get? key = some .directory ∧ key <+: dir ++ [name] := by
  have hgrows : Grows t v := hv ▸ t.grows_makeParent p
  rw [h.get?_eq, if_neg hne]
  split
  · next htemp =>
    have hnone := hfree.get?_eq_none h.temporary h.free
    rw [htemp]
    exact Or.inl ((hgrows.touched_or_none hnone).resolve_left not_false).symm
  · refine (hgrows.elsewhere key not_false).imp_right fun ⟨hnone, hdir⟩ => ⟨hnone, hdir, ?_⟩
    have hchanged : v.get? key ≠ t.get? key := by
      rw [hnone, hdir]
      exact nofun
    have hvt : v ≠ t := fun heq => hchanged (heq ▸ rfl)
    have hprefix := (site_of_makeParent hs hmark hup hv hvt (Or.inl rfl) h.site).2 key hchanged
    exact hprefix.trans (List.prefix_append ..)

/-- Nothing stands under the path of the temporary file. -/
theorem MovedOver.temporary_gone (h : MovedOver t u mark p bytes tdir dir name) :
    u.nodeAt? (FileTree.temporary mark p) = none := by
  rw [Option.eq_none_iff_forall_ne_some]
  intro e he
  obtain ⟨dir', name', hsite, he⟩ := nodeAt?_eq_some_iff.mp he
  obtain ⟨rfl, rfl⟩ := h.temporary.unique (h.site_of hsite)
  rw [h.get?_eq, if_neg h.apart, if_pos rfl] at he
  cases he

/-- The path names the file, unless the way to its directory went through the link that was replaced. -/
theorem MovedOver.nodeAt?_iff (h : MovedOver t u mark p bytes tdir dir name)
    (hfree : t.TemporaryFree mark p) (habove : p.parent? = some above) :
    u.nodeAt? p = some (.file bytes) ↔
      ∀ target, t.get? (dir ++ [name]) = some (.link target) → ¬ t.Passes above (dir ++ [name]) := by
  have hfile : u.get? (dir ++ [name]) = some (.file bytes) := by rw [h.get?_eq, if_pos rfl]
  have hnone := hfree.get?_eq_none h.temporary h.free
  obtain ⟨above', habove', -, hin⟩ := h.site.parent
  obtain rfl : above' = above := Option.some.inj (habove'.symm.trans habove)
  constructor
  · intro hnode target hlink hpasses
    obtain ⟨dir', name', hsite, -⟩ := nodeAt?_eq_some_iff.mp hnode
    obtain ⟨left, hway⟩ := hsite.way
    -- the way would go through the file
    have hthrough : u.PassesFrom (dir ++ [name]) (startFrom u.here p) p.pieces.dropLast := by
      rw [startFrom_eq (t := t) (by rw [h.eq]; rfl) rfl]
      refine (hin.passes_iff.mp hpasses).congr fun key target hne => ?_
      rw [h.get?_eq, if_neg hne]
      split
      · next htemp => rw [htemp, hnone]
      · rfl
    rw [← List.append_nil p.pieces.dropLast] at hthrough
    cases hway.passes_of_append hfile hthrough
  · intro hno
    have hsite := h.site_kept hfree fun target hlink hpasses =>
      hno target hlink (hin.passes_iff.mpr hpasses)
    rw [hsite.nodeAt?_eq, hfile]

theorem Grows.passes_iff (h : Grows t u) : u.Passes p k ↔ t.Passes p k := by
  have hlinks : ∀ key target, u.get? key = some (.link target) ↔ t.get? key = some (.link target) :=
    fun key target => ⟨h.link_of, h.get?_eq not_false⟩
  unfold Passes
  rw [startFrom_eq h.here rfl]
  exact ⟨fun hp => hp.congr fun key target _ => (hlinks key target).symm,
    fun hp => hp.congr fun key target _ => hlinks key target⟩

theorem MovedOver.replaced (hs : t.Sound) (hmark : '/' ∉ mark) (hup : upStep ∉ p.names)
    (hv : (t.makeParent p).1 = v) (hfree : v.TemporaryFree mark p)
    (h : MovedOver v u mark p bytes tdir dir name) : Replaced t u mark p bytes (dir ++ [name]) where
  place := by
    by_cases hvt : v = t
    · exact Or.inl (hvt ▸ h.site).siteKey?_eq
    · have hnone := get?_of_makeParent hs hmark hup hv hvt (Or.inl rfl) h.site
      have hsite := h.site_kept hfree fun target hlink => nomatch hnone.symm.trans hlink
      rw [List.dropLast_concat]
      exact Or.inr ⟨(site_of_makeParent hs hmark hup hv hvt (Or.inl rfl) h.site).1, hsite.siteKey?_eq⟩
  file := by rw [h.get?_eq, if_pos rfl]
  elsewhere _ hne := h.elsewhere hs hmark hup hv hfree hne
  temporary := h.temporary_gone
  node := by
    have hgrows : Grows t v := hv ▸ t.grows_makeParent p
    obtain ⟨above, habove, -⟩ := h.site.parent
    rw [h.nodeAt?_iff hfree habove]
    constructor
    · intro hno above' target habove' hlink hpasses
      obtain rfl : above' = above := Option.some.inj (habove'.symm.trans habove)
      exact hno target (hgrows.get?_eq not_false hlink) (hgrows.passes_iff.mpr hpasses)
    · intro hno target hlink hpasses
      exact hno above target habove (hgrows.link_of hlink) (hgrows.passes_iff.mp hpasses)

/-- Saving a text at a path that does not go up replaces the file as a whole, or nothing at all. -/
theorem replaceText_all_or_nothing (hs : t.Sound) (hmark : '/' ∉ mark) (hup : upStep ∉ p.names)
    (hfree : t.TemporaryFree mark p) (content : TextContent) :
    (∃ u k, t.replaceText mark p content = (u, none) ∧ Replaced t u mark p content.encode k) ∨
      ∃ u error, t.replaceText mark p content = (u, some error) ∧ Kept t u mark p := by
  have hnode : (t.makeParent p).1.nodeAt? p = t.nodeAt? p :=
    nodeAt?_makeParent hs hmark hup (Or.inl rfl)
  have htemp : (t.makeParent p).1.nodeAt? (temporary mark p) = t.nodeAt? (temporary mark p) :=
    nodeAt?_makeParent hs hmark hup (Or.inr rfl)
  have hgrows := t.grows_makeParent p
  rcases t.replaceText_cases mark p content with ⟨u, error, hparent, heq⟩ |
    ⟨v, w, e?, hparent, hwrite, ⟨rfl, heq⟩ | ⟨error, rfl, heq⟩⟩
  · rw [hparent] at hnode htemp hgrows
    exact Or.inr ⟨u, error, heq, fun key => hgrows.elsewhere key not_false, hnode, htemp⟩
  · rw [hparent] at hnode htemp hgrows
    have hfree' : v.TemporaryFree mark p := fun e he => hfree e (htemp ▸ he)
    obtain ⟨tdir, dir, name, hmoved⟩ := writeAndMove_eq_ok hmark hfree'.not_link hwrite
    exact Or.inl ⟨w, dir ++ [name], heq, hmoved.replaced hs hmark hup (by rw [hparent]) hfree'⟩
  · rw [hparent] at hnode htemp hgrows
    have hfree' : v.TemporaryFree mark p := fun e he => hfree e (htemp ▸ he)
    obtain ⟨hhere, hget⟩ := get?_of_cleanUp hmark hfree' hwrite
    refine Or.inr ⟨_, error, heq, fun key => ?_, ?_, ?_⟩
    · rw [hget]
      exact hgrows.elsewhere key not_false
    · rw [nodeAt?_congr hhere hget, hnode]
    · rw [nodeAt?_congr hhere hget, htemp]

/-- A file in a directory. -/
def fileInDirectory : FileTree :=
  ((bare []).put ["d".toList] .directory).put ["d".toList, "a.uni".toList] (.file [])

/-- A directory is made for a new file beside the one that is there. -/
theorem saved_in_new_directory :
    fileInDirectory.Sound ∧ upStep ∉ names ⟨"d/e/a.uni".toList⟩ ∧
      fileInDirectory.TemporaryFree "1".toList ⟨"d/e/a.uni".toList⟩ ∧
      ∃ u k, fileInDirectory.replaceText "1".toList ⟨"d/e/a.uni".toList⟩ ⟨"A".toList, .utf8⟩ = (u, none) ∧
        Replaced fileInDirectory u "1".toList ⟨"d/e/a.uni".toList⟩ [65] k := by
  have hs : fileInDirectory.Sound := by decide +kernel
  have hup : upStep ∉ names ⟨"d/e/a.uni".toList⟩ := by decide +kernel
  have hfree : fileInDirectory.TemporaryFree "1".toList ⟨"d/e/a.uni".toList⟩ := by
    have hnone : fileInDirectory.nodeAt? (temporary "1".toList ⟨"d/e/a.uni".toList⟩) = none := by
      decide +kernel
    intro e he
    rw [hnone] at he
    cases he
  refine ⟨hs, hup, hfree, ?_⟩
  refine (replaceText_all_or_nothing hs (by decide) hup hfree ⟨"A".toList, .utf8⟩).resolve_right ?_
  intro ⟨u, error, hfails, _⟩
  have hsucceeds : (fileInDirectory.replaceText "1".toList ⟨"d/e/a.uni".toList⟩
      ⟨"A".toList, .utf8⟩).2.isNone = true := by decide +kernel
  rw [hfails] at hsucceeds
  cases hsucceeds

/-- A link to the directory that it stands in. -/
def linkBack : FileTree := (bare []).put ["l".toList] (.link ⟨".".toList⟩)

/-- The path leads through the link that it names. So once a file has taken the place of the link, the path
leads nowhere. -/
theorem path_lost_with_link :
    linkBack.Sound ∧ upStep ∉ names ⟨"l/l".toList⟩ ∧
      linkBack.nodeAt? (temporary "1".toList ⟨"l/l".toList⟩) = none ∧
      (linkBack.replaceText "1".toList ⟨"l/l".toList⟩ ⟨"A".toList, .utf8⟩).2.isNone = true ∧
      (linkBack.replaceText "1".toList ⟨"l/l".toList⟩ ⟨"A".toList, .utf8⟩).1.nodeAt?
        ⟨"l/l".toList⟩ = none := by
  decide +kernel

end FirmwareIds.FileTree
