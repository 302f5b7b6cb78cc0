import FirmwareIds.Proofs.FileTree.Saving
import FirmwareIds.Proofs.FileTree.Walk

/-!
# Paths that keep clear of a file

To follow a path is to look up one name after the other. `PassesFrom` says at which keys: links are
followed, and what is no link is passed through, whether it is a directory, a file, or not there at all.
So it depends on the links of a tree and on nothing else, and what it says of a tree it says of every
other that has come of it by changes which leave its links alone or put files over them (`Beside`).

A path that does not pass a file is followed as if the file were not there (`Beside.follow_erase`), and
so are the path above it and, unless the file stands there, the path of the temporary file for it
(`passes_of_parent?`, `passes_of_temporary`). The paths that a walk has found pass no file but the one
that they lead to (`FoundAt.not_passes`).
-/

namespace FirmwareIds.FileTree

open FirmwareIds.Path

/-- The steps from the directory `dir` come to the key `k`, if all that is no link is passed through. -/
inductive PassesFrom (t : FileTree) (k : Key) : Key → List Text → Prop where
  | here {dir step rest} : isStay step = false → step ≠ upStep → dir ++ [step] = k →
      PassesFrom t k dir (step :: rest)
  | stay {dir step rest} : isStay step = true → PassesFrom t k dir rest →
      PassesFrom t k dir (step :: rest)
  | up {dir rest} : PassesFrom t k dir.dropLast rest → PassesFrom t k dir (upStep :: rest)
  | link {dir step target rest} : isStay step = false → step ≠ upStep →
      t.get? (dir ++ [step]) = some (.link target) →
      PassesFrom t k (startFrom dir target) (target.steps ++ rest) →
      PassesFrom t k dir (step :: rest)
  | down {dir step rest} : isStay step = false → step ≠ upStep →
      (∀ target, t.get? (dir ++ [step]) ≠ some (.link target)) →
      PassesFrom t k (dir ++ [step]) rest → PassesFrom t k dir (step :: rest)

/-- The path comes to the key `k`, at its end or on the way. -/
def Passes (t : FileTree) (p : Path) (k : Key) : Prop :=
  t.PassesFrom k (startFrom t.here p) p.steps

variable {t x : FileTree} {k dir stop : Key} {step name mark : Text} {steps rest : List Text}
  {p above : Path} {links left : Nat} {creating : Bool} {bytes : List UInt8}

/-! ## Steps and more steps -/

theorem PassesFrom.stays {front : List Text} (hfront : ∀ x ∈ front, isStay x = true)
    (h : t.PassesFrom k dir steps) : t.PassesFrom k dir (front ++ steps) := by
  induction front with
  | nil => exact h
  | cons step front ih =>
    obtain ⟨hstep, hfront⟩ := List.forall_mem_cons.mp hfront
    exact .stay hstep (ih hfront)

/-- Of more steps, some stay at the front before the first of the others is taken. -/
theorem exists_of_plain_prefix {steps' : List Text} (hstep : isStay step = false)
    (hpre : plain (step :: rest) <+: plain steps') : ∃ front more, steps' = front ++ step :: more ∧
      (∀ x ∈ front, isStay x = true) ∧ plain rest <+: plain more := by
  obtain ⟨z, hz⟩ := hpre
  rw [plain_cons hstep, List.cons_append] at hz
  obtain ⟨front, more, hsteps, hfront, hmore⟩ := exists_of_plain_eq_cons hz.symm
  exact ⟨front, more, hsteps, hfront, z, hmore.symm⟩

/-- More steps pass what fewer have passed, and steps that stay make no difference. -/
theorem PassesFrom.of_plain_prefix {steps' : List Text} (h : t.PassesFrom k dir steps)
    (hpre : plain steps <+: plain steps') : t.PassesFrom k dir steps' := by
  induction h generalizing steps' with
  | here hstep hup hk =>
    obtain ⟨front, more, rfl, hfront, -⟩ := exists_of_plain_prefix hstep hpre
    exact PassesFrom.stays hfront (.here hstep hup hk)
  | stay hstay _ ih => exact ih (plain_cons_of_stay hstay ▸ hpre)
  | up _ ih =>
    obtain ⟨front, more, rfl, hfront, hmore⟩ := exists_of_plain_prefix rfl hpre
    exact PassesFrom.stays hfront (.up (ih hmore))
  | link hstep hup hlink _ ih =>
    obtain ⟨front, more, rfl, hfront, hmore⟩ := exists_of_plain_prefix hstep hpre
    refine PassesFrom.stays hfront (.link hstep hup hlink (ih ?_))
    rw [plain_append, plain_append]
    exact (List.prefix_append_right_inj _).mpr hmore
  | down hstep hup hno _ ih =>
    obtain ⟨front, more, rfl, hfront, hmore⟩ := exists_of_plain_prefix hstep hpre
    exact PassesFrom.stays hfront (.down hstep hup hno (ih hmore))

/-- What one more name comes to bears this name, or the name is that of a link. -/
theorem PassesFrom.of_concat (h : t.PassesFrom k dir (steps ++ [name])) :
    t.PassesFrom k dir steps ∨ ∃ key, t.PassesFrom key dir (steps ++ [name]) ∧
      key.getLast? = some name ∧ (key = k ∨ ∃ target, t.get? key = some (.link target)) := by
  generalize hall : steps ++ [name] = all at h ⊢
  induction h generalizing steps with
  | here hstep hup hk =>
    rcases List.append_eq_cons_iff.mp hall with ⟨rfl, hlast⟩ | ⟨more, rfl, rfl⟩
    · cases hlast
      exact Or.inr ⟨k, .here hstep hup hk, by rw [← hk, List.getLast?_concat], Or.inl rfl⟩
    · exact Or.inl (.here hstep hup hk)
  | stay hstay h ih =>
    rcases List.append_eq_cons_iff.mp hall with ⟨rfl, hlast⟩ | ⟨more, rfl, rfl⟩
    · cases hlast
      cases h
    · exact (ih rfl).imp (.stay hstay) fun ⟨key, hkey, hname, hor⟩ => ⟨key, .stay hstay hkey, hname, hor⟩
  | up h ih =>
    rcases List.append_eq_cons_iff.mp hall with ⟨rfl, hlast⟩ | ⟨more, rfl, rfl⟩
    · cases hlast
      cases h
    · exact (ih rfl).imp .up fun ⟨key, hkey, hname, hor⟩ => ⟨key, .up hkey, hname, hor⟩
  | @link dir step target rest hstep hup hlink h ih =>
    rcases List.append_eq_cons_iff.mp hall with ⟨rfl, hlast⟩ | ⟨more, rfl, rfl⟩
    · cases hlast
      exact Or.inr ⟨dir ++ [name], .here hstep hup rfl, List.getLast?_concat .., Or.inr ⟨target, hlink⟩⟩
    · exact (ih (List.append_assoc ..)).imp (.link hstep hup hlink)
        fun ⟨key, hkey, hname, hor⟩ => ⟨key, .link hstep hup hlink hkey, hname, hor⟩
  | down hstep hup hno h ih =>
    rcases List.append_eq_cons_iff.mp hall with ⟨rfl, hlast⟩ | ⟨more, rfl, rfl⟩
    · cases hlast
      cases h
    · exact (ih rfl).imp (.down hstep hup hno)
        fun ⟨key, hkey, hname, hor⟩ => ⟨key, .down hstep hup hno hkey, hname, hor⟩

/-- A path passes what a path with fewer names passes. -/
theorem Passes.of_names {q : Path} (h : t.Passes q k) (habs : q.isAbsolute = p.isAbsolute)
    (hnames : q.names <+: p.names) : t.Passes p k := by
  unfold Passes at h ⊢
  rw [← startFrom_eq rfl habs]
  refine h.of_plain_prefix ?_
  rwa [plain_steps, plain_steps, plain_pieces, plain_pieces]

/-- Where no links are, a path comes to the names that it holds. -/
theorem Passes.getLast?_mem (hno : ∀ key target, t.get? key ≠ some (.link target))
    (h : t.Passes p k) : ∃ name ∈ p.steps, k.getLast? = some name := by
  unfold Passes at h
  generalize startFrom t.here p = dir, p.steps = steps at h ⊢
  induction h with
  | here _ _ hk => exact ⟨_, List.mem_cons_self .., by rw [← hk, List.getLast?_concat]⟩
  | stay _ _ ih | up _ ih | down _ _ _ _ ih =>
    obtain ⟨name, hname, hk⟩ := ih
    exact ⟨name, List.mem_cons_of_mem _ hname, hk⟩
  | link _ _ hlink => exact absurd hlink (hno _ _)

/-! ## Paths beside others -/

/-- The path above a path is empty, or has no more than the names of it. -/
theorem passes_of_parent? (habove : p.parent? = some above) (hne : above.text ≠ [])
    (h : t.Passes above k) : t.Passes p k := by
  obtain ⟨habs, hnames⟩ := names_of_parent? habove hne
  exact h.of_names habs hnames

/-- A key at which the temporary file for a path may stand. -/
def IsTemporary (t : FileTree) (mark : Text) (p : Path) (key : Key) : Prop :=
  t.Passes (temporary mark p) key ∧ key.getLast? = some (temporaryName mark p)

/-- The path of the temporary file passes what the path itself does, unless the temporary file stands
there, or at a link. -/
theorem passes_of_temporary (hmark : '/' ∉ mark) (h : t.Passes (temporary mark p) k) :
    t.Passes p k ∨ ∃ key, t.IsTemporary mark p key ∧
      (key = k ∨ ∃ target, t.get? key = some (.link target)) := by
  obtain ⟨q, htemp, habs, hnames⟩ : ∃ q : Path, temporary mark p = q.join ⟨temporaryName mark p⟩ ∧
      q.isAbsolute = p.isAbsolute ∧ q.names <+: p.names := by
    cases hfile : p.fileName? with
    | none =>
      refine ⟨p, ?_, rfl, List.prefix_rfl⟩
      show p.withFileName (temporaryName mark p) = _
      unfold withFileName
      rw [hfile]
    | some n =>
      obtain ⟨above, habove, htemp⟩ := @temporary_eq mark _ _ hfile
      obtain ⟨above', habove', hnames, habs, -⟩ := names_of_fileName? hfile
      obtain rfl : above = above' := Option.some.inj (habove.symm.trans habove')
      exact ⟨above, htemp, habs, hnames ▸ List.prefix_append ..⟩
  obtain ⟨hpieces, habs', hsep⟩ :=
    q.join_name (slash_not_mem_temporaryName hmark p) (List.cons_ne_nil _ _)
  have hsteps : (temporary mark p).steps = q.pieces ++ [temporaryName mark p] := by
    unfold steps
    rw [htemp, hsep, hpieces]
    exact List.append_nil _
  have hfrom : t.PassesFrom k (startFrom t.here (temporary mark p))
      (q.pieces ++ [temporaryName mark p]) := hsteps ▸ h
  rcases hfrom.of_concat with hfront | ⟨key, hkey, hname, hor⟩
  · refine Or.inl (Passes.of_names (q := q) ?_ habs hnames)
    unfold Passes
    rw [← startFrom_eq (t := t) (u := t) rfl habs', ← htemp]
    exact hfront.of_plain_prefix (plain_steps q ▸ List.prefix_rfl)
  · rw [← hsteps] at hkey
    exact Or.inr ⟨key, ⟨hkey, hname⟩, hor⟩

/-! ## Trees with the same links -/

/-- From `t` to `x` the file at the key `k` stays as it is, no link is made, and no link goes but for
those that a file is put over. -/
structure Beside (t x : FileTree) (k : Key) : Prop where
  here : x.here = t.here
  file : ∃ bytes, t.get? k = some (.file bytes)
  kept : x.get? k = t.get? k
  link_of : ∀ key target, x.get? key = some (.link target) → t.get? key = some (.link target)
  link : ∀ key target, t.get? key = some (.link target) →
    x.get? key = some (.link target) ∨ ∃ bytes, x.get? key = some (.file bytes)

theorem Beside.refl (h : t.get? k = some (.file bytes)) : Beside t t k :=
  ⟨rfl, ⟨bytes, h⟩, rfl, fun _ _ => id, fun _ _ => Or.inl⟩

theorem Beside.not_directory (h : Beside t x k) : x.get? k ≠ some .directory := by
  obtain ⟨bytes, hfile⟩ := h.file
  rw [h.kept, hfile]
  exact nofun

/-- Where something other than a link or a file is now, no link was. -/
theorem Beside.no_link (h : Beside t x k) {key : Key} (hkey : ∀ target, x.get? key ≠ some (.link target))
    (hkey' : ∀ bytes, x.get? key ≠ some (.file bytes)) (target : Path) :
    t.get? key ≠ some (.link target) := by
  intro hlink
  rcases h.link key target hlink with hlink | ⟨bytes, hfile⟩
  · exact hkey target hlink
  · exact hkey' bytes hfile

theorem Beside.directory_erase (h : Beside t x k) {key : Key} :
    (x.erase k).get? key = some .directory ↔ x.get? key = some .directory := by
  rw [get?_erase]
  split
  · next heq =>
    exact ⟨nofun, fun hdir => absurd (heq ▸ hdir) h.not_directory⟩
  · exact Iff.rfl

/-- Steps that do not pass the file are followed as if it were not there. -/
theorem Beside.follow_erase (h : Beside t x k) {links : Nat} {dir : Key} {steps : List Text}
    (hno : ¬ t.PassesFrom k dir steps) :
    (x.erase k).follow creating links dir steps = x.follow creating links dir steps := by
  cases steps with
  | nil => rw [follow_nil, follow_nil]
  | cons step rest =>
    by_cases hdir : x.get? dir = some .directory
    · have hdir' := h.directory_erase.mpr hdir
      by_cases hstay : isStay step = true
      · rw [follow_stay hdir hstay, follow_stay hdir' hstay]
        exact h.follow_erase fun hp => hno (.stay hstay hp)
      by_cases hup : step = upStep
      · subst hup
        rw [follow_up hdir, follow_up hdir']
        exact h.follow_erase fun hp => hno (.up hp)
      have hstay := Bool.eq_false_iff.mpr hstay
      have hne : dir ++ [step] ≠ k := fun hk => hno (.here hstay hup hk)
      rw [follow_beyond hdir hstay hup, follow_beyond hdir' hstay hup, get?_erase, if_neg hne]
      by_cases hrest : creating = true ∧ rest = [[]]
      · rw [if_pos hrest, if_pos hrest]
      rw [if_neg hrest, if_neg hrest]
      by_cases hlong : nameLimit < step.byteLength
      · rw [if_pos hlong, if_pos hlong]
      rw [if_neg hlong, if_neg hlong]
      cases he : x.get? (dir ++ [step]) with
      | none => rfl
      | some e =>
        cases e with
        | directory =>
          have hlink : ∀ target, t.get? (dir ++ [step]) ≠ some (.link target) :=
            h.no_link (fun _ hl => nomatch he.symm.trans hl) fun _ hf => nomatch he.symm.trans hf
          exact h.follow_erase fun hp => hno (.down hstay hup hlink hp)
        | file bytes =>
          -- nothing can be followed from a file
          have hfile : ¬ x.get? (dir ++ [step]) = some .directory := fun hd => nomatch he.symm.trans hd
          cases rest with
          | nil => exact follow_nil.trans follow_nil.symm
          | cons step' rest =>
            exact (follow_of_not_directory (mt h.directory_erase.mp hfile)).trans
              (follow_of_not_directory hfile).symm
        | link target =>
          cases links with
          | zero => rfl
          | succ links =>
            exact h.follow_erase fun hp => hno (.link hstay hup (h.link_of _ _ he) hp)
    · rw [follow_of_not_directory hdir, follow_of_not_directory (mt h.directory_erase.mp hdir)]
termination_by (links, steps.length)

theorem Beside.startFrom_eq (h : Beside t x k) (p : Path) :
    startFrom x.here p = startFrom t.here p :=
  FileTree.startFrom_eq h.here rfl

theorem Beside.resolve_erase (h : Beside t x k) (hno : ¬ t.Passes p k) :
    (x.erase k).resolve creating p = x.resolve creating p := by
  unfold resolve
  rw [here_erase, h.follow_erase (h.startFrom_eq p ▸ hno)]

theorem Beside.locate_erase (h : Beside t x k) (hno : ¬ t.Passes p k) :
    (x.erase k).locate p = x.locate p := by
  unfold locate
  rw [h.resolve_erase hno]

theorem Beside.isDirectory_erase (h : Beside t x k) (hno : ¬ t.Passes p k) :
    (x.erase k).isDirectory p = x.isDirectory p := by
  unfold isDirectory
  rw [h.locate_erase hno]
  cases x.locate p with
  | error fault => rfl
  | ok key => exact Bool.eq_iff_iff.mpr (by simpa using h.directory_erase)

theorem Beside.site_erase (h : Beside t x k) (hno : ¬ t.Passes p k) :
    (x.erase k).site p = x.site p := by
  have hfront : ¬ t.PassesFrom k (startFrom x.here p) (p.pieces.dropLast ++ [[]]) := fun hp => by
    rw [h.startFrom_eq] at hp
    refine hno (hp.of_plain_prefix ?_)
    rw [plain_append, plain_steps, show plain [[]] = [] from rfl, List.append_nil]
    exact (List.dropLast_prefix _).filter _
  unfold site
  rw [here_erase, h.follow_erase hfront]

theorem Beside.nameKey_erase (h : Beside t x k) (hno : ¬ t.Passes p k) (noName : Fault) :
    (x.erase k).nameKey p noName = x.nameKey p noName := by
  unfold nameKey
  rw [h.site_erase hno]

theorem Beside.fileKey_erase (h : Beside t x k) (hno : ¬ t.Passes p k) :
    (x.erase k).fileKey p = x.fileKey p := by
  unfold fileKey
  rw [h.resolve_erase hno]
  cases x.resolve true p with
  | error fault => rfl
  | ok place =>
    cases place with
    | vacant dir name => rfl
    | there key => simp only [h.directory_erase]

/-! ## Ways -/

/-- What is passed behind a way is passed by the steps of the way and those behind it. -/
theorem Beside.passes_append (h : Beside t x k) (hway : x.Way left stop links dir steps) {key : Key}
    (hp : t.PassesFrom key stop rest) : t.PassesFrom key dir (steps ++ rest) := by
  induction hway with
  | done _ => exact hp
  | stay _ hstay _ ih => exact .stay hstay ih
  | up _ _ ih => exact .up ih
  | link hname hlink _ ih =>
    exact .link hname.stay hname.up (h.link_of _ _ hlink) (List.append_assoc .. ▸ ih)
  | down hname hdir _ ih =>
    refine .down hname.stay hname.up (h.no_link (fun _ hl => nomatch hdir.symm.trans hl)
      fun _ hf => nomatch hdir.symm.trans hf) ih

/-- A path passes the key of its last name. -/
theorem Beside.passes_site (h : Beside t x k) (hsite : x.Site p dir name) :
    t.Passes p (dir ++ [name]) := by
  obtain ⟨left, hway⟩ := hsite.way
  have hlast : t.PassesFrom (dir ++ [name]) dir [name] := .here hsite.stay hsite.up rfl
  have hpasses := h.passes_append hway hlast
  rw [← hsite.pieces_eq, h.startFrom_eq] at hpasses
  exact hpasses.of_plain_prefix (plain_steps p ▸ List.prefix_rfl)

/-- A way passes no file, so what passes one does so behind the way. -/
theorem Way.passes_of_append (hway : t.Way left stop links dir steps)
    (hfile : t.get? k = some (.file bytes)) (hp : t.PassesFrom k dir (steps ++ rest)) :
    t.PassesFrom k stop rest := by
  induction hway with
  | done _ => exact hp
  | stay _ hstay _ ih =>
    cases hp with
    | stay _ hp => exact ih hp
    | here hs | link hs | down hs => exact absurd hstay (Bool.eq_false_iff.mp hs)
    | up => cases hstay
  | up _ _ ih =>
    cases hp with
    | up hp => exact ih hp
    | stay hs => cases hs
    | here _ hup | link _ hup | down _ hup => exact absurd rfl hup
  | link hname hlink _ ih =>
    cases hp with
    | link _ _ hlink' hp =>
      obtain rfl := Entry.link.inj (Option.some.inj (hlink.symm.trans hlink'))
      exact ih ((List.append_assoc ..).symm ▸ hp)
    | here _ _ hk =>
      subst hk
      exact nomatch hfile.symm.trans hlink
    | stay hs => exact absurd hs (Bool.eq_false_iff.mp hname.stay)
    | up => exact absurd rfl hname.up
    | down _ _ hno => exact absurd hlink (hno _)
  | down hname hdir _ ih =>
    cases hp with
    | down _ _ _ hp => exact ih hp
    | here _ _ hk =>
      subst hk
      exact nomatch hfile.symm.trans hdir
    | stay hs => exact absurd hs (Bool.eq_false_iff.mp hname.stay)
    | up => exact absurd rfl hname.up
    | link _ _ hlink => exact nomatch hdir.symm.trans hlink

/-- A path that a walk has found passes the file that it leads to. -/
theorem FoundAt.passes (h : t.FoundAt p dir name) : t.Passes p (dir ++ [name]) := by
  obtain ⟨bytes, hfile⟩ := h.file
  obtain ⟨left, hway⟩ := h.way
  unfold Passes
  rw [h.steps_eq]
  exact (Beside.refl hfile).passes_append hway (.here h.stay h.named.2.2.2.1 rfl)

/-- It passes no other file. -/
theorem FoundAt.not_passes (h : t.FoundAt p dir name) (hfile : t.get? k = some (.file bytes))
    (hne : dir ++ [name] ≠ k) : ¬ t.Passes p k := by
  intro hp
  obtain ⟨left, hway⟩ := h.way
  obtain ⟨own, hown⟩ := h.file
  unfold Passes at hp
  rw [h.steps_eq] at hp
  cases hway.passes_of_append hfile hp with
  | here _ _ hk => exact hne hk
  | stay _ hp => cases hp
  | up hp => cases hp
  | link _ _ hlink => exact nomatch hown.symm.trans hlink
  | down _ _ _ hp => cases hp

/-! ## Reading -/

/-- Steps that lead to a file pass it. -/
theorem Sound.passes_of_follow (hs : t.Sound) (hfile : t.get? k = some (.file bytes))
    (h : t.follow creating links dir steps = .ok (.there k)) :
    t.PassesFrom k dir steps ∨ steps = [] ∧ dir = k := by
  have hno : t.get? k ≠ some .directory := fun hdir => nomatch hfile.symm.trans hdir
  -- steps that were taken from a directory are more than none
  have hgo : ∀ {dir : Key} {steps : List Text}, t.get? dir = some .directory →
      t.PassesFrom k dir steps ∨ steps = [] ∧ dir = k → t.PassesFrom k dir steps :=
    fun hdir hor => hor.resolve_right fun ⟨_, heq⟩ => hno (heq ▸ hdir)
  have hfollows := follows_of_follow h
  clear h
  induction hfollows with
  | done hplace => exact Or.inr ⟨rfl, (Place.there.inj hplace).symm⟩
  | stay hdir hstay _ ih => exact Or.inl (.stay hstay (hgo hdir ih))
  | up hdir _ ih => exact Or.inl (.up (hgo (hs.dropLast hdir) ih))
  | @link links dir step target rest hname _ hlink _ ih =>
    have hstart : t.get? (startFrom dir target) = some .directory := by
      unfold startFrom
      split
      · exact hs.root
      · exact hname.directory
    exact Or.inl (.link hname.stay hname.up hlink (hgo hstart ih))
  | down hname _ hdir _ ih =>
    exact Or.inl (.down hname.stay hname.up (fun _ hl => nomatch hdir.symm.trans hl) (hgo hdir ih))
  | file hname _ hplace =>
    exact Or.inl (.here hname.stay hname.up (Place.there.inj hplace).symm)
  | vacant _ _ hplace => cases hplace

/-- A path that is not empty has steps. -/
theorem text_eq_nil_of_steps (h : p.steps = []) : p.text = [] := by
  unfold steps at h
  obtain ⟨hpieces, hend⟩ := List.append_eq_nil_iff.mp h
  rcases List.eq_nil_or_concat p.text with hnil | ⟨front, c, htext⟩
  · exact hnil
  rw [List.concat_eq_append] at htext
  have hc : c ≠ '/' := by
    rintro rfl
    have hsep : p.endsWithSeparator = true := by
      unfold endsWithSeparator
      rw [htext, List.getLast?_concat]
      rfl
    rw [hsep, if_pos rfl] at hend
    cases hend
  rw [pieces_eq, htext] at hpieces
  exact absurd hpieces (piecesOf_concat_ne_nil hc)

/-- A path that leads to a file passes it. -/
theorem Sound.passes_of_locate (hs : t.Sound) (hfile : t.get? k = some (.file bytes))
    (h : t.locate p = .ok k) : t.Passes p k := by
  obtain ⟨hvalid, hfollow⟩ := locate_eq_ok_iff.mp h
  refine (hs.passes_of_follow hfile hfollow).resolve_right fun ⟨hsteps, _⟩ => ?_
  unfold fault? at hvalid
  rw [text_eq_nil_of_steps hsteps] at hvalid
  cases hvalid

theorem readFile_erase (hs : t.Sound) (hfile : t.get? k = some (.file bytes))
    (hno : ¬ t.Passes p k) : (t.erase k).readFile p = t.readFile p := by
  unfold readFile
  rw [(Beside.refl hfile).locate_erase hno]
  cases hkey : t.locate p with
  | error fault => rfl
  | ok key =>
    have hne : key ≠ k := fun heq => hno (hs.passes_of_locate hfile (heq ▸ hkey))
    dsimp only
    rw [get?_erase, if_neg hne]

/-- A text at a path that does not pass the file is read as if the file were not there. -/
theorem loadText_erase (hs : t.Sound) (hfile : t.get? k = some (.file bytes))
    (hno : ¬ t.Passes p k) : (t.erase k).loadText p = t.loadText p := by
  unfold loadText
  rw [readFile_erase hs hfile hno]

end FirmwareIds.FileTree
