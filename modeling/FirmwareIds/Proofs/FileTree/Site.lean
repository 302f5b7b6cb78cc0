import FirmwareIds.Proofs.FileTree.Way

/-!
# Where the last name of a path stands

An operation on a file works on one key: the directory that the steps before the last name lead to,
and this name (`Site`). A path to a file that is no link leads to that key (`Site.locate_eq`), and
is written there (`Site.fileKey_eq`).

A change of the tree can break a way only by taking a directory away or a link that leads to one. A
link that leads to no directory stands on no way (`LeadsNowhere`), and that is so for the link at a
path that leads to no directory (`Site.leadsNowhere`): such a link may be replaced.
-/

namespace FirmwareIds.FileTree

open FirmwareIds.Path

variable {t : FileTree} {p : Path} {dir : Key} {name : Text}

/-! ## Directories -/

theorem plain_steps (p : Path) : plain p.steps = plain p.pieces := by
  unfold steps
  rw [plain_append]
  split
  · exact List.append_nil _
  · exact List.append_nil _

/-- The pieces of a path without its dots are its names. -/
theorem plain_pieces (p : Path) : plain p.pieces = p.names := by
  unfold plain names
  refine List.filter_congr fun piece hpiece => ?_
  have hne := ne_nil_of_mem_pieces hpiece
  by_cases hdot : piece = ['.'] <;> simp [isStay, hdot, hne]

theorem startFrom_eq {u : FileTree} (h : u.here = t.here) {q : Path}
    (hq : q.isAbsolute = p.isAbsolute) : startFrom u.here q = startFrom t.here p := by
  unfold startFrom
  rw [h, hq]

theorem locate_of_fault {fault : Fault} (hp : p.fault? = some fault) :
    t.locate p = .error fault := by
  unfold locate resolve
  rw [hp]

/-- A path leads to a key if it can be taken and its steps lead there. -/
theorem locate_eq_ok_iff {k : Key} : t.locate p = .ok k ↔ p.fault? = none ∧
    t.follow false linkLimit (startFrom t.here p) p.steps = .ok (.there k) := by
  cases hp : p.fault? with
  | some fault =>
    rw [locate_of_fault hp]
    simp
  | none =>
    unfold locate resolve
    rw [hp]
    dsimp only
    rcases t.follow false linkLimit (startFrom t.here p) p.steps with fault | ⟨key | ⟨dir, name⟩⟩ <;>
      simp

/-- A path leads to a directory if it can be taken and there is a way. -/
theorem locate_of_way {left : Nat} {stop : Key} (hp : p.fault? = none)
    (h : t.Way left stop linkLimit (startFrom t.here p) p.pieces) : t.locate p = .ok stop :=
  locate_eq_ok_iff.mpr ⟨hp, (h.of_plain (plain_steps p).symm).follow_eq⟩

/-- A path leads to the file that it led to, if all directories and links are kept. -/
theorem locate_file_of_kept {u : FileTree} {k : Key} {bytes : List UInt8}
    (hhere : u.here = t.here) (hdirs : ∀ x, t.get? x = some .directory → u.get? x = some .directory)
    (hlinks : ∀ x target, t.get? x = some (.link target) → u.get? x = some (.link target))
    (hk : u.get? k = some (.file bytes)) (hp : t.locate p = .ok k) : u.locate p = .ok k := by
  obtain ⟨hvalid, hfollow⟩ := locate_eq_ok_iff.mp hp
  refine locate_eq_ok_iff.mpr ⟨hvalid, ?_⟩
  rw [startFrom_eq hhere rfl]
  exact follow_file_of_kept hdirs hlinks hk hfollow

theorem isDirectory_iff : t.isDirectory p = true ↔
    p.fault? = none ∧ ∃ left stop, t.Way left stop linkLimit (startFrom t.here p) p.pieces := by
  constructor
  · intro h
    unfold isDirectory at h
    cases hlocate : t.locate p with
    | error fault => rw [hlocate] at h; cases h
    | ok k =>
      rw [hlocate] at h
      have hk : t.get? k = some .directory := eq_of_beq h
      obtain ⟨hvalid, hfollow⟩ := locate_eq_ok_iff.mp hlocate
      rw [← List.append_nil p.steps] at hfollow
      obtain ⟨left, stop, hway⟩ := way_of_follow hfollow (Or.inr ⟨k, rfl, hk⟩)
      exact ⟨hvalid, left, stop, hway.of_plain (plain_steps p)⟩
  · rintro ⟨hp, left, stop, hway⟩
    unfold isDirectory
    rw [locate_of_way hp hway]
    exact beq_iff_eq.mpr hway.directory

/-! ## The last name -/

/-- The last name of a path stands in the directory `dir`, and is `name`. -/
structure Site (t : FileTree) (p : Path) (dir : Key) (name : Text) : Prop where
  valid : p.fault? = none
  last : p.pieces.getLast? = some name
  stay : isStay name = false
  up : name ≠ upStep
  way : ∃ left, t.Way left dir linkLimit (startFrom t.here p) p.pieces.dropLast

theorem Site.pieces_eq (h : t.Site p dir name) : p.pieces = p.pieces.dropLast ++ [name] := by
  obtain ⟨front, hfront⟩ := List.getLast?_eq_some_iff.mp h.last
  rw [hfront, List.dropLast_concat]

theorem Site.directory (h : t.Site p dir name) : t.get? dir = some .directory := by
  obtain ⟨left, hway⟩ := h.way
  exact hway.directory

theorem Site.unique {dir' : Key} {name' : Text} (h : t.Site p dir name)
    (h' : t.Site p dir' name') : dir = dir' ∧ name = name' := by
  obtain ⟨left, hway⟩ := h.way
  obtain ⟨left', hway'⟩ := h'.way
  exact ⟨hway.unique hway', Option.some.inj (h.last.symm.trans h'.last)⟩

theorem Site.nameStep (h : t.Site p dir name) (hshort : ¬ nameLimit < name.byteLength) :
    t.NameStep dir name :=
  ⟨h.directory, h.stay, h.up, hshort⟩

theorem isStay_eq_false_iff {step : Text} : isStay step = false ↔ step ≠ [] ∧ step ≠ ['.'] := by
  unfold isStay
  rw [Bool.or_eq_false_iff, beq_eq_false_iff_ne, beq_eq_false_iff_ne]

theorem site_eq_ok_iff : t.site p = .ok (dir, some name) ↔ t.Site p dir name := by
  constructor
  · intro h
    unfold site at h
    cases hp : p.fault? with
    | some fault => rw [hp] at h; cases h
    | none =>
      rw [hp] at h
      dsimp only at h
      cases hf : t.follow false linkLimit (startFrom t.here p) (p.pieces.dropLast ++ [[]]) with
      | error fault => rw [hf] at h; cases h
      | ok place =>
        rw [hf] at h
        cases place with
        | vacant dir name => cases h
        | there k =>
          obtain ⟨rfl, hname⟩ := Prod.ext_iff.mp (Except.ok.inj h)
          obtain ⟨hlast, hdots⟩ := Option.filter_eq_some_iff.mp hname
          have hdots : name ≠ ['.'] ∧ name ≠ upStep := by simpa using hdots
          obtain ⟨left, stop, hway⟩ := way_of_follow hf (Or.inl (List.cons_ne_nil _ _))
          -- the empty step behind the way stays
          have hstop : stop = k := by
            rw [hway.follow_append (List.cons_ne_nil _ _) (fun h => Bool.false_ne_true h.1),
              follow_stay hway.directory rfl, follow_nil] at hf
            cases hf
            rfl
          refine ⟨hp, hlast, isStay_eq_false_iff.mpr ⟨?_, hdots.1⟩, hdots.2, left, hstop ▸ hway⟩
          exact ne_nil_of_mem_pieces (List.mem_of_getLast? hlast)
  · intro h
    obtain ⟨left, hway⟩ := h.way
    unfold site
    rw [h.valid]
    dsimp only
    rw [hway.follow_append (List.cons_ne_nil _ _) (fun h => Bool.false_ne_true h.1),
      follow_stay hway.directory rfl, follow_nil, h.last]
    have hdot := (isStay_eq_false_iff.mp h.stay).2
    have hup := h.up
    simp [Option.filter, hdot, hup]

theorem nameKey_eq_ok_iff {noName : Fault} {k : Key} : t.nameKey p noName = .ok k ↔
    ∃ dir name, t.Site p dir name ∧ ¬ nameLimit < name.byteLength ∧ k = dir ++ [name] := by
  unfold nameKey
  constructor
  · intro h
    cases hs : t.site p with
    | error fault => rw [hs] at h; cases h
    | ok place =>
      obtain ⟨dir, name?⟩ := place
      rw [hs] at h
      cases name? with
      | none => cases h
      | some name =>
        dsimp only at h
        split at h
        · cases h
        · next hshort => exact ⟨dir, name, site_eq_ok_iff.mp hs, hshort, (Except.ok.inj h).symm⟩
  · rintro ⟨dir, name, hsite, hshort, rfl⟩
    rw [site_eq_ok_iff.mpr hsite]
    exact if_neg hshort

theorem Site.nameKey_eq (h : t.Site p dir name) (hshort : ¬ nameLimit < name.byteLength)
    (noName : Fault) : t.nameKey p noName = .ok (dir ++ [name]) :=
  nameKey_eq_ok_iff.mpr ⟨dir, name, h, hshort, rfl⟩

/-- From the directory of its last name, a path that no separator ends has this name to go. -/
theorem Site.resolve_eq (h : t.Site p dir name) (hsep : p.endsWithSeparator = false)
    (creating : Bool) : ∃ left,
      t.resolve creating p = t.follow creating left dir [name] := by
  obtain ⟨left, hway⟩ := h.way
  refine ⟨left, ?_⟩
  have hsteps : p.steps = p.pieces.dropLast ++ [name] := by
    unfold steps
    rw [hsep, ← h.pieces_eq]
    exact List.append_nil _
  unfold resolve
  rw [h.valid]
  dsimp only
  rw [hsteps, hway.follow_append (List.cons_ne_nil _ _)]
  rintro ⟨-, hname⟩
  have := h.stay
  rw [List.singleton_inj.mp hname] at this
  cases this

theorem not_creating_nil {creating : Bool} : ¬ (creating = true ∧ ([] : List Text) = [[]]) :=
  fun h => nomatch h.2

/-- A path to an entry that is no link leads to the key of its last name. -/
theorem Site.locate_eq (h : t.Site p dir name) (hsep : p.endsWithSeparator = false)
    (hshort : ¬ nameLimit < name.byteLength) {e : Entry} (he : t.get? (dir ++ [name]) = some e)
    (hlink : ∀ target, e ≠ .link target) : t.locate p = .ok (dir ++ [name]) := by
  obtain ⟨left, hres⟩ := h.resolve_eq hsep false
  unfold locate
  rw [hres, follow_name (h.nameStep hshort) not_creating_nil, he]
  cases e with
  | link target => exact absurd rfl (hlink target)
  | directory | file => dsimp only; rw [follow_nil]

/-- Where nothing is, a path leads nowhere. -/
theorem Site.locate_of_none (h : t.Site p dir name) (hsep : p.endsWithSeparator = false)
    (hshort : ¬ nameLimit < name.byteLength) (he : t.get? (dir ++ [name]) = none) :
    t.locate p = .error .notFound := by
  obtain ⟨left, hres⟩ := h.resolve_eq hsep false
  unfold locate
  rw [hres, follow_name (h.nameStep hshort) not_creating_nil, he]
  rfl

/-- A file is written at the key of its last name, if that is no link. -/
theorem Site.fileKey_eq (h : t.Site p dir name) (hsep : p.endsWithSeparator = false)
    (hlink : ∀ target, t.get? (dir ++ [name]) ≠ some (.link target)) {k : Key}
    (hk : t.fileKey p = .ok k) : k = dir ++ [name] ∧ ¬ nameLimit < name.byteLength ∧
      t.get? k ≠ some .directory := by
  obtain ⟨left, hres⟩ := h.resolve_eq hsep true
  unfold fileKey at hk
  rw [hres] at hk
  have hshort : ¬ nameLimit < name.byteLength := by
    intro hlong
    rw [follow_beyond h.directory h.stay h.up] at hk
    simp [hlong] at hk
  rw [follow_name (h.nameStep hshort) not_creating_nil] at hk
  cases he : t.get? (dir ++ [name]) with
  | none =>
    rw [he] at hk
    cases hk
    exact ⟨rfl, hshort, fun hd => nomatch he.symm.trans hd⟩
  | some e =>
    cases e with
    | link target => exact absurd he (hlink target)
    | directory =>
      rw [he] at hk
      simp [follow_nil, he] at hk
    | file bytes =>
      rw [he] at hk
      simp only [follow_nil, he] at hk
      cases hk
      exact ⟨rfl, hshort, fun hd => nomatch he.symm.trans hd⟩

/-- A path that is followed to its end has its last name in a directory. -/
theorem site_of_resolve {creating : Bool} {place : Place} (h : t.resolve creating p = .ok place)
    (hsep : p.endsWithSeparator = false) (hlast : p.pieces.getLast? = some name)
    (hstay : isStay name = false) (hup : name ≠ upStep) : ∃ dir, t.Site p dir name := by
  unfold resolve at h
  cases hp : p.fault? with
  | some fault => rw [hp] at h; cases h
  | none =>
    rw [hp] at h
    obtain ⟨front, hfront⟩ := List.getLast?_eq_some_iff.mp hlast
    have hsteps : p.steps = p.pieces.dropLast ++ [name] := by
      unfold steps
      rw [hsep, hfront, List.dropLast_concat]
      exact List.append_nil _
    dsimp only at h
    rw [hsteps] at h
    obtain ⟨left, stop, hway⟩ := way_of_follow h (Or.inl (List.cons_ne_nil _ _))
    exact ⟨stop, hp, hlast, hstay, hup, left, hway⟩

/-- A file that was written has its last name in a directory. -/
theorem site_of_fileKey {k : Key} (hk : t.fileKey p = .ok k) (hsep : p.endsWithSeparator = false)
    (hlast : p.pieces.getLast? = some name) (hstay : isStay name = false) (hup : name ≠ upStep) :
    ∃ dir, t.Site p dir name := by
  unfold fileKey at hk
  cases hplace : t.resolve true p with
  | error fault => rw [hplace] at hk; cases hk
  | ok place => exact site_of_resolve hplace hsep hlast hstay hup

/-- What a path leads to has the last name of the path, in a directory. -/
theorem site_of_locate {k : Key} (hk : t.locate p = .ok k) (hsep : p.endsWithSeparator = false)
    (hlast : p.pieces.getLast? = some name) (hstay : isStay name = false) (hup : name ≠ upStep) :
    ∃ dir, t.Site p dir name := by
  unfold locate at hk
  cases hplace : t.resolve false p with
  | error fault => rw [hplace] at hk; cases hk
  | ok place => exact site_of_resolve hplace hsep hlast hstay hup

/-! ## Links that stand on no way -/

/-- The link at a key, if there is one, leads to no directory. -/
def LeadsNowhere (t : FileTree) (k : Key) : Prop :=
  ∀ target, t.get? k = some (.link target) →
    ∀ links left stop, ¬ t.Way left stop links (startFrom k.dropLast target) target.steps

theorem leadsNowhere_of_not_link {k : Key}
    (h : ∀ target, t.get? k ≠ some (.link target)) : t.LeadsNowhere k :=
  fun target hlink => absurd hlink (h target)

/-- A way stays when the directories stay and the links that lead to one. -/
theorem Way.of_kept {u : FileTree} {left links : Nat} {stop : Key} {steps : List Text}
    (h : t.Way left stop links dir steps)
    (hdirs : ∀ k, t.get? k = some .directory → u.get? k = some .directory)
    (hlinks : ∀ k target, t.get? k = some (.link target) →
      u.get? k = some (.link target) ∨ t.LeadsNowhere k) :
    u.Way left stop links dir steps := by
  induction h with
  | done hdir => exact .done (hdirs _ hdir)
  | stay hdir hstay _ ih => exact .stay (hdirs _ hdir) hstay ih
  | up hdir _ ih => exact .up (hdirs _ hdir) ih
  | @link links dir step target rest hname hlink hway ih =>
    refine .link (hname.of_kept hdirs) ((hlinks _ target hlink).resolve_right fun hnowhere => ?_) ih
    -- this link leads on, to where the rest of the steps starts
    obtain ⟨left', stop', hfront, -⟩ := hway.split
    refine hnowhere target hlink links left' stop' ?_
    rw [List.dropLast_concat]
    exact hfront
  | down hname hdir _ ih => exact .down (hname.of_kept hdirs) (hdirs _ hdir) ih

/-- What a path leads to, the link at its last name leads to. So if that is no directory, and it is
not for the number of links, the link leads to none from anywhere. -/
theorem Site.leadsNowhere (h : t.Site p dir name) (hsep : p.endsWithSeparator = false)
    (hshort : ¬ nameLimit < name.byteLength) (hlinks : t.locate p ≠ .error .tooManyLinks)
    (hdir : t.isDirectory p = false) : t.LeadsNowhere (dir ++ [name]) := by
  intro target hlink links left stop hway
  rw [List.dropLast_concat] at hway
  obtain ⟨allowed, hres⟩ := h.resolve_eq hsep false
  rw [follow_name (h.nameStep hshort) not_creating_nil, hlink] at hres
  unfold locate at hlinks
  unfold isDirectory locate at hdir
  cases allowed with
  | zero =>
    rw [hres] at hlinks
    exact hlinks rfl
  | succ allowed =>
    dsimp only at hres
    rw [List.append_nil] at hres
    have hless : ∀ {few many}, few ≤ many →
        t.follow false few (startFrom dir target) target.steps = .error .tooManyLinks ∨
          t.follow false few (startFrom dir target) target.steps =
            t.follow false many (startFrom dir target) target.steps := follow_of_le
    have hfollow : t.follow false allowed (startFrom dir target) target.steps = .ok (.there stop) := by
      rcases Nat.le_total allowed links with hle | hle
      · rcases hless hle with hmany | hsame
        · rw [hres, hmany] at hlinks
          exact absurd rfl hlinks
        · exact hsame.trans hway.follow_eq
      · rcases hless hle with hmany | hsame
        · rw [hway.follow_eq] at hmany
          cases hmany
        · exact hsame.symm.trans hway.follow_eq
    rw [hres, hfollow] at hdir
    simp [hway.directory] at hdir

end FirmwareIds.FileTree
