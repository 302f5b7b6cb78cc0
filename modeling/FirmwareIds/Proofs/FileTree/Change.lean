import FirmwareIds.Proofs.FileTree.Site

/-!
# What a change leaves alone

The operations on files change few keys of a tree, and beyond these they only make directories where
nothing was. `Evolves t u touched` says so of two trees, and that the keys which were touched held
nothing that a way needs. So every way of the old tree is a way of the new one (`Evolves.way`), and a
row of changes is a change (`Evolves.trans`).

A tree is `Sound` if every entry lies in a directory and bears a name that a path can hold.
-/

namespace FirmwareIds.FileTree

open FirmwareIds.Path

/-! ## Sound trees -/

/-- A name that an entry can bear. -/
def IsEntryName (n : Text) : Prop :=
  n ≠ [] ∧ '/' ∉ n ∧ n ≠ ['.'] ∧ n ≠ upStep ∧ ¬ nameLimit < n.byteLength

instance (n : Text) : Decidable (IsEntryName n) := inferInstanceAs (Decidable (_ ∧ _))

/-- The root is a directory, and every other entry lies in one under a name. -/
structure Sound (t : FileTree) : Prop where
  root : t.get? [] = some .directory
  parent : ∀ dir name e, t.get? (dir ++ [name]) = some e →
    t.get? dir = some .directory ∧ IsEntryName name

/-- Whether an entry lies where it can lie. -/
def Sits (t : FileTree) (k : Key) : Prop :=
  k = [] ∨ t.get? k.dropLast = some .directory ∧ ∃ n ∈ k.getLast?, IsEntryName n

instance (t : FileTree) (k : Key) : Decidable (t.Sits k) :=
  inferInstanceAs (Decidable (_ ∨ _))

theorem sound_iff {t : FileTree} :
    t.Sound ↔ t.get? [] = some .directory ∧ ∀ x ∈ t.entries, t.Sits x.1 := by
  constructor
  · intro h
    refine ⟨h.root, fun ⟨k, e⟩ hx => ?_⟩
    rcases List.eq_nil_or_concat k with rfl | ⟨dir, name, rfl⟩
    · exact Or.inl rfl
    · rw [List.concat_eq_append] at hx ⊢
      obtain ⟨hdir, hname⟩ := h.parent dir name e (mem_entries_iff.mp hx)
      exact Or.inr (by simpa using ⟨hdir, hname⟩)
  · rintro ⟨hroot, hall⟩
    refine ⟨hroot, fun dir name e he => ?_⟩
    have := (hall _ (mem_entries_iff.mpr he)).resolve_left (by simp)
    simpa using this

instance (t : FileTree) : Decidable t.Sound := decidable_of_iff _ sound_iff.symm

/-- Whether an entry is a link. -/
def isLink : Entry → Bool
  | .link _ => true
  | _ => false

theorem ne_link_of_isLink {e : Entry} (h : isLink e = false) (target : Path) : e ≠ .link target := by
  rintro rfl
  cases h

variable {t u v : FileTree} {dir : Key} {name : Text}

/-- Below what is not there, nothing is. -/
theorem Sound.get?_eq_none (h : t.Sound) (hdir : t.get? dir = none) (name : Text) :
    t.get? (dir ++ [name]) = none := by
  cases he : t.get? (dir ++ [name]) with
  | none => rfl
  | some e =>
    have := (h.parent dir name e he).1
    rw [hdir] at this
    cases this

/-- What is put into a directory lies where it can lie. -/
theorem Sound.put (h : t.Sound) (hdir : t.get? dir = some .directory) (hname : IsEntryName name)
    {e : Entry} (hkeep : t.get? (dir ++ [name]) = some .directory → e = .directory) :
    (t.put (dir ++ [name]) e).Sound := by
  have hkept : ∀ k, t.get? k = some .directory →
      (t.put (dir ++ [name]) e).get? k = some .directory := by
    intro k hk
    rw [get?_put]
    split
    · next heq => rw [hkeep (heq ▸ hk)]
    · exact hk
  refine ⟨hkept [] h.root, fun dir' name' e' he' => ?_⟩
  rw [get?_put] at he'
  split at he'
  · next heq =>
    obtain ⟨rfl, hn⟩ := List.append_inj' heq rfl
    rw [List.singleton_inj.mp hn]
    exact ⟨hkept _ hdir, hname⟩
  · obtain ⟨hdir', hname'⟩ := h.parent dir' name' e' he'
    exact ⟨hkept _ hdir', hname'⟩

theorem Sound.erase (h : t.Sound) {k : Key} (hk : t.get? k ≠ some .directory) :
    (t.erase k).Sound := by
  have hkept : ∀ k', t.get? k' = some .directory → (t.erase k).get? k' = some .directory := by
    intro k' hk'
    have hne : k' ≠ k := fun heq => hk (heq ▸ hk')
    rw [get?_erase, if_neg hne, hk']
  refine ⟨hkept [] h.root, fun dir' name' e' he' => ?_⟩
  rw [get?_erase] at he'
  split at he'
  · cases he'
  · obtain ⟨hdir', hname'⟩ := h.parent dir' name' e' he'
    exact ⟨hkept _ hdir', hname'⟩

/-- The directory above a directory is there. -/
theorem Sound.dropLast (h : t.Sound) (hdir : t.get? dir = some .directory) :
    t.get? dir.dropLast = some .directory := by
  rcases List.eq_nil_or_concat dir with rfl | ⟨above, n, rfl⟩
  · exact hdir
  · rw [List.concat_eq_append] at hdir ⊢
    rw [List.dropLast_concat]
    exact (h.parent above n _ hdir).1

/-- A path that leads to a file ends in a name, which stands in a directory. -/
theorem Sound.site_of_file (h : t.Sound) {p : Path} {k : Key} {bytes : List UInt8}
    (hpieces : p.pieces ≠ []) (hk : t.locate p = .ok k) (hfile : t.get? k = some (.file bytes)) :
    p.endsWithSeparator = false ∧ ∃ dir name, t.Site p dir name := by
  obtain ⟨-, hfollow⟩ := locate_eq_ok_iff.mp hk
  -- the last step is taken from a directory, and leads to the file
  have hlast : ∀ front last, p.steps = front ++ [last] →
      isStay last = false ∧ last ≠ upStep := by
    intro front last hsteps
    rw [hsteps] at hfollow
    obtain ⟨left, stop, hway⟩ := way_of_follow hfollow (Or.inl (List.cons_ne_nil _ _))
    rw [hway.follow_append (List.cons_ne_nil _ _) fun hno => Bool.false_ne_true hno.1] at hfollow
    refine ⟨Bool.eq_false_iff.mpr fun hstay => ?_, fun hup => ?_⟩
    · rw [follow_stay hway.directory hstay, follow_nil] at hfollow
      cases hfollow
      exact nomatch hfile.symm.trans hway.directory
    · rw [hup, follow_up hway.directory, follow_nil] at hfollow
      cases hfollow
      exact nomatch hfile.symm.trans (h.dropLast hway.directory)
  have hsep : p.endsWithSeparator = false := by
    refine Bool.eq_false_iff.mpr fun hsep => ?_
    have hsteps : p.steps = p.pieces ++ [[]] := by
      unfold steps
      rw [if_pos hsep]
    exact nomatch (hlast _ _ hsteps).1
  obtain ⟨front, last, hlasteq⟩ := (List.eq_nil_or_concat p.pieces).resolve_left hpieces
  rw [List.concat_eq_append] at hlasteq
  have hsteps : p.steps = front ++ [last] := by
    unfold steps
    rw [hsep, hlasteq]
    exact List.append_nil _
  obtain ⟨hstay, hup⟩ := hlast front last hsteps
  obtain ⟨dir, hsite⟩ := site_of_locate hk hsep (by rw [hlasteq, List.getLast?_concat]) hstay hup
  exact ⟨hsep, dir, last, hsite⟩

/-! ## Changes -/

/-- From `t` to `u`, directories were made where nothing was, and beyond that only the touched keys
changed. They held no directory, and no link that leads to one, and hold no link now. -/
structure Evolves (t u : FileTree) (touched : Key → Prop) : Prop where
  here : u.here = t.here
  elsewhere : ∀ k, ¬ touched k →
    u.get? k = t.get? k ∨ t.get? k = none ∧ u.get? k = some .directory
  noDirectory : ∀ k, touched k → t.get? k ≠ some .directory
  leadsNowhere : ∀ k, touched k → t.LeadsNowhere k
  noLink : ∀ k target, touched k → u.get? k ≠ some (.link target)
  sound : t.Sound → u.Sound

theorem Evolves.refl (t : FileTree) : Evolves t t fun _ => False :=
  ⟨rfl, fun _ _ => Or.inl rfl, fun _ h => h.elim, fun _ h => h.elim, fun _ _ h => h.elim, id⟩

variable {touched touched' : Key → Prop}

/-- What was there and was not touched is there. -/
theorem Evolves.get?_eq (h : Evolves t u touched) {k : Key} {e : Entry} (hk : ¬ touched k)
    (he : t.get? k = some e) : u.get? k = some e := by
  rcases h.elsewhere k hk with hsame | ⟨hnone, -⟩
  · rw [hsame, he]
  · rw [hnone] at he
    cases he

/-- What is not there now was not there before, unless it was touched. -/
theorem Evolves.touched_or_none (h : Evolves t u touched) {k : Key} (hk : u.get? k = none) :
    touched k ∨ t.get? k = none := by
  by_cases ht : touched k
  · exact Or.inl ht
  · cases he : t.get? k with
    | none => exact Or.inr rfl
    | some e => exact nomatch hk.symm.trans (h.get?_eq ht he)

theorem Evolves.directory (h : Evolves t u touched) {k : Key}
    (hk : t.get? k = some .directory) : u.get? k = some .directory :=
  h.get?_eq (fun ht => h.noDirectory k ht hk) hk

/-- No link is made. -/
theorem Evolves.link_of (h : Evolves t u touched) {k : Key} {target : Path}
    (hk : u.get? k = some (.link target)) : t.get? k = some (.link target) := by
  by_cases ht : touched k
  · exact absurd hk (h.noLink k target ht)
  · rcases h.elsewhere k ht with hsame | ⟨-, hdir⟩
    · rw [← hsame, hk]
    · rw [hk] at hdir
      cases hdir

/-- A change breaks no way. -/
theorem Evolves.way (h : Evolves t u touched) {left links : Nat} {stop : Key} {steps : List Text}
    (hway : t.Way left stop links dir steps) : u.Way left stop links dir steps := by
  refine hway.of_kept (fun k => h.directory) fun k target hlink => ?_
  by_cases hk : touched k
  · exact Or.inr (h.leadsNowhere k hk)
  · exact Or.inl (h.get?_eq hk hlink)

theorem Evolves.site (h : Evolves t u touched) {p : Path} (hs : t.Site p dir name) :
    u.Site p dir name := by
  obtain ⟨left, hway⟩ := hs.way
  refine ⟨hs.valid, hs.last, hs.stay, hs.up, left, ?_⟩
  unfold startFrom
  rw [h.here]
  exact h.way hway

theorem Evolves.isDirectory (h : Evolves t u touched) {p : Path} (hp : t.isDirectory p = true) :
    u.isDirectory p = true := by
  obtain ⟨hvalid, left, stop, hway⟩ := isDirectory_iff.mp hp
  refine isDirectory_iff.mpr ⟨hvalid, left, stop, ?_⟩
  unfold startFrom
  rw [h.here]
  exact h.way hway

/-- A path leads to the file that it led to, if that was not touched, nor a link. -/
theorem Evolves.locate_file (h : Evolves t u touched)
    (hlinks : ∀ k target, touched k → t.get? k ≠ some (.link target)) {p : Path} {k : Key}
    {bytes : List UInt8} (hk : ¬ touched k) (hp : t.locate p = .ok k)
    (hfile : t.get? k = some (.file bytes)) :
    u.locate p = .ok k ∧ u.get? k = some (.file bytes) := by
  have hfile' := h.get?_eq hk hfile
  refine ⟨locate_file_of_kept h.here (fun x => h.directory) (fun x target hx => ?_) hfile' hp, hfile'⟩
  exact h.get?_eq (fun ht => hlinks x target ht hx) hx

/-- A row of changes is a change. -/
theorem Evolves.trans (h : Evolves t u touched) (h' : Evolves u v touched') :
    Evolves t v fun k => touched k ∨ touched' k where
  here := h'.here.trans h.here
  elsewhere k hk := by
    obtain ⟨h₁, h₂⟩ := not_or.mp hk
    rcases h.elsewhere k h₁ with hu | ⟨hnone, hdir⟩
    · rcases h'.elsewhere k h₂ with hv | ⟨hnone, hdir⟩
      · exact Or.inl (hv.trans hu)
      · exact Or.inr ⟨hu ▸ hnone, hdir⟩
    · exact Or.inr ⟨hnone, h'.directory hdir⟩
  noDirectory k hk hdir := by
    rcases hk with hk | hk
    · exact h.noDirectory k hk hdir
    · exact h'.noDirectory k hk (h.directory hdir)
  leadsNowhere k hk := by
    by_cases ht : touched k
    · exact h.leadsNowhere k ht
    · intro target hlink links left stop hway
      exact h'.leadsNowhere k (hk.resolve_left ht) target (h.get?_eq ht hlink) links left stop
        (h.way hway)
  noLink k target hk hlink := by
    by_cases ht : touched' k
    · exact h'.noLink k target ht hlink
    · exact h.noLink k target (hk.resolve_right ht) (h'.link_of hlink)
  sound hs := h'.sound (h.sound hs)

theorem Evolves.congr (h : Evolves t u touched) (hiff : ∀ k, touched k ↔ touched' k) :
    Evolves t u touched' :=
  (funext fun k => propext (hiff k) : touched = touched') ▸ h

/-- A file is laid where no directory is, and no link that leads to one. -/
theorem evolves_put_file (hdir : t.get? dir = some .directory) (hname : IsEntryName name)
    (hk : t.get? (dir ++ [name]) ≠ some .directory) (hlink : t.LeadsNowhere (dir ++ [name]))
    (bytes : List UInt8) :
    Evolves t (t.put (dir ++ [name]) (.file bytes)) (· = dir ++ [name]) where
  here := rfl
  elsewhere k h := Or.inl (by rw [get?_put, if_neg h])
  noDirectory k h := h ▸ hk
  leadsNowhere k h := h ▸ hlink
  noLink k target h := by rw [get?_put, if_pos h]; exact nofun
  sound hs := hs.put hdir hname fun h => absurd h hk

theorem evolves_erase {k : Key} (hk : t.get? k ≠ some .directory) (hlink : t.LeadsNowhere k) :
    Evolves t (t.erase k) (· = k) where
  here := rfl
  elsewhere k' h := Or.inl (by rw [get?_erase, if_neg h])
  noDirectory k' h := h ▸ hk
  leadsNowhere k' h := h ▸ hlink
  noLink k' target h := by rw [get?_erase, if_pos h]; exact nofun
  sound hs := hs.erase hk

theorem evolves_put_directory (hdir : t.get? dir = some .directory) (hname : IsEntryName name)
    (hk : t.get? (dir ++ [name]) = none) :
    Evolves t (t.put (dir ++ [name]) .directory) fun _ => False where
  here := rfl
  elsewhere k _ := by
    rw [get?_put]
    split
    · next h => exact Or.inr ⟨h ▸ hk, rfl⟩
    · exact Or.inl rfl
  noDirectory _ h := h.elim
  leadsNowhere _ h := h.elim
  noLink _ _ h := h.elim
  sound hs := hs.put hdir hname fun _ => rfl

end FirmwareIds.FileTree
