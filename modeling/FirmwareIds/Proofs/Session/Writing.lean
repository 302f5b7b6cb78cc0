import FirmwareIds.Proofs.Session.Settling

/-!
# Saving resource files

Each save of a run may fail (`Saving.Attempts`). The resource files that a scan has found stand where they
can be saved, also when others have been saved before (`Ready.savable`). One save changes the file if it
succeeds, and beyond that at most the place of its temporary file (`Ready.save`).
-/

namespace FirmwareIds

open FileTree

/-- A save is made as it should be, or fails; what a failed one leaves behind is at the place of the
temporary file, apart from directories. -/
def Saving.Attempts (mark : Text) (saving : Saving) : Prop :=
  ∀ t p content, saving t p content = t.replaceText mark p content ∨
    ∃ u error, saving t p content = (u, some error) ∧ FailedAt t u mark p

theorem attempts_replaceText (mark : Text) :
    Saving.Attempts mark fun t p content => t.replaceText mark p content :=
  fun _ _ _ => Or.inl rfl

variable {t u x y : FileTree} {mark : Text} {saving : Saving} {p : Path} {content : TextContent}

theorem Saving.Attempts.saved (h : saving.Attempts mark) (hs : t.Sound) (hp : t.Savable mark p)
    (hu : saving t p content = (u, none)) : ∃ place, SavedAt t u mark p content.encode place := by
  rcases h t p content with heq | ⟨v, error, heq, -⟩
  · exact replaceText_saved hs hp (heq ▸ hu)
  · rw [heq] at hu
    cases hu

theorem Saving.Attempts.failed (h : saving.Attempts mark) (hs : t.Sound) (hp : t.Savable mark p)
    {error : Error} (hu : saving t p content = (u, some error)) : FailedAt t u mark p := by
  rcases h t p content with heq | ⟨v, error, heq, hfailed⟩
  · exact replaceText_failed hs hp (heq ▸ hu)
  · rw [heq] at hu
    obtain rfl : v = u := (Prod.ext_iff.mp hu).1
    exact hfailed

namespace Session

/-- The resource files `fs` stand in the tree `t`, and no link at the place of a temporary file for
one of them. -/
structure Ready (t : FileTree) (mark : Text) (fs : List OpenFile) : Prop where
  sound : t.Sound
  slash : '/' ∉ mark
  stands : ∀ f ∈ fs, ∃ dir name, StandsAt t f dir name
  temporary : ∀ f ∈ fs, ∀ k target, t.temporaryKey? mark f.path = some k →
    t.get? k ≠ some (.link target)

variable {fs : List OpenFile} {touched : Key → Prop}

/-- A resource file can still be saved when others were. -/
theorem Ready.savable (h : Ready t mark fs) (hx : Evolves t x touched) {f : OpenFile}
    (hf : f ∈ fs) : x.Savable mark f.path := by
  obtain ⟨dir, name, hstands⟩ := h.stands f hf
  have hsite := hx.site hstands.site
  refine ⟨h.slash, fun k target hk hlink => ?_, fun dir' name' hsite' _ _ => ?_, fun _ => ?_⟩
  · obtain ⟨hk, -⟩ := hstands.site.temporaryKey?_eq h.slash hx hk
    exact h.temporary f hf k target hk (hx.link_of hlink)
  · obtain ⟨rfl, rfl⟩ := hsite.unique hsite'
    obtain ⟨bytes, hfile, -⟩ := hstands.file
    exact leadsNowhere_of_not_link fun target hlink => nomatch hfile.symm.trans (hx.link_of hlink)
  · rw [hsite.siteKey?_eq]
    rfl

/-- A save of a resource file that succeeds puts its text where the file stands. -/
theorem Ready.saved (h : Ready t mark fs) (hx : Evolves t x touched)
    (hsaving : saving.Attempts mark) {f : OpenFile} (hf : f ∈ fs) {dir : Key} {name : Text}
    (hsite : t.Site f.path dir name) (hy : saving x f.path content = (y, none)) :
    SavedAt x y mark f.path content.encode (dir ++ [name]) := by
  obtain ⟨place, hsaved⟩ := hsaving.saved (hx.sound h.sound) (h.savable hx hf) hy
  obtain ⟨temporary, hxy, -⟩ := hsaved.evolves
  obtain ⟨dir', name', rfl, hsite', -⟩ := hsaved.site
  obtain ⟨rfl, rfl⟩ := ((hx.trans hxy).site hsite).unique hsite'
  exact hsaved

/-- One save of a resource file changes the file if it succeeds, and beyond that at most the place of
its temporary file. -/
theorem Ready.save (h : Ready t mark fs) (hx : Evolves t x touched)
    (hsaving : saving.Attempts mark) {f : OpenFile} (hf : f ∈ fs) {e? : Option Error}
    (hy : saving x f.path content = (y, e?)) :
    ∃ touched', Evolves x y touched' ∧
      (∀ k, touched' k → e? = none ∧ t.siteKey? f.path = some k ∨
        t.temporaryKey? mark f.path = some k ∨ x.get? k = none) ∧
      (e? = none → ∀ k, t.siteKey? f.path = some k → y.get? k = some (.file content.encode)) := by
  obtain ⟨dir, name, hstands⟩ := h.stands f hf
  have hkey := hstands.site.siteKey?_eq
  have htemporary : ∀ k, x.temporaryKey? mark f.path = some k ∨ x.get? k = none →
      t.temporaryKey? mark f.path = some k ∨ x.get? k = none := fun k =>
    Or.imp_left fun hk => (hstands.site.temporaryKey?_eq h.slash hx hk).1
  cases e? with
  | none =>
    have hsaved := h.saved hx hsaving hf hstands.site hy
    obtain ⟨temporary, hxy, -, -, htemp, -⟩ := hsaved.evolves
    refine ⟨_, hxy, fun k hk => ?_, fun _ k hk => ?_⟩
    · rcases hk with rfl | rfl
      · exact Or.inl ⟨rfl, hkey⟩
      · exact Or.inr (htemporary _ htemp)
    · rw [← Option.some.inj (hkey.symm.trans hk)]
      exact hsaved.file
  | some error =>
    obtain ⟨touched', hxy, htouched'⟩ :=
      hsaving.failed (hx.sound h.sound) (h.savable hx hf) hy
    exact ⟨touched', hxy, fun k hk => Or.inr (htemporary k (htouched' k hk)), nofun⟩

/-- A row of saves begins with the first one, and goes on from what that leaves. -/
theorem foldl_save_cons {savings : Nat → Saving} {g : OpenFile} {n : Nat} {e? : Option Error}
    (hy : savings n x g.path g.content = (y, e?)) (changed : List OpenFile) (s : Session) :
    ((g :: changed).zipIdx n).foldl (fun (t, s) (f, i) => s.save (savings i) t f) (x, s) =
      (changed.zipIdx (n + 1)).foldl (fun (t, s) (f, i) => s.save (savings i) t f)
        (y, s.saved g.path e?) := by
  rw [List.zipIdx_cons, List.foldl_cons]
  show (changed.zipIdx (n + 1)).foldl _ (s.save (savings n) x g) = _
  unfold Session.save
  rw [hy]

end Session

end FirmwareIds
