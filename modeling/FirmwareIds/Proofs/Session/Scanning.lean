import FirmwareIds.Session.Run
import FirmwareIds.Proofs.FileTree.Saving
import FirmwareIds.Proofs.FileTree.Walk

/-!
# What a scan takes in

A scan is a row of steps, one for each thing that the walks of the roots find, and what each of them
keeps holds after the scan (`scanned_induction`). It adds resource files, references and issues to a
session and changes nothing else (`Gathers`). Each file that it adds is as it was read, is not the list
of codes, and stands in the tree where its path says (`IsResource`).
-/

namespace FirmwareIds

open FileTree

namespace Session

variable {t : FileTree} {o : Options} {s s' s₀ : Session}

/-! ## The parts of a run -/

theorem scan_eq_ok_iff {root : Path} {excluded : List Path} : s.scan t root excluded = .ok s' ↔
    ∃ found, t.walk root excluded = .ok found ∧ found.foldl (visit t root) s = s' := by
  unfold scan
  exact map_eq_ok_iff

theorem scanAll_cons (t : FileTree) (excluded : List Path) (s : Session) (root : Path)
    (roots : List Path) : s.scanAll t excluded (root :: roots) =
      match s.scan t root excluded with
      | .error e => .error e
      | .ok s => s.scanAll t excluded roots := by
  unfold scanAll
  rw [List.foldlM_cons]
  cases s.scan t root excluded with
  | error e => rfl
  | ok s => rfl

theorem scanAll_cons_eq_ok_iff {root : Path} {excluded roots : List Path} :
    scanAll t excluded s (root :: roots) = .ok s' ↔
      ∃ s₁, s.scan t root excluded = .ok s₁ ∧ scanAll t excluded s₁ roots = .ok s' := by
  unfold scanAll
  rw [List.foldlM_cons, bind_eq_ok_iff]

theorem scanned_eq_ok_iff : scanned t o = .ok s ↔ o.roots ≠ [] ∧
    ∃ excluded, o.exclusions = .ok excluded ∧ scanAll t excluded (start t o) o.roots = .ok s := by
  unfold scanned
  cases o.roots with
  | nil => simp [bind_eq_ok_iff, throw, throwThe, MonadExceptOf.throw]
  | cons root roots => simp [bind_eq_ok_iff]

/-- The parts of a run: a scan, and what is made of it and written. -/
theorem runEach_eq_ok_iff {savings : Nat → Saving} {u : FileTree} {r : Report} :
    runEach savings t o = .ok (u, r) ↔ ∃ s s' : Session, scanned t o = .ok s ∧
      (s.settle o).flushEach savings t = (u, s') ∧ s'.report = r := by
  unfold runEach
  rw [bind_eq_ok_iff]
  constructor
  · rintro ⟨s, hs, h⟩
    cases h
    exact ⟨s, _, hs, rfl, rfl⟩
  · rintro ⟨s, s', hs, hflush, rfl⟩
    refine ⟨s, hs, ?_⟩
    rw [hflush]
    rfl

/-- What holds of a session at its start and is kept by all that a walk finds holds after the scan. -/
theorem scanned_induction {P : Session → Prop} (hstart : P (start t o))
    (hvisit : ∀ {s : Session} {root : Path} {excluded : List Path} {found : List Found} (x : Found),
      t.walk root excluded = .ok found → x ∈ found → P s → P (s.visit t root x))
    (h : scanned t o = .ok s) : P s := by
  obtain ⟨-, excluded, -, hall⟩ := scanned_eq_ok_iff.mp h
  -- root by root, from any session of which `P` holds
  generalize start t o = a at hstart hall
  generalize o.roots = roots at hall
  induction roots generalizing a with
  | nil =>
    obtain rfl := Except.ok.inj hall
    exact hstart
  | cons root roots ih =>
    obtain ⟨b, hscan, hall⟩ := scanAll_cons_eq_ok_iff.mp hall
    refine ih b ?_ hall
    obtain ⟨found, hwalk, rfl⟩ := scan_eq_ok_iff.mp hscan
    exact List.foldlRecOn found _ hstart fun c hc x hx => hvisit x hwalk hx hc

/-! ## What is gathered -/

/-- A resource file that a scan reads beside the list of codes. -/
structure IsResource (t : FileTree) (s : Session) (f : OpenFile) : Prop where
  clean : f.dirty = false
  other : s.leadsToTarget t f.path = false
  kind : FileKind.ofPath? f.path = some .resource
  load : t.loadText f.path = .ok f.content
  found : ∃ dir name, t.FoundAt f.path dir name

theorem loadText_eq_ok_iff {p : Path} {content : TextContent} : t.loadText p = .ok content ↔
    ∃ bytes, t.readFile p = .ok bytes ∧ TextContent.decode? bytes = some content := by
  unfold loadText
  cases t.readFile p with
  | error fault => simp
  | ok bytes =>
    dsimp only
    cases hdecode : TextContent.decode? bytes with
    | none => simp [hdecode]
    | some text => simp [hdecode]

/-- Where a resource file stands, and under what name. -/
structure StandsAt (t : FileTree) (f : OpenFile) (dir : Key) (name : Text) : Prop where
  site : t.Site f.path dir name
  named : IsEntryName name
  separator : f.path.endsWithSeparator = false
  file : ∃ bytes, t.get? (dir ++ [name]) = some (.file bytes) ∧
    TextContent.decode? bytes = some f.content
  resource : ".uni".toList <:+ name

theorem IsResource.standsAt {f : OpenFile} (h : IsResource t s f) :
    ∃ dir name, StandsAt t f dir name := by
  obtain ⟨dir, name, hfound⟩ := h.found
  obtain ⟨bytes, hread, hdecode⟩ := loadText_eq_ok_iff.mp h.load
  obtain ⟨hsite, hfile⟩ := hfound.eq_of_readFile hread
  obtain ⟨-, -, hname, -⟩ := hsite.parent
  refine ⟨dir, name, hsite, hfound.named, hfound.separator, ⟨bytes, hfile, hdecode⟩, ?_⟩
  have hkind := h.kind
  unfold FileKind.ofPath? at hkind
  rw [hname, Option.bind_some] at hkind
  unfold FileKind.ofName? at hkind
  split at hkind
  · next hsuffix => exact List.isSuffixOf_iff_suffix.mp hsuffix
  · split at hkind <;> cases hkind

theorem StandsAt.locate_eq {f : OpenFile} {dir : Key} {name : Text} (h : StandsAt t f dir name) :
    t.locate f.path = .ok (dir ++ [name]) := by
  obtain ⟨bytes, hfile, -⟩ := h.file
  exact h.site.locate_eq h.separator h.named.2.2.2.2 hfile nofun

/-- Files at one key have one content. -/
theorem IsResource.content_eq {f g : OpenFile} (hf : IsResource t s f) (hg : IsResource t s g)
    (hkey : t.siteKey? f.path = t.siteKey? g.path) : f.content = g.content := by
  obtain ⟨dir, name, hstands⟩ := hf.standsAt
  obtain ⟨dir', name', hstands'⟩ := hg.standsAt
  obtain ⟨bytes, hfile, hdecode⟩ := hstands.file
  obtain ⟨bytes', hfile', hdecode'⟩ := hstands'.file
  rw [hstands.site.siteKey?_eq, hstands'.site.siteKey?_eq] at hkey
  rw [Option.some.inj hkey, hfile'] at hfile
  cases hfile
  exact Option.some.inj (hdecode.symm.trans hdecode')

/-- What a scan does to a session. -/
structure Gathers (t : FileTree) (s₀ s : Session) : Prop where
  strictness : s.strictness = s₀.strictness
  target : s.target = s₀.target
  targetKey : s.targetKey? = s₀.targetKey?
  mayWrite : s.mayWrite = s₀.mayWrite
  moved : s.report.movedDefinitions = s₀.report.movedDefinitions
  resources : ∀ f ∈ s.resources, f ∈ s₀.resources ∨ IsResource t s₀ f

theorem Gathers.refl (t : FileTree) (s : Session) : Gathers t s s :=
  ⟨rfl, rfl, rfl, rfl, rfl, fun _ => Or.inl⟩

theorem Gathers.leadsToTarget (h : Gathers t s₀ s) (p : Path) :
    s.leadsToTarget t p = s₀.leadsToTarget t p := by
  unfold Session.leadsToTarget
  rw [h.targetKey, h.target]

theorem Gathers.trans (h : Gathers t s₀ s) (h' : Gathers t s s') : Gathers t s₀ s' where
  strictness := h'.strictness.trans h.strictness
  target := h'.target.trans h.target
  targetKey := h'.targetKey.trans h.targetKey
  mayWrite := h'.mayWrite.trans h.mayWrite
  moved := h'.moved.trans h.moved
  resources f hf := by
    rcases h'.resources f hf with hf | hf
    · exact h.resources f hf
    · exact Or.inr ⟨hf.clean, h.leadsToTarget f.path ▸ hf.other, hf.kind, hf.load, hf.found⟩

theorem gathers_addIssues (s : Session) (issues : List Issue) : Gathers t s (s.addIssues issues) :=
  ⟨rfl, rfl, rfl, rfl, rfl, fun _ => Or.inl⟩

theorem gathers_record (s : Session) (r : Reference) : Gathers t s (s.record r) := by
  unfold record
  split
  · exact ⟨rfl, rfl, rfl, rfl, rfl, fun _ => Or.inl⟩
  · exact gathers_addIssues s _

theorem gathers_foldl {α : Type} {step : Session → α → Session} {l : List α}
    (h : ∀ s, ∀ a ∈ l, Gathers t s (step s a)) (s : Session) : Gathers t s (l.foldl step s) := by
  induction l generalizing s with
  | nil => exact .refl t s
  | cons a l ih =>
    exact (h s a (List.mem_cons_self ..)).trans
      (ih (fun s b hb => h s b (List.mem_cons_of_mem _ hb)) _)

theorem gathers_takeForm (s : Session) (p : Path) : Gathers t s (s.takeForm t p) := by
  unfold takeForm
  split
  · refine Gathers.trans ?_ (gathers_foldl (fun s r _ => gathers_record s r) _)
    exact ⟨rfl, rfl, rfl, rfl, rfl, fun _ => Or.inl⟩
  · exact gathers_addIssues s _

theorem gathers_takeResource {p : Path} (hkind : FileKind.ofPath? p = some .resource)
    (hfound : ∃ dir name, t.FoundAt p dir name) (s : Session) :
    Gathers t s (s.takeResource t p) := by
  unfold takeResource
  split
  · exact .refl t s
  · next hother =>
    split
    · next content hload =>
      refine ⟨rfl, rfl, rfl, rfl, rfl, fun f hf => ?_⟩
      rcases List.mem_append.mp hf with hf | hf
      · exact Or.inl hf
      · obtain rfl := List.mem_singleton.mp hf
        exact Or.inr ⟨rfl, Bool.eq_false_iff.mpr hother, hkind, hload, hfound⟩
    · exact gathers_addIssues s _

theorem gathers_visit (hs : t.Sound) {root : Path} {excluded : List Path} {found : List Found}
    {x : Found} (hwalk : t.walk root excluded = .ok found) (hx : x ∈ found) (s : Session) :
    Gathers t s (s.visit t root x) := by
  unfold visit
  split
  · exact gathers_addIssues s _
  · next p =>
    split
    · next hkind => exact gathers_takeResource hkind (foundAt_of_mem_walk hs hwalk hx) s
    · exact gathers_takeForm s p
    · exact .refl t s

theorem gathers_scanned (hs : t.Sound) (h : scanned t o = .ok s) : Gathers t (start t o) s :=
  scanned_induction (.refl t _)
    (fun _ hwalk hx hgathers => hgathers.trans (gathers_visit hs hwalk hx _)) h

/-! ## Sessions at their start -/

/-- How a session starts: with the list of codes as it was read, without one if there is none, or
with one that must not be written if it cannot be read. -/
theorem start_cases (t : FileTree) (o : Options) :
    (∃ k content, t.locate (o.target t) = .ok k ∧ t.loadText (o.target t) = .ok content ∧
        (start t o).target = ⟨o.target t, content, false⟩ ∧ (start t o).mayWrite = true) ∨
      (∃ fault, t.locate (o.target t) = .error fault) ∧
        (start t o).target = ⟨o.target t, {}, false⟩ ∧ (start t o).mayWrite = true ∨
      (∃ e, t.loadText (o.target t) = .error e) ∧
        (start t o).target = ⟨o.target t, {}, false⟩ ∧ (start t o).mayWrite = false := by
  unfold start
  dsimp only
  cases hk : t.locate (o.target t) with
  | error fault => exact Or.inr (Or.inl ⟨⟨fault, rfl⟩, rfl, rfl⟩)
  | ok k =>
    cases hload : t.loadText (o.target t) with
    | error e => exact Or.inr (Or.inr ⟨⟨e, rfl⟩, rfl, rfl⟩)
    | ok content => exact Or.inl ⟨k, content, rfl, rfl, rfl, rfl⟩

theorem start_targetKey (t : FileTree) (o : Options) :
    (start t o).targetKey? = (t.locate (o.target t)).toOption := by
  unfold start
  dsimp only
  split <;> rfl

/-- A resource file is not where the list of codes was. -/
theorem IsResource.locate_ne {f : OpenFile} {k : Key} (h : IsResource t (start t o) f)
    (hk : t.locate (o.target t) = .ok k) : t.locate f.path ≠ .ok k := by
  intro hf
  have hother := h.other
  unfold leadsToTarget at hother
  rw [start_targetKey, hk, hf] at hother
  simp [Except.toOption] at hother

theorem IsResource.siteKey?_ne {f : OpenFile} {k : Key} (h : IsResource t (start t o) f)
    (hk : t.locate (o.target t) = .ok k) : t.siteKey? f.path ≠ some k := by
  obtain ⟨dir, name, hstands⟩ := h.standsAt
  rw [hstands.site.siteKey?_eq]
  exact fun heq => h.locate_ne hk (Option.some.inj heq ▸ hstands.locate_eq)

/-- The path of the list of codes does not end where a resource file stands. -/
theorem IsResource.siteKey?_target_ne {f : OpenFile} {dir : Key} {name : Text}
    (h : IsResource t (start t o) f) (hstands : StandsAt t f dir name)
    (hsep : (o.target t).endsWithSeparator = false) :
    t.siteKey? (o.target t) ≠ some (dir ++ [name]) := by
  intro hkey
  obtain ⟨dir', name', htarget, heq⟩ := siteKey?_eq_some_iff.mp hkey
  obtain ⟨bytes, hfile, -⟩ := hstands.file
  obtain ⟨rfl, hname⟩ := List.append_inj' heq rfl
  obtain rfl := List.singleton_inj.mp hname
  -- it would lead to the list of codes
  exact h.locate_ne (htarget.locate_eq hsep hstands.named.2.2.2.2 hfile nofun) hstands.locate_eq

theorem start_resources (t : FileTree) (o : Options) : (start t o).resources = [] := by
  unfold start
  dsimp only
  split <;> rfl

theorem start_references (t : FileTree) (o : Options) : (start t o).references = [] := by
  unfold start
  dsimp only
  split <;> rfl

/-- All resource files of a session were read by its walks. -/
theorem isResource_of_scanned {f : OpenFile} (hs : t.Sound) (h : scanned t o = .ok s)
    (hf : f ∈ s.resources) : IsResource t (start t o) f := by
  rcases (gathers_scanned hs h).resources f hf with hf | hf
  · rw [start_resources] at hf
    cases hf
  · exact hf

end Session

end FirmwareIds
