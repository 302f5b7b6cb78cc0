import FirmwareIds.Command.Request
import FirmwareIds.Proofs.Success
import FirmwareIds.Proofs.Text.Encoding

/-!
# Flags, positions and settings

The options of a run come from three places: flags, positions and a settings file. What the first
two give and what the third one says are merged setting by setting (`merged`), and the options are
made of that and of nothing else the settings say (`optionsUnder_eq_resolve`). So every law about
two requests is a law about what they are merged to.

Main statement:

* `forms_agree`: a root, an output and excluded directories by position are the same as by flags;
  settings that the command line gives do not matter, and those that it leaves out are taken from
  the settings file, the roots and the output in its directory.
-/

namespace FirmwareIds.Command

namespace Defaults

/-- The settings that a file holds, with their paths as they are written there. -/
def Holds (t : FileTree) (p : Path) (d : Defaults) : Prop :=
  ∃ bytes s, t.readFile p = .ok bytes ∧ Utf8.decode? bytes = some s ∧ parse? s = some d

/-- The directory of a settings file. -/
def directory (p : Path) : Path := p.parent?.getD ⟨[]⟩

/-- A settings file that holds settings can be loaded, and gives them as seen from its directory. -/
theorem load_eq_ok_iff {t : FileTree} {p : Path} {e : Defaults} :
    load t p = .ok e ↔ ∃ d, Holds t p d ∧ d.relativeTo (directory p) = e := by
  unfold load Holds directory
  constructor
  · intro h
    split at h
    · cases h
    · rename_i bytes hread
      split at h
      · cases h
      · rename_i s htext
        split at h
        · cases h
        · rename_i d hparse
          cases h
          exact ⟨d, ⟨bytes, s, hread, htext, hparse⟩, rfl⟩
  · rintro ⟨d, ⟨bytes, s, hread, htext, hparse⟩, rfl⟩
    simp only [hread, htext, hparse]

theorem Holds.load_eq {t : FileTree} {p : Path} {d : Defaults} (h : Holds t p d) :
    load t p = .ok (d.relativeTo (directory p)) :=
  load_eq_ok_iff.mpr ⟨d, h, rfl⟩

end Defaults

namespace Request

/-! ### What the command line gives -/

/-- The command line gives a root. -/
def GivesRoot (r : Request) : Prop := r.roots ≠ [] ∨ 0 < r.positions.length

/-- The command line gives the output. -/
def GivesOutput (r : Request) : Prop := r.output ≠ none ∨ 1 < r.positions.length

/-- The command line gives an excluded directory. -/
def GivesExclusion (r : Request) : Prop := r.excluded ≠ [] ∨ 2 < r.positions.length

/-- The command line gives the output both by flag and by position. -/
def GivesOutputTwice (r : Request) : Prop := r.output ≠ none ∧ 1 < r.positions.length

instance (r : Request) : Decidable r.GivesRoot := inferInstanceAs (Decidable (_ ∨ _))
instance (r : Request) : Decidable r.GivesOutput := inferInstanceAs (Decidable (_ ∨ _))
instance (r : Request) : Decidable r.GivesExclusion := inferInstanceAs (Decidable (_ ∨ _))
instance (r : Request) : Decidable r.GivesOutputTwice := inferInstanceAs (Decidable (_ ∧ _))

theorem orIfEmpty_of_ne {given : List Path} (settings : List Path) (h : given ≠ []) :
    orIfEmpty given settings = given := by
  rw [orIfEmpty, if_neg (by rwa [List.isEmpty_iff])]

@[simp] theorem orIfEmpty_nil (settings : List Path) : orIfEmpty [] settings = settings := rfl

@[simp] theorem orIfEmpty_nil_right (given : List Path) : orIfEmpty given [] = given := by
  cases given <;> rfl

theorem not_givesRoot_iff {r : Request} :
    ¬ r.GivesRoot ↔ r.roots ++ r.positions.take 1 = [] := by
  rw [GivesRoot, List.append_eq_nil_iff, List.take_eq_nil_iff, List.length_pos_iff]
  simp

theorem not_givesOutput_iff {r : Request} :
    ¬ r.GivesOutput ↔ r.output.or r.positions[1]? = none := by
  rw [GivesOutput, Option.or_eq_none_iff, List.getElem?_eq_none_iff]
  simp

theorem not_givesExclusion_iff {r : Request} :
    ¬ r.GivesExclusion ↔ r.excluded ++ r.positions.drop 2 = [] := by
  rw [GivesExclusion, List.append_eq_nil_iff, List.drop_eq_nil_iff]
  simp

/-! ### Merging -/

/-- What the command line and the settings say together. -/
def merged (r : Request) (d : Defaults) : Defaults where
  roots := orIfEmpty (r.roots ++ r.positions.take 1) d.roots
  output := (r.output.or r.positions[1]?).or d.output
  excluded := orIfEmpty (r.excluded ++ r.positions.drop 2) d.excluded
  strictness := r.strictness.or d.strictness
  lead := r.lead.or d.lead

/-- The options that come of merged settings. -/
def resolve (r : Request) (m : Defaults) : Except Problem Options :=
  if r.GivesOutputTwice then .error .outputTwice
  else if m.roots = [] then .error .noRoot
  else match m.output with
    | none => .error .noOutput
    | some output =>
      .ok {
        output
        roots := m.roots
        excluded := m.excluded
        update := r.update
        strip := r.strip
        strictness := m.strictness.getD .off
        lead := m.lead }

/-- Nothing of the settings but the merged ones makes the options. -/
theorem optionsUnder_eq_resolve (r : Request) (d : Defaults) :
    r.optionsUnder d = r.resolve (r.merged d) := by
  have htwice : (r.output.isSome && r.positions[1]?.isSome) = true ↔ r.GivesOutputTwice := by
    rw [Bool.and_eq_true, Option.isSome_iff_ne_none, Option.isSome_iff_ne_none, Ne, Ne,
      List.getElem?_eq_none_iff, Nat.not_le]
    rfl
  unfold optionsUnder resolve merged
  by_cases h : r.GivesOutputTwice
  · rw [if_pos h]
    simp only [if_pos (htwice.mpr h)]
    rfl
  · rw [if_neg h]
    simp only [if_neg (mt htwice.mp h), List.isEmpty_iff]
    by_cases hroots : orIfEmpty (r.roots ++ r.positions.take 1) d.roots = []
    · simp only [if_pos hroots]
      rfl
    · simp only [if_neg hroots]
      cases (r.output.or r.positions[1]?).or d.output <;> rfl

/-- A request with its settings in a file. -/
def withSettings (r : Request) (p : Path) : Request := { r with settings := some p }

/-- The options of a request whose settings file can be read. -/
theorem options_withSettings (r : Request) {t : FileTree} {p : Path} {d : Defaults}
    (h : Defaults.Holds t p d) :
    (r.withSettings p).options t = r.resolve (r.merged (d.relativeTo (Defaults.directory p))) := by
  have hload : (r.withSettings p).defaults t = .ok (d.relativeTo (Defaults.directory p)) :=
    h.load_eq
  rw [options, hload]
  exact optionsUnder_eq_resolve (r.withSettings p) _

/-! ### Positions as flags -/

/-- A request with a root, the output and excluded directories given by flags. -/
def byFlags (r : Request) (root output : Path) (excluded : List Path) : Request :=
  { r with
    roots := r.roots ++ [root]
    output := some output
    excluded := r.excluded ++ excluded
    positions := [] }

theorem options_byFlags {r : Request} (t : FileTree) {root output : Path} {excluded : List Path}
    (hout : r.output = none) (hpos : r.positions = root :: output :: excluded) :
    r.options t = (r.byFlags root output excluded).options t := by
  have hmerged : ∀ d, r.merged d = (r.byFlags root output excluded).merged d := by
    intro d
    simp [merged, byFlags, hout, hpos]
  have hresolve : ∀ m, r.resolve m = (r.byFlags root output excluded).resolve m := by
    intro m
    simp [resolve, byFlags, GivesOutputTwice, hout]
  have hunder : r.optionsUnder = (r.byFlags root output excluded).optionsUnder := by
    funext d
    rw [optionsUnder_eq_resolve, optionsUnder_eq_resolve, hmerged, hresolve]
  rw [options, options, hunder]
  rfl

/-! ### Settings that the command line gives, and settings that it leaves out -/

/-- Two settings agree on all that the command line leaves out. -/
structure AgreeOnRest (r : Request) (d e : Defaults) : Prop where
  roots : ¬ r.GivesRoot → d.roots = e.roots
  output : ¬ r.GivesOutput → d.output = e.output
  excluded : ¬ r.GivesExclusion → d.excluded = e.excluded
  strictness : r.strictness = none → d.strictness = e.strictness
  lead : r.lead = none → d.lead = e.lead

theorem orIfEmpty_congr {given s₁ s₂ : List Path} (h : given = [] → s₁ = s₂) :
    orIfEmpty given s₁ = orIfEmpty given s₂ := by
  cases given with
  | nil => exact h rfl
  | cons => rfl

theorem or_congr_right {α : Type} {given a b : Option α} (h : given = none → a = b) :
    given.or a = given.or b := by
  cases given with
  | none => exact h rfl
  | some => rfl

theorem AgreeOnRest.merged_eq {r : Request} {d e : Defaults} (h : AgreeOnRest r d e) :
    r.merged d = r.merged e := by
  rw [merged, merged, orIfEmpty_congr fun hnil => h.roots (not_givesRoot_iff.mpr hnil),
    or_congr_right fun hnone => h.output (not_givesOutput_iff.mpr hnone),
    orIfEmpty_congr fun hnil => h.excluded (not_givesExclusion_iff.mpr hnil),
    or_congr_right h.strictness, or_congr_right h.lead]

/-- A request without a settings file that gives, besides all it gave, what some settings say about
the rest. -/
def filledFrom (r : Request) (d : Defaults) : Request :=
  { r with
    roots := if r.GivesRoot then r.roots else d.roots
    output := if r.GivesOutput then r.output else d.output
    excluded := if r.GivesExclusion then r.excluded else d.excluded
    strictness := r.strictness.or d.strictness
    lead := r.lead.or d.lead
    settings := none }

/-- What takes the place of missing flags stands for all that is given when nothing else is. -/
theorem fill_append {given : Prop} [Decidable given] {flags placed settings : List Path}
    (h : ¬ given ↔ flags ++ placed = []) :
    (if given then flags else settings) ++ placed = orIfEmpty (flags ++ placed) settings := by
  by_cases hgiven : given
  · rw [if_pos hgiven, orIfEmpty_of_ne _ fun hnil => h.mpr hnil hgiven]
  · have hnil := h.mp hgiven
    rw [if_neg hgiven, hnil, (List.append_eq_nil_iff.mp hnil).2, List.append_nil, orIfEmpty_nil]

theorem fill_or {given : Prop} [Decidable given] {flag placed setting : Option Path}
    (h : ¬ given ↔ flag.or placed = none) :
    (if given then flag else setting).or placed = (flag.or placed).or setting := by
  by_cases hgiven : given
  · obtain ⟨path, hpath⟩ := Option.ne_none_iff_exists'.mp fun hnone => h.mpr hnone hgiven
    rw [if_pos hgiven, hpath, Option.some_or]
  · have hnone := h.mp hgiven
    rw [if_neg hgiven, hnone, (Option.or_eq_none_iff.mp hnone).2, Option.or_none, Option.none_or]

theorem merged_filledFrom (r : Request) (d : Defaults) :
    (r.filledFrom d).merged {} = r.merged d := by
  simp only [merged, filledFrom, orIfEmpty_nil_right, Option.or_none, fill_append not_givesRoot_iff,
    fill_append not_givesExclusion_iff, fill_or not_givesOutput_iff]

theorem givesOutputTwice_filledFrom (r : Request) (d : Defaults) :
    (r.filledFrom d).GivesOutputTwice ↔ r.GivesOutputTwice := by
  refine and_congr_left fun hlen => ?_
  have hgiven : r.GivesOutput := Or.inr hlen
  simp only [filledFrom, if_pos hgiven]

theorem options_filledFrom (r : Request) (d : Defaults) (t : FileTree) :
    (r.filledFrom d).options t = r.resolve (r.merged d) := by
  -- without a settings file the settings are empty, and what is merged with them stays as it is
  show (r.filledFrom d).optionsUnder {} = _
  rw [optionsUnder_eq_resolve, merged_filledFrom]
  simp only [resolve, givesOutputTwice_filledFrom]
  rfl

/-- Merged settings make options if the output is not given twice and neither a root nor the output
is missing. -/
theorem resolve_eq_ok_iff {r : Request} {m : Defaults} {o : Options} :
    r.resolve m = .ok o ↔ ¬ r.GivesOutputTwice ∧ m.roots ≠ [] ∧ m.output = some o.output ∧
      o = { output := o.output, roots := m.roots, excluded := m.excluded, update := r.update,
            strip := r.strip, strictness := m.strictness.getD .off, lead := m.lead } := by
  unfold resolve
  by_cases htwice : r.GivesOutputTwice
  · simp [htwice]
  by_cases hroots : m.roots = []
  · simp [htwice, hroots]
  cases hout : m.output with
  | none => simp [htwice, hroots]
  | some output =>
    simp only [if_neg htwice, if_neg hroots]
    constructor
    · intro h
      cases h
      exact ⟨htwice, hroots, rfl, rfl⟩
    · rintro ⟨_, _, houtput, ho⟩
      cases houtput
      rw [← ho]

/-- Options take from the settings in a directory what the command line leaves out. -/
structure TakesRest (r : Request) (d : Defaults) (dir : Path) (o : Options) : Prop where
  roots : ¬ r.GivesRoot → o.roots = d.roots.map dir.join
  output : ¬ r.GivesOutput → some o.output = d.output.map dir.join
  excluded : ¬ r.GivesExclusion → o.excluded = d.excluded
  strictness : r.strictness = none → o.strictness = d.strictness.getD .off
  lead : r.lead = none → o.lead = d.lead

theorem takesRest_of_resolve {r : Request} {d : Defaults} {dir : Path} {o : Options}
    (h : r.resolve (r.merged (d.relativeTo dir)) = .ok o) : r.TakesRest d dir o := by
  obtain ⟨_, _, houtput, ho⟩ := resolve_eq_ok_iff.mp h
  constructor
  · intro hgiven
    rw [ho]
    simp only [merged, not_givesRoot_iff.mp hgiven, orIfEmpty_nil]
    rfl
  · intro hgiven
    rw [← houtput]
    simp only [merged, not_givesOutput_iff.mp hgiven, Option.none_or]
    rfl
  · intro hgiven
    rw [ho]
    simp only [merged, not_givesExclusion_iff.mp hgiven, orIfEmpty_nil]
    rfl
  · intro hnone
    rw [ho]
    simp only [merged, hnone, Option.none_or]
    rfl
  · intro hnone
    rw [ho]
    simp only [merged, hnone, Option.none_or]
    rfl

theorem orIfEmpty_eq_nil_iff {given settings : List Path} :
    orIfEmpty given settings = [] ↔ given = [] ∧ settings = [] := by
  cases given with
  | nil => simp
  | cons path rest => simp [orIfEmpty]

/-- When there are options. -/
theorem exists_resolve_eq_ok_iff {r : Request} {d : Defaults} :
    (∃ o, r.resolve (r.merged d) = .ok o) ↔
      ¬ r.GivesOutputTwice ∧ (r.GivesRoot ∨ d.roots ≠ []) ∧ (r.GivesOutput ∨ d.output ≠ none) := by
  have hroots : (r.merged d).roots ≠ [] ↔ r.GivesRoot ∨ d.roots ≠ [] := by
    rw [Ne, merged, orIfEmpty_eq_nil_iff, ← not_givesRoot_iff, Classical.not_and_iff_not_or_not,
      Decidable.not_not]
  have houtput : (r.merged d).output ≠ none ↔ r.GivesOutput ∨ d.output ≠ none := by
    rw [Ne, merged, Option.or_eq_none_iff, ← not_givesOutput_iff, Classical.not_and_iff_not_or_not,
      Decidable.not_not]
  rw [← hroots, ← houtput]
  constructor
  · rintro ⟨o, ho⟩
    obtain ⟨htwice, hne, hout, _⟩ := resolve_eq_ok_iff.mp ho
    exact ⟨htwice, hne, Option.ne_none_iff_exists'.mpr ⟨o.output, hout⟩⟩
  · rintro ⟨htwice, hne, hout⟩
    obtain ⟨output, hout⟩ := Option.ne_none_iff_exists'.mp hout
    exact ⟨_, by rw [resolve, if_neg htwice, if_neg hne, hout]⟩

/-! ### The main statement -/

/-- A root, the output and excluded directories by position give what they give by flags. Settings
that the command line gives can be changed in the settings file and change nothing, in the options
or in the failure. Those that it leaves out are taken from the file as if they were flags: the
roots and the output in the directory of the file, the others as they are written. -/
theorem forms_agree (r : Request) (t : FileTree) :
    (∀ root output excluded, r.output = none → r.positions = root :: output :: excluded →
      r.options t = (r.byFlags root output excluded).options t) ∧
    ∀ p d, Defaults.Holds t p d →
      (∀ t' p' d', Defaults.Holds t' p' d' →
        r.AgreeOnRest (d.relativeTo (Defaults.directory p)) (d'.relativeTo (Defaults.directory p')) →
        (r.withSettings p).options t = (r.withSettings p').options t') ∧
      (r.withSettings p).options t =
        (r.filledFrom (d.relativeTo (Defaults.directory p))).options t ∧
      ((∃ o, (r.withSettings p).options t = .ok o) ↔
        ¬ r.GivesOutputTwice ∧ (r.GivesRoot ∨ d.roots ≠ []) ∧
          (r.GivesOutput ∨ d.output ≠ none)) ∧
      ∀ o, (r.withSettings p).options t = .ok o → r.TakesRest d (Defaults.directory p) o := by
  refine ⟨fun root output excluded => options_byFlags t, fun p d hd => ?_⟩
  rw [options_withSettings r hd]
  refine ⟨fun t' p' d' hd' hagree => ?_, ?_, ?_, fun o => takesRest_of_resolve⟩
  · rw [options_withSettings r hd', hagree.merged_eq]
  · rw [options_filledFrom]
  · rw [exists_resolve_eq_ok_iff]
    simp [Defaults.relativeTo]

/-- Settings of every kind. -/
def fullSettings : Text :=
  "[uqi]\nroots = [\"A\"]\noutput = \"L\"\nexclude = [\"B\"]\nstrictness = \"warn\"\nprefix = \"y\"\n".toList

/-- A settings file of every kind of setting, and one that says no more than the strictness. -/
def twoSettings : FileTree :=
  (((FileTree.bare []).put ["conf".toList] .directory).put ["conf".toList, "full".toList]
    (.file (Utf8.encode fullSettings))).put ["conf".toList, "short".toList]
    (.file (Utf8.encode "[uqi]\nstrictness = \"warn\"\n".toList))

theorem fullSettings_hold : Defaults.Holds twoSettings ⟨"conf/full".toList⟩
    ⟨[⟨['A']⟩], some ⟨['L']⟩, [⟨['B']⟩], some .warn, some ['y']⟩ :=
  ⟨_, fullSettings, toOption_eq_some_iff.mp (by decide +kernel), Utf8.decode?_encode _,
    by decide +kernel⟩

theorem shortSettings_hold : Defaults.Holds twoSettings ⟨"conf/short".toList⟩
    { strictness := some .warn } :=
  ⟨_, "[uqi]\nstrictness = \"warn\"\n".toList, toOption_eq_some_iff.mp (by decide +kernel),
    Utf8.decode?_encode _, by decide +kernel⟩

/-- A request that leaves out nothing but the strictness. -/
def placed : Request where
  positions := [⟨['P']⟩, ⟨['Q']⟩, ⟨['R']⟩]
  lead := some ['z']

theorem placed_agreeOnRest {d e : Defaults} (h : d.strictness = e.strictness) :
    placed.AgreeOnRest d e where
  roots hroot := absurd (by decide) hroot
  output houtput := absurd (by decide) houtput
  excluded hexclusion := absurd (by decide) hexclusion
  strictness _ := h
  lead hlead := nomatch hlead

/-- All but the strictness by position or flag, and all from the settings. -/
theorem placed_and_empty_agree :
    placed.options twoSettings = (placed.byFlags ⟨['P']⟩ ⟨['Q']⟩ [⟨['R']⟩]).options twoSettings ∧
    (placed.withSettings ⟨"conf/full".toList⟩).options twoSettings =
      (placed.withSettings ⟨"conf/short".toList⟩).options twoSettings ∧
    ∃ o, (({} : Request).withSettings ⟨"conf/full".toList⟩).options twoSettings = .ok o ∧
      o.roots = [⟨"conf/A".toList⟩] ∧ o.output = ⟨"conf/L".toList⟩ ∧ o.excluded = [⟨['B']⟩] ∧
      o.strictness = .warn ∧ o.lead = some ['y'] := by
  obtain ⟨hflags, hsettings⟩ := forms_agree placed twoSettings
  obtain ⟨hsame, -⟩ := hsettings _ _ fullSettings_hold
  obtain ⟨-, -, hok, htakes⟩ := (forms_agree {} twoSettings).2 _ _ fullSettings_hold
  obtain ⟨o, ho⟩ := hok.mpr (by decide)
  have htaken := htakes o ho
  refine ⟨hflags _ _ _ rfl rfl, hsame _ _ _ shortSettings_hold (placed_agreeOnRest rfl), o, ho, ?_⟩
  exact ⟨htaken.roots (by decide), Option.some.inj (htaken.output (by decide)),
    htaken.excluded (by decide), htaken.strictness rfl, htaken.lead rfl⟩

end Request

end FirmwareIds.Command
