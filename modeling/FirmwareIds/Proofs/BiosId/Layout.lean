import FirmwareIds.Proofs.BiosId.Recovering

/-!
# The layout of a BIOS ID

A BIOS ID is a row of fields, each of which has its own number of characters: the items because the
settings were accepted (`Settings.length_get`), the parts of the moment because they have two digits
(`Text.padded_two`). So every BIOS ID has its dots at the same places, and two of them that are equal
are equal field by field (`id_eq_iff_fields`).
-/

namespace FirmwareIds

/-! ## Two digits -/

namespace Text

/-- A number below one hundred has two digits, which read back. -/
theorem padded_two : ∀ n < 100, (padded 2 n).length = 2 ∧ ofDigits 10 (padded 2 n) = n := by
  decide +kernel

theorem padded_two_inj {n k : Nat} (hn : n < 100) (hk : k < 100)
    (h : padded 2 n = padded 2 k) : n = k := by
  have hread := congrArg (ofDigits 10) h
  rw [(padded_two n hn).2, (padded_two k hk).2] at hread
  exact hread

/-- A field of one character is found behind the characters of the fields before it. -/
theorem getElem?_flatten {fields : List Text} {n : Nat} {c : Char} (h : fields[n]? = some [c]) :
    fields.flatten[(fields.take n).flatten.length]? = some c := by
  obtain ⟨hlt, hn⟩ := List.getElem?_eq_some_iff.mp h
  have hsplit : fields = fields.take n ++ [c] :: fields.drop (n + 1) := by
    rw [← hn, ← List.drop_eq_getElem_cons hlt, List.take_append_drop]
  have hflat := congrArg List.flatten hsplit
  rw [List.flatten_append] at hflat
  rw [hflat, List.getElem?_append_right (Nat.le_refl _), Nat.sub_self]
  rfl

end Text

namespace BiosId

/-- What an item is if it is left out has its number of characters. -/
theorem Item.length_default {item : Item} {v : Text} (h : item.default? = some v) :
    v.length = item.width := by
  have hall : item.default?.all (·.length == item.width) = true := by
    cases item <;> decide
  rw [h] at hall
  exact eq_of_beq hall

namespace Settings

/-! ## The fields -/

/-- The items of accepted settings have their numbers of characters, whether they are given, go on over
several lines or are left out. -/
theorem length_get {s : Text} {cfg : Settings} (h : parse s = .ok cfg) (item : Item) :
    (cfg.get item).length = item.width := by
  obtain ⟨pairs, -, hpairs⟩ := parse_eq_ok_iff.mp h
  obtain ⟨hcheck, hvalue⟩ := ofPairs_eq_ok_iff.mp hpairs
  have hget := value_eq_ok_iff.mp (hvalue item)
  rcases Option.or_eq_some_iff.mp hget with hlookup | ⟨-, hdefault⟩
  · obtain ⟨before, behind, heq, -⟩ := List.lookup_eq_some_iff.mp hlookup
    have hmem : (item.key, cfg.get item) ∈ pairs := by
      rw [heq]
      exact List.mem_append_right _ (List.mem_cons_self ..)
    obtain ⟨item', hkey, hwidth⟩ := check_eq_ok_iff.mp (hcheck _ hmem)
    -- no two items have one key
    have hitem := Item.ofKey?_eq_some_iff.mpr hkey
    rw [Item.ofKey?_eq_some_iff.mpr rfl] at hitem
    cases hitem
    exact hwidth
  · exact Item.length_default hdefault

/-- The fields of a BIOS ID, first to last. -/
def fields (cfg : Settings) (m : Moment) : List Text :=
  [cfg.boardId, cfg.boardRev, ['.'], cfg.boardExt, ['.'], cfg.versionMajor, ['.'], cfg.buildType,
    cfg.versionMinor, ['.'], m.shortYear, Text.padded 2 m.month, Text.padded 2 m.day,
    Text.padded 2 m.hour, Text.padded 2 m.minute]

theorem id_eq_flatten (cfg : Settings) (m : Moment) : cfg.id m = (cfg.fields m).flatten := by
  simp [id, fields, Moment.monthDay, Moment.hourMinute]

theorem year_lt (m : Moment) : (m.year % 100).toNat < 100 := by
  have := Int.emod_lt_of_pos m.year (by decide : (0 : Int) < 100)
  omega

/-- The numbers of characters of the fields. -/
theorem lengths_fields {s : Text} {cfg : Settings} (h : parse s = .ok cfg) (m : Moment) :
    (cfg.fields m).map List.length = [7, 1, 1, 3, 1, 4, 1, 1, 2, 1, 2, 2, 2, 2, 2] := by
  have hitems := length_get h
  have hmonth := m.month_le
  have hday := m.day_le
  have hhour := m.hour_lt
  have hminute := m.minute_lt
  have hdigits {n : Nat} (hn : n < 100) : (Text.padded 2 n).length = 2 := (Text.padded_two n hn).1
  have hyear : m.shortYear.length = 2 := hdigits (year_lt m)
  simp only [fields, List.map_cons, List.map_nil, List.length_singleton, hyear,
    hdigits (show m.month < 100 by omega), hdigits (show m.day < 100 by omega),
    hdigits (show m.hour < 100 by omega), hdigits (show m.minute < 100 by omega)]
  rw [show cfg.boardId.length = 7 from hitems .boardId, show cfg.boardRev.length = 1 from
    hitems .boardRev, show cfg.boardExt.length = 3 from hitems .boardExt,
    show cfg.buildType.length = 1 from hitems .buildType, show cfg.versionMajor.length = 4 from
    hitems .versionMajor, show cfg.versionMinor.length = 2 from hitems .versionMinor]

/-- Fields of the same lengths are equal if they are equal one behind the other. -/
theorem id_eq_iff_fields {s s' : Text} {cfg cfg' : Settings} (h : parse s = .ok cfg)
    (h' : parse s' = .ok cfg') (m m' : Moment) :
    cfg.id m = cfg'.id m' ↔ cfg.fields m = cfg'.fields m' := by
  rw [id_eq_flatten, id_eq_flatten, List.eq_iff_flatten_eq, lengths_fields h, lengths_fields h']
  exact (and_iff_left rfl).symm

/-- Settings and moments have the same fields if and only if they agree in all that a BIOS ID shows. -/
theorem fields_eq_iff {cfg cfg' : Settings} {m m' : Moment} :
    cfg.fields m = cfg'.fields m' ↔ cfg = cfg' ∧ m.year % 100 = m'.year % 100 ∧
      m.month = m'.month ∧ m.day = m'.day ∧ m.hour = m'.hour ∧ m.minute = m'.minute := by
  constructor
  · intro h
    have hmonths := And.intro m.month_le m'.month_le
    have hdays := And.intro m.day_le m'.day_le
    have hhours := And.intro m.hour_lt m'.hour_lt
    have hminutes := And.intro m.minute_lt m'.minute_lt
    unfold fields at h
    simp only [List.cons.injEq, and_true, true_and] at h
    obtain ⟨hid, hrev, hext, hmajor, htype, hminor, hyear, hmonth, hday, hhour, hminute⟩ := h
    have hyear := Text.padded_two_inj (year_lt m) (year_lt m') hyear
    have hnonneg := Int.emod_nonneg m.year (by decide : (100 : Int) ≠ 0)
    have hnonneg' := Int.emod_nonneg m'.year (by decide : (100 : Int) ≠ 0)
    refine ⟨?_, by omega, Text.padded_two_inj (by omega) (by omega) hmonth,
      Text.padded_two_inj (by omega) (by omega) hday,
      Text.padded_two_inj (by omega) (by omega) hhour,
      Text.padded_two_inj (by omega) (by omega) hminute⟩
    cases cfg
    cases cfg'
    rw [Settings.mk.injEq]
    exact ⟨hid, hrev, hext, htype, hmajor, hminor⟩
  · intro ⟨hcfg, hyear, hmonth, hday, hhour, hminute⟩
    unfold fields Moment.shortYear
    rw [hcfg, hyear, hmonth, hday, hhour, hminute]

/-- A BIOS ID made of accepted settings has thirty-two characters and four dots at fixed places, and two
of them are equal if and only if the settings are the same and the moments differ at most in the
century. -/
theorem id_unambiguous {s s' : Text} {cfg cfg' : Settings} (h : parse s = .ok cfg)
    (h' : parse s' = .ok cfg') (m m' : Moment) :
    (cfg.id m).length = 32 ∧ (∀ i ∈ [8, 12, 17, 21], (cfg.id m)[i]? = some '.') ∧
      (cfg.id m = cfg'.id m' ↔ cfg = cfg' ∧ m.year % 100 = m'.year % 100 ∧
        m.month = m'.month ∧ m.day = m'.day ∧ m.hour = m'.hour ∧ m.minute = m'.minute) := by
  have hlengths := lengths_fields h m
  refine ⟨?_, ?_, (id_eq_iff_fields h h' m m').trans fields_eq_iff⟩
  · rw [id_eq_flatten, List.length_flatten, hlengths]
    rfl
  · intro i hi
    -- the dots are fields of their own: the third, the fifth, the seventh and the tenth
    have hdot (n : Nat) := @Text.getElem?_flatten (cfg.fields m) n '.'
    simp only [List.length_flatten, List.map_take, hlengths, ← id_eq_flatten] at hdot
    simp only [List.mem_cons, List.not_mem_nil, or_false] at hi
    rcases hi with hi | hi | hi | hi
    · exact hi ▸ hdot 2 rfl
    · exact hi ▸ hdot 4 rfl
    · exact hi ▸ hdot 6 rfl
    · exact hi ▸ hdot 9 rfl

end Settings

/-- The settings of `sampleSettings` in another order and with other line ends, and with a value that is
left out there. -/
def respelledSettings : Text :=
  ("[config]\r\nVERSION_MINOR:00\r\nVERSION_MAJOR:0001\r\nBUILD_TYPE=D\r\nBOARD_EXT=000\r\n" ++
    "BOARD_REV=1\r\nBOARD_ID=KBLRVP1\r\n").toList

/-- A build a hundred years after `sampleBuild`. -/
def laterBuild : Moment := { sampleBuild with year := 2119 }

/-- Two spellings of the same settings give one BIOS ID, also in the next century. -/
theorem respelledSettings_id :
    Settings.parse sampleSettings = .ok sampleConfig ∧
      Settings.parse respelledSettings = .ok sampleConfig ∧
      sampleConfig.id sampleBuild = sampleConfig.id laterBuild := by
  have hparse : Settings.parse sampleSettings = .ok sampleConfig := by decide +kernel
  have hrespelled : Settings.parse respelledSettings = .ok sampleConfig := by decide +kernel
  obtain ⟨-, -, hsame⟩ := Settings.id_unambiguous hparse hrespelled sampleBuild laterBuild
  exact ⟨hparse, hrespelled, hsame.mpr ⟨rfl, rfl, rfl, rfl, rfl, rfl⟩⟩

end BiosId

end FirmwareIds
