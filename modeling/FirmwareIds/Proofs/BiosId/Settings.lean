import FirmwareIds.BiosId.Basic
import FirmwareIds.Proofs.Success

/-!
# What settings are made of

The lines of a section that count are read one by one, and each adds its part to the values: a line
with a key the value behind the separator, a line that goes on with the value before it a line feed
and the whole line. So the values of an accepted text, one behind the other, are what its lines add
(`values_of_readSection`), and every character of them is in the settings
(`exists_mem_get_iff`). Nothing is asked of these characters but their number.
-/

namespace FirmwareIds

namespace Text

theorem newline_not_mem_of_mem_go {s acc line : Text} (hacc : '\n' ∉ acc)
    (h : line ∈ lines.go acc s) : '\n' ∉ line := by
  induction s generalizing acc with
  | nil =>
    rw [lines.go] at h
    split at h
    · cases h
    · rw [List.mem_singleton.mp h, List.mem_reverse]
      exact hacc
  | cons c s ih =>
    unfold lines.go at h
    split at h
    · rcases List.mem_cons.mp h with rfl | h
      · -- the carriage return before a line feed belongs to the line end
        split
        · rw [List.mem_reverse]
          exact fun hm => hacc (List.mem_cons_of_mem _ hm)
        · rw [List.mem_reverse]
          exact hacc
      · exact ih List.not_mem_nil h
    · next hc =>
      refine ih ?_ h
      rw [List.mem_cons, not_or]
      exact ⟨Ne.symm hc, hacc⟩

/-- No line holds a line feed. -/
theorem newline_not_mem_of_mem_lines {s line : Text} (h : line ∈ s.lines) : '\n' ∉ line :=
  newline_not_mem_of_mem_go List.not_mem_nil h

theorem mem_of_mem_trim {s : Text} {c : Char} (h : c ∈ s.trim) : c ∈ s := by
  unfold trim trimRight trimLeft at h
  rw [List.mem_reverse] at h
  have hright := (List.dropWhile_sublist isWhite).subset h
  rw [List.mem_reverse] at hright
  exact (List.dropWhile_sublist isWhite).subset hright

theorem isDigit_of_mem_padded {width n : Nat} {c : Char} (h : c ∈ padded width n) :
    c.isDigit = true := by
  rcases List.mem_append.mp h with h | h
  · rw [List.eq_of_mem_replicate h]
    decide
  · exact Nat.isDigit_of_mem_toDigits (by decide) (by decide) h

end Text

namespace BiosId

/-! ## The lines of a section -/

/-- A line of a section that counts. -/
structure SettingLine where
  /-- Whether the line goes on with the value before it. -/
  continues : Bool
  /-- The line without the white space around it. -/
  text : Text

/-- What a line adds to the values. -/
def SettingLine.added (l : SettingLine) : Text :=
  if l.continues then '\n' :: l.text else ((keyValue? l.text).map Prod.snd).getD []

/-- The lines of the wanted section that count. The first line belongs to the section `current`;
`started` says that a line of the wanted section came before. -/
def settingLinesFrom (wanted : Text) : (current : Option Text) → (started : Bool) → List Text →
    List SettingLine
  | _, _, [] => []
  | current, started, raw :: rest =>
    match Line.of raw with
    | .idle => settingLinesFrom wanted current started rest
    | .header name => settingLinesFrom wanted (some name) started rest
    | .content indented line =>
      if current = some wanted then
        ⟨indented && started, line⟩ :: settingLinesFrom wanted current true rest
      else settingLinesFrom wanted current started rest

/-- The lines with the settings of a BIOS ID. -/
def settingLines (s : Text) : List SettingLine := settingLinesFrom Settings.sectionName none false s.lines

theorem mem_of_mem_value {line key value : Text} (h : keyValue? line = some (key, value)) {c : Char}
    (hc : c ∈ value) : c ∈ line := by
  unfold keyValue? at h
  split at h
  · cases h
  · next separator behind hdrop =>
    cases h
    have hmem : c ∈ separator :: behind := List.mem_cons_of_mem _ (Text.mem_of_mem_trim hc)
    rw [← hdrop] at hmem
    exact (List.dropWhile_sublist _).subset hmem

theorem eq_trim_of_content {raw line : Text} {indented : Bool}
    (h : Line.of raw = .content indented line) : line = raw.trim := by
  unfold Line.of at h
  dsimp only at h
  split at h
  · cases h
  · cases h
  · cases h
  · split at h
    · cases h
    · cases h
      rfl

theorem exists_raw_of_mem_settingLinesFrom {wanted : Text} {current : Option Text} {started : Bool}
    {raws : List Text} {l : SettingLine} (h : l ∈ settingLinesFrom wanted current started raws) :
    ∃ raw ∈ raws, l.text = raw.trim := by
  induction raws generalizing current started with
  | nil => cases h
  | cons raw rest ih =>
    have hlater {current : Option Text} {started : Bool}
        (h : l ∈ settingLinesFrom wanted current started rest) :
        ∃ raw' ∈ raw :: rest, l.text = raw'.trim := by
      obtain ⟨raw', hraw, htext⟩ := ih h
      exact ⟨raw', List.mem_cons_of_mem _ hraw, htext⟩
    rw [settingLinesFrom] at h
    split at h
    · exact hlater h
    · exact hlater h
    · next indented line hof =>
      split at h
      · rcases List.mem_cons.mp h with rfl | h
        · exact ⟨raw, List.mem_cons_self .., eq_trim_of_content hof⟩
        · exact hlater h
      · exact hlater h

/-- A line adds a line feed if and only if it goes on with the value before it. -/
theorem newline_mem_added_iff {s : Text} {l : SettingLine} (h : l ∈ settingLines s) :
    '\n' ∈ l.added ↔ l.continues = true := by
  obtain ⟨raw, hraw, htext⟩ := exists_raw_of_mem_settingLinesFrom h
  have hline : '\n' ∉ l.text := by
    rw [htext]
    exact mt Text.mem_of_mem_trim (Text.newline_not_mem_of_mem_lines hraw)
  unfold SettingLine.added
  cases hcontinues : l.continues with
  | true => simp
  | false =>
    rw [if_neg Bool.false_ne_true]
    cases hvalue : keyValue? l.text with
    | none => simp
    | some pair => simpa using mt (mem_of_mem_value hvalue) hline

/-- The values of pairs, one behind the other. -/
def valuesOf (pairs : List (Text × Text)) : Text := pairs.flatMap Prod.snd

/-- What taking in a line does to the pairs: their values go on with the text, and if their keys were
different from each other they still are. -/
structure Extends (pairs pairs' : List (Text × Text)) (added : Text) : Prop where
  values : valuesOf pairs' = valuesOf pairs ++ added
  nodup : (pairs.map Prod.fst).Nodup → (pairs'.map Prod.fst).Nodup

theorem Extends.refl (pairs : List (Text × Text)) : Extends pairs pairs [] :=
  ⟨(List.append_nil _).symm, id⟩

theorem Extends.trans {pairs₁ pairs₂ pairs₃ : List (Text × Text)} {s t : Text}
    (h₁ : Extends pairs₁ pairs₂ s) (h₂ : Extends pairs₂ pairs₃ t) :
    Extends pairs₁ pairs₃ (s ++ t) :=
  ⟨by rw [h₂.values, h₁.values, List.append_assoc], fun h => h₂.nodup (h₁.nodup h)⟩

namespace Reader

theorem keys_continueLast (line : Text) (pairs : List (Text × Text)) :
    (continueLast line pairs).map Prod.fst = pairs.map Prod.fst := by
  induction pairs with
  | nil => rfl
  | cons pair rest ih =>
    cases rest with
    | nil => rfl
    | cons next rest => exact congrArg (pair.1 :: ·) ih

theorem valuesOf_continueLast (line : Text) {pairs : List (Text × Text)} (h : pairs ≠ []) :
    valuesOf (continueLast line pairs) = valuesOf pairs ++ '\n' :: line := by
  induction pairs with
  | nil => exact absurd rfl h
  | cons pair rest ih =>
    cases rest with
    | nil =>
      unfold valuesOf continueLast
      simp
    | cons next rest =>
      have hrest := ih (List.cons_ne_nil next rest)
      show pair.2 ++ valuesOf (continueLast line (next :: rest)) = _
      rw [hrest, ← List.append_assoc]
      rfl

theorem extends_continueLast (line : Text) {pairs : List (Text × Text)} (h : pairs ≠ []) :
    Extends pairs (continueLast line pairs) ('\n' :: line) :=
  ⟨valuesOf_continueLast line h, fun hkeys => by rw [keys_continueLast]; exact hkeys⟩

theorem extends_append {pairs : List (Text × Text)} {key : Text}
    (h : ¬ (pairs.any (·.1 == key)) = true) (value : Text) :
    Extends pairs (pairs ++ [(key, value)]) value := by
  refine ⟨?_, fun hkeys => ?_⟩
  · unfold valuesOf
    simp
  · have hnew : key ∉ pairs.map Prod.fst := by
      intro hmem
      obtain ⟨pair, hpair, hkey⟩ := List.mem_map.mp hmem
      exact h (List.any_eq_true.mpr ⟨pair, hpair, beq_iff_eq.mpr hkey⟩)
    rw [List.map_append, List.map_singleton, List.nodup_append]
    refine ⟨hkeys, List.pairwise_singleton _ key, fun a ha b hb hab => ?_⟩
    rw [List.mem_singleton] at hb
    rw [hab, hb] at ha
    exact hnew ha

/-- A line of the section that is taken in adds its part, and there is a value from then on. -/
theorem extends_content {r r' : Reader} {number : Nat} {indented : Bool} {line : Text}
    (h : r.content number indented line = .ok r') :
    Extends r.pairs r'.pairs (SettingLine.added ⟨indented && !r.pairs.isEmpty, line⟩) ∧
      r'.pairs ≠ [] ∧ r'.current = r.current := by
  unfold content at h
  unfold SettingLine.added
  split at h
  · next hcontinues =>
    cases h
    have hne : r.pairs ≠ [] := by
      rw [Bool.and_eq_true] at hcontinues
      simpa using hcontinues.2
    have hpairs := extends_continueLast line hne
    rw [if_pos hcontinues]
    refine ⟨hpairs, fun hnil : continueLast line r.pairs = [] => hne ?_, rfl⟩
    have hkeys := keys_continueLast line r.pairs
    rw [hnil] at hkeys
    exact List.map_eq_nil_iff.mp hkeys.symm
  · next hcontinues =>
    split at h
    · cases h
    · next key value hvalue =>
      split at h
      · cases h
      · next hnew =>
        cases h
        rw [if_neg hcontinues, hvalue]
        exact ⟨extends_append hnew value, by simp, rfl⟩

/-- A line that is taken in is one of the section, and adds its part, or it is passed over. -/
theorem extends_line {wanted raw : Text} {r r' : Reader} {number : Nat}
    (h : r.line wanted number raw = .ok r') :
    ∃ ls : List SettingLine, Extends r.pairs r'.pairs (ls.flatMap SettingLine.added) ∧
      ∀ rest, settingLinesFrom wanted r.current (!r.pairs.isEmpty) (raw :: rest) =
        ls ++ settingLinesFrom wanted r'.current (!r'.pairs.isEmpty) rest := by
  simp only [settingLinesFrom]
  unfold line at h
  split at h
  · next hof =>
    cases h
    exact ⟨[], Extends.refl _, fun rest => by rw [hof]; rfl⟩
  · next name hof =>
    cases h
    exact ⟨[], Extends.refl _, fun rest => by rw [hof]; rfl⟩
  · cases h
  · next indented line name hof hcurrent =>
    by_cases hname : name = wanted
    · rw [if_pos hname] at h
      obtain ⟨hadded, hne, hsame⟩ := extends_content h
      have hstarted : (!r'.pairs.isEmpty) = true := by simpa using hne
      refine ⟨[⟨indented && !r.pairs.isEmpty, line⟩], ?_, fun rest => ?_⟩
      · rw [List.flatMap_singleton]
        exact hadded
      · rw [hof, hsame, hcurrent, hstarted]
        exact if_pos (congrArg some hname)
    · rw [if_neg hname] at h
      cases h
      refine ⟨[], Extends.refl _, fun rest => ?_⟩
      rw [hof, hcurrent]
      exact if_neg fun hsome => hname (Option.some.inj hsome)

/-- Lines that are taken in add their parts, in order. -/
theorem extends_lines {wanted : Text} {r r' : Reader} {number : Nat} {raws : List Text}
    (h : r.lines wanted number raws = .ok r') :
    Extends r.pairs r'.pairs
      ((settingLinesFrom wanted r.current (!r.pairs.isEmpty) raws).flatMap SettingLine.added) := by
  induction raws generalizing r number with
  | nil =>
    cases h
    exact Extends.refl _
  | cons raw rest ih =>
    rw [lines] at h
    split at h
    · cases h
    · next r₁ hline =>
      obtain ⟨ls, hstep, hlines⟩ := extends_line hline
      rw [hlines, List.flatMap_append]
      exact hstep.trans (ih h)

end Reader

/-- The values of the wanted section, one behind the other, are what its lines add, and every key is
there once. -/
theorem values_of_readSection {wanted s : Text} {pairs : List (Text × Text)}
    (h : readSection wanted s = .ok (some pairs)) :
    valuesOf pairs = (settingLinesFrom wanted none false s.lines).flatMap SettingLine.added ∧
      (pairs.map Prod.fst).Nodup := by
  obtain ⟨r, hr, hpairs⟩ := map_eq_ok_iff.mp h
  have hextends := Reader.extends_lines hr
  split at hpairs
  · cases hpairs
    exact ⟨hextends.values, hextends.nodup List.nodup_nil⟩
  · cases hpairs

/-! ## The settings -/

namespace Item

theorem ofKey?_eq_some_iff {key : Text} {item : Item} : ofKey? key = some item ↔ item.key = key := by
  constructor
  · intro h
    have hfound := List.find?_some h
    simpa using hfound
  · rintro rfl
    cases item <;> decide

theorem exists_iff {P : Item → Prop} :
    (∃ item, P item) ↔ P boardId ∨ P boardRev ∨ P boardExt ∨ P versionMajor ∨ P buildType ∨
      P versionMinor := by
  constructor
  · rintro ⟨item, h⟩
    cases item <;> simp only [h, true_or, or_true]
  · rintro (h | h | h | h | h | h) <;> exact ⟨_, h⟩

/-- An item that is left out consists of noughts. -/
theorem eq_zero_of_mem_default {item : Item} {v : Text} (h : item.default? = some v) {c : Char}
    (hc : c ∈ v) : c = '0' := by
  cases item with
  | versionMajor =>
    cases h
    exact List.eq_of_mem_replicate (n := 4) hc
  | versionMinor =>
    cases h
    exact List.eq_of_mem_replicate (n := 2) hc
  | _ => cases h

end Item

namespace Settings

/-- The value of an item. -/
def get (cfg : Settings) : Item → Text
  | .boardId => cfg.boardId
  | .boardRev => cfg.boardRev
  | .boardExt => cfg.boardExt
  | .buildType => cfg.buildType
  | .versionMajor => cfg.versionMajor
  | .versionMinor => cfg.versionMinor

theorem check_eq_ok_iff {pair : Text × Text} :
    check pair = .ok () ↔ ∃ item : Item, item.key = pair.1 ∧ pair.2.length = item.width := by
  unfold check
  cases hkey : Item.ofKey? pair.1 with
  | none =>
    refine ⟨nofun, fun ⟨item, hitem, _⟩ => ?_⟩
    rw [Item.ofKey?_eq_some_iff.mpr hitem] at hkey
    cases hkey
  | some item =>
    have hitem := Item.ofKey?_eq_some_iff.mp hkey
    constructor
    · intro h
      by_cases hwidth : pair.2.length = item.width
      · exact ⟨item, hitem, hwidth⟩
      · dsimp only at h
        rw [if_neg hwidth] at h
        cases h
    · rintro ⟨item', hitem', hwidth⟩
      rw [Item.ofKey?_eq_some_iff.mpr hitem'] at hkey
      cases hkey
      exact if_pos hwidth

theorem value_eq_ok_iff {pairs : List (Text × Text)} {item : Item} {v : Text} :
    value pairs item = .ok v ↔ (pairs.lookup item.key).or item.default? = some v := by
  unfold value
  cases (pairs.lookup item.key).or item.default? with
  | none => exact ⟨nofun, nofun⟩
  | some w => exact ⟨fun h => by cases h; rfl, fun h => by cases h; rfl⟩

/-- Pairs give settings if every pair passes its check, and every item has its value. -/
theorem ofPairs_eq_ok_iff {pairs : List (Text × Text)} {cfg : Settings} :
    ofPairs pairs = .ok cfg ↔
      (∀ pair ∈ pairs, check pair = .ok ()) ∧ ∀ item, value pairs item = .ok (cfg.get item) := by
  unfold ofPairs
  constructor
  · intro h
    obtain ⟨_, hcheck, h⟩ := bind_eq_ok_iff.mp h
    obtain ⟨v₁, h₁, h⟩ := bind_eq_ok_iff.mp h
    obtain ⟨v₂, h₂, h⟩ := bind_eq_ok_iff.mp h
    obtain ⟨v₃, h₃, h⟩ := bind_eq_ok_iff.mp h
    obtain ⟨v₄, h₄, h⟩ := bind_eq_ok_iff.mp h
    obtain ⟨v₅, h₅, h⟩ := bind_eq_ok_iff.mp h
    obtain ⟨v₆, h₆, h⟩ := bind_eq_ok_iff.mp h
    cases h
    refine ⟨forM_eq_ok_iff.mp hcheck, fun item => ?_⟩
    cases item
    · exact h₁
    · exact h₂
    · exact h₃
    · exact h₄
    · exact h₅
    · exact h₆
  · rintro ⟨hcheck, hvalue⟩
    rw [forM_eq_ok_iff.mpr hcheck, hvalue, hvalue, hvalue, hvalue, hvalue, hvalue]
    rfl

theorem parse_eq_ok_iff {s : Text} {cfg : Settings} :
    parse s = .ok cfg ↔
      ∃ pairs, readSection sectionName s = .ok (some pairs) ∧ ofPairs pairs = .ok cfg := by
  unfold parse
  constructor
  · intro h
    obtain ⟨found, hread, h⟩ := bind_eq_ok_iff.mp h
    cases found with
    | none => cases h
    | some pairs => exact ⟨pairs, hread, h⟩
  · rintro ⟨pairs, hread, h⟩
    rw [hread]
    exact h

theorem lookup_eq_some_of_mem {pairs : List (Text × Text)} (hkeys : (pairs.map Prod.fst).Nodup)
    {pair : Text × Text} (h : pair ∈ pairs) : pairs.lookup pair.1 = some pair.2 := by
  induction pairs with
  | nil => cases h
  | cons first rest ih =>
    obtain ⟨hnew, hrest⟩ := List.nodup_cons.mp hkeys
    rcases List.mem_cons.mp h with rfl | h
    · exact List.lookup_cons_self
    · have hne : pair.1 ≠ first.1 := fun he => hnew (he ▸ List.mem_map_of_mem h)
      rw [List.lookup_cons, beq_eq_false_iff_ne.mpr hne]
      exact ih hrest h

/-- Apart from the noughts of a version that is left out, the characters of the settings are those of
the values. -/
theorem exists_mem_get_iff {pairs : List (Text × Text)} {cfg : Settings}
    (h : ofPairs pairs = .ok cfg) (hkeys : (pairs.map Prod.fst).Nodup) {c : Char} (hc : c ≠ '0') :
    (∃ item, c ∈ cfg.get item) ↔ c ∈ valuesOf pairs := by
  obtain ⟨hcheck, hvalue⟩ := ofPairs_eq_ok_iff.mp h
  constructor
  · rintro ⟨item, hmem⟩
    have hget := value_eq_ok_iff.mp (hvalue item)
    rcases Option.or_eq_some_iff.mp hget with hlookup | ⟨-, hdefault⟩
    · obtain ⟨before, behind, hpairs, -⟩ := List.lookup_eq_some_iff.mp hlookup
      refine List.mem_flatMap.mpr ⟨(item.key, cfg.get item), ?_, hmem⟩
      rw [hpairs]
      exact List.mem_append_right _ (List.mem_cons_self ..)
    · exact absurd (Item.eq_zero_of_mem_default hdefault hmem) hc
  · intro hmem
    obtain ⟨pair, hpair, hmem⟩ := List.mem_flatMap.mp hmem
    obtain ⟨item, hitem, -⟩ := check_eq_ok_iff.mp (hcheck pair hpair)
    have hget := value_eq_ok_iff.mp (hvalue item)
    rw [hitem, lookup_eq_some_of_mem hkeys hpair, Option.some_or] at hget
    rw [Option.some.inj hget] at hmem
    exact ⟨item, hmem⟩

/-- The characters of a BIOS ID are those of the items, apart from dots and digits. -/
theorem mem_id_iff {cfg : Settings} {m : Moment} {c : Char} (hdot : c ≠ '.')
    (hdigit : ¬ c.isDigit = true) : c ∈ cfg.id m ↔ ∃ item, c ∈ cfg.get item := by
  have hyear : c ∉ m.shortYear := fun h => hdigit (Text.isDigit_of_mem_padded h)
  have hday : c ∉ m.monthDay := fun h => hdigit <|
    (List.mem_append.mp h).elim Text.isDigit_of_mem_padded Text.isDigit_of_mem_padded
  have hminute : c ∉ m.hourMinute := fun h => hdigit <|
    (List.mem_append.mp h).elim Text.isDigit_of_mem_padded Text.isDigit_of_mem_padded
  rw [Item.exists_iff]
  unfold id get
  simp only [List.mem_append, List.mem_cons, hdot, hyear, hday, hminute, false_or, or_false, or_assoc]

/-- Every character that the lines of an accepted text add comes into the BIOS ID, and apart from the
dots and digits no other. -/
theorem mem_id_iff_added {s : Text} {cfg : Settings} (h : parse s = .ok cfg) (m : Moment) {c : Char}
    (hdot : c ≠ '.') (hdigit : ¬ c.isDigit = true) :
    c ∈ cfg.id m ↔ ∃ l ∈ settingLines s, c ∈ l.added := by
  obtain ⟨pairs, hread, hpairs⟩ := parse_eq_ok_iff.mp h
  obtain ⟨hvalues, hkeys⟩ := values_of_readSection hread
  have hzero : c ≠ '0' := fun he => hdigit (he ▸ by decide)
  rw [mem_id_iff hdot hdigit, exists_mem_get_iff hpairs hkeys hzero, hvalues]
  exact List.mem_flatMap

end Settings

end BiosId

end FirmwareIds
