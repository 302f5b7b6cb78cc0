import FirmwareIds.BiosId.Output
import FirmwareIds.Proofs.BiosId.Settings
import FirmwareIds.Proofs.Text.Encoding

/-!
# What is recovered of a BIOS ID

Firmware reads the blob behind its signature up to the first nought, and the build reads the shell
line. Both are written for any BIOS ID, so what they give back depends on its characters alone: the
blob must hold no nought before the last (`readBlob?_blob_iff`), and the line no line end.

The characters come from the settings, where only their number is checked. So an accepted text gives
a BIOS ID that is recovered if and only if no line of it adds such a character, and a line that goes
on with the value before it always does (`recovered_iff`).
-/

namespace FirmwareIds.BiosId

open Utf16

/-! ## Reading a blob -/

/-- The units before the first nought, and the bytes behind it. -/
def unitsToNought : List UInt8 → Option (List UInt16 × List UInt8)
  | low :: high :: bs =>
    let u := ByteOrder.little.unit low high
    if u = 0 then some ([], bs)
    else (unitsToNought bs).map fun (us, rest) => (u :: us, rest)
  | _ => none

/-- What is read of a blob: the characters behind the signature, `none` for each malformed place, up
to the first nought, and the bytes behind that. -/
def readBlob? (bs : List UInt8) : Option (List (Option Char) × List UInt8) :=
  if bs.take signature.length = signature then
    (unitsToNought (bs.drop signature.length)).map fun (us, rest) => (scanUnits false us, rest)
  else none

/-- Units without a nought are read, and then what is behind them. -/
theorem unitsToNought_append {us : List UInt16} (h : 0 ∉ us) (bs : List UInt8) :
    unitsToNought (us.flatMap ByteOrder.little.bytes ++ bs) =
      (unitsToNought bs).map fun (vs, rest) => (us ++ vs, rest) := by
  induction us with
  | nil => simp
  | cons u us ih =>
    obtain ⟨hu, hus⟩ := not_or.mp (mt List.mem_cons.mpr h)
    obtain ⟨low, high, hbytes, hunit⟩ := bytes_eq .little u
    rw [List.flatMap_cons, hbytes, List.append_assoc]
    show unitsToNought (low :: high :: (us.flatMap ByteOrder.little.bytes ++ bs)) = _
    rw [unitsToNought]
    simp only [hunit, if_neg (Ne.symm hu), ih hus, Option.map_map]
    rfl

theorem nought_mem_unitsOfChar_iff {c : Char} : 0 ∈ unitsOfChar c ↔ c = '\x00' := by
  constructor
  · intro h
    rcases unitsOfChar_eq c with ⟨u, hunits, -, -, hc⟩ | ⟨u, v, hunits, hhigh, hlow, -⟩
    · rw [hunits, List.mem_singleton] at h
      rw [← hc, ← h]
      rfl
    · -- neither half of a pair is a nought
      rw [hunits, List.mem_cons, List.mem_singleton] at h
      rcases h with rfl | rfl
      · cases hhigh
      · cases hlow
  · rintro rfl
    exact List.mem_singleton.mpr rfl

theorem nought_mem_units_iff {s : Text} : 0 ∈ units s ↔ '\x00' ∈ s := by
  unfold units
  rw [List.mem_flatMap]
  simp only [nought_mem_unitsOfChar_iff]
  exact ⟨fun ⟨c, hc, he⟩ => he ▸ hc, fun h => ⟨_, h, rfl⟩⟩

/-- The text before the first nought is what is read of a blob, and the rest of the text stays. -/
theorem readBlob?_blob_append {s : Text} (h : '\x00' ∉ s) {id : Text} {rest : List UInt8}
    (hid : encode .little id ++ [0, 0] = encode .little s ++ 0 :: 0 :: rest) :
    readBlob? (blob id) = some (s.map some, rest) := by
  have hunits : 0 ∉ units s := mt nought_mem_units_iff.mp h
  have hread : unitsToNought (encode .little s ++ 0 :: 0 :: rest) = some (units s, rest) := by
    unfold encode
    rw [unitsToNought_append hunits]
    show some (units s ++ [], rest) = _
    rw [List.append_nil]
  have hscan : scanUnits false (units s) = s.map some := by
    have happend := scanUnits_append false s []
    rw [List.append_nil] at happend
    rw [happend]
    exact List.append_nil _
  unfold readBlob? blob
  rw [List.append_assoc, List.take_left, if_pos rfl, List.drop_left, hid, hread, ← hscan]
  rfl

/-- A BIOS ID is read back from its blob, to the end of it, if and only if it holds no nought. -/
theorem readBlob?_blob_iff {id : Text} :
    readBlob? (blob id) = some (id.map some, []) ↔ '\x00' ∉ id := by
  constructor
  · intro hread hmem
    obtain ⟨before, behind, rfl, hbefore⟩ := List.eq_append_cons_of_mem hmem
    have hnought : encode .little ('\x00' :: behind) = 0 :: 0 :: encode .little behind := rfl
    have hbytes : encode .little (before ++ '\x00' :: behind) ++ [0, 0] =
        encode .little before ++ 0 :: 0 :: (encode .little behind ++ [0, 0]) := by
      rw [encode_append, hnought, List.append_assoc]
      rfl
    rw [readBlob?_blob_append hbefore hbytes] at hread
    -- the last two bytes are still there
    have hrest := (Prod.mk.inj (Option.some.inj hread)).2
    cases (List.append_eq_nil_iff.mp hrest).2
  · exact fun h => readBlob?_blob_append h rfl

/-! ## Reading the line -/

/-- A text is one line: nothing in it ends a line. -/
def IsOneLine (s : Text) : Prop := '\n' ∉ s ∧ '\r' ∉ s

instance (s : Text) : Decidable (IsOneLine s) := inferInstanceAs (Decidable (_ ∧ _))

theorem isOneLine_exportLine_iff {id : Text} : IsOneLine (exportLine id) ↔ IsOneLine id := by
  have hfront : IsOneLine "export BIOS_ID=".toList := by decide
  unfold IsOneLine exportLine
  rw [List.mem_append, List.mem_append, or_iff_right hfront.1, or_iff_right hfront.2]

/-! ## What the settings must hold -/

/-- A BIOS ID is recovered from the blob and from the line if and only if no line of the settings goes
on with the value before it, and none adds a nought or a carriage return. The blob is lost by a
nought, the line by the others; what follows the name in the line is always the BIOS ID. -/
theorem recovered_iff {s : Text} {cfg : Settings} (h : Settings.parse s = .ok cfg) (m : Moment) :
    (readBlob? (blob (cfg.id m)) = some ((cfg.id m).map some, []) ↔
        ∀ l ∈ settingLines s, '\x00' ∉ l.added) ∧
      (IsOneLine (exportLine (cfg.id m)) ↔
        ∀ l ∈ settingLines s, l.continues = false ∧ '\r' ∉ l.added) ∧
      Text.after? "export BIOS_ID=".toList (exportLine (cfg.id m)) = some (cfg.id m) := by
  have hmem {c : Char} (hdot : c ≠ '.') (hdigit : ¬ c.isDigit = true) :
      c ∉ cfg.id m ↔ ∀ l ∈ settingLines s, c ∉ l.added := by
    rw [Settings.mem_id_iff_added h m hdot hdigit]
    simp only [not_exists, not_and]
  refine ⟨?_, ?_, Text.after?_eq_some_iff.mpr rfl⟩
  · rw [readBlob?_blob_iff]
    exact hmem (by decide) (by decide)
  · rw [isOneLine_exportLine_iff]
    unfold IsOneLine
    rw [hmem (by decide) (by decide), hmem (by decide) (by decide), ← forall₂_and]
    refine forall₂_congr fun l hl => and_congr_left fun _ => ?_
    rw [newline_mem_added_iff hl, Bool.not_eq_true]

/-- Settings with a comment and both separators. -/
def sampleSettings : Text :=
  ("# Board identity\n[config]\nBOARD_ID = KBLRVP1\nBOARD_REV = 1\nBOARD_EXT : 000\n" ++
    "BUILD_TYPE = D\nVERSION_MAJOR = 0001\n").toList

/-- What `sampleSettings` say. -/
def sampleConfig : Settings :=
  ⟨"KBLRVP1".toList, ['1'], "000".toList, ['D'], "0001".toList, "00".toList⟩

/-- The moment of a build. -/
def sampleBuild : Moment :=
  ⟨2019, 7, 8, 15, 30, by decide, by decide, by decide, by decide⟩

theorem sampleSettings_recovered :
    Settings.parse sampleSettings = .ok sampleConfig ∧
      readBlob? (blob (sampleConfig.id sampleBuild)) =
        some ("KBLRVP11.000.0001.D00.1907081530".toList.map some, []) ∧
      IsOneLine (exportLine (sampleConfig.id sampleBuild)) := by
  have hparse : Settings.parse sampleSettings = .ok sampleConfig := by decide +kernel
  obtain ⟨hblob, hline, -⟩ := recovered_iff hparse sampleBuild
  exact ⟨hparse, hblob.mpr (by decide +kernel), hline.mpr (by decide +kernel)⟩

/-- Settings with a value that goes on in the next line, and one with a nought in it. -/
def brokenSettings : Text :=
  ("[config]\nBOARD_ID = ABC\n  DEF\nBOARD_REV = 1\nBOARD_EXT = 0\x000\n" ++
    "BUILD_TYPE = D\n").toList

/-- Every value has its number of characters, but firmware reads the front of the BIOS ID only, and
the shell line is two lines. -/
theorem brokenSettings_not_recovered :
    ∃ cfg, Settings.parse brokenSettings = .ok cfg ∧
      (readBlob? (blob (cfg.id sampleBuild))).map Prod.fst =
        some ("ABC\nDEF1.0".toList.map some) ∧
      '\n' ∈ exportLine (cfg.id sampleBuild) :=
  ⟨⟨"ABC\nDEF".toList, ['1'], "0\x000".toList, ['D'], "0000".toList, "00".toList⟩, by decide +kernel⟩

end FirmwareIds.BiosId
