import FirmwareIds.Proofs.Session.Repeating
import FirmwareIds.Proofs.Session.Touching
import FirmwareIds.Proofs.Text.Reencoding

/-!
# Writing the list of codes again

A list of codes that was there and is written gets lines behind what was read of it. Two things that one
would expect then do not always hold.

Its old bytes need not be at the front of the new ones. They are if they hold no mark, and under a mark
if reading them has lost nothing (`target_keeps_bytes_iff`): malformed places are replaced.

And the new list need not be where the old one was. The file that the path leads to is recognised through
links, but a save replaces the link that the path ends in. Exactly then the old list stays as it was, and
the next run takes it for another resource file (`target_written_where_found_iff`).
-/

namespace FirmwareIds

open FileTree

/-- A text that was read is written as other bytes once text is put behind it. -/
theorem TextContent.encode_extend_ne {old : List UInt8} {content : TextContent}
    (h : decode? old = some content) {z : Text} (hz : ∀ c ∈ z.head?, c.toNat < 0x80)
    (hne : z ≠ []) : (content.extend z).encode ≠ old := by
  intro heq
  have hpre : old <+: content.encode := (prefix_encode_iff h hz).mp (heq ▸ List.prefix_rfl)
  have hlength := hpre.length_le
  rw [← heq, encode_extend, List.length_append] at hlength
  obtain ⟨c, z, rfl⟩ := List.exists_cons_of_ne_nil hne
  rw [show c :: z = [c] ++ z from rfl, Encoding.body_append, List.length_append] at hlength
  rcases Encoding.body_singleton (hz c rfl) content.encoding with ⟨b, hbody⟩ | ⟨-, b, b', hbody⟩
  · rw [hbody, List.length_singleton] at hlength
    omega
  · rw [hbody, List.length_cons] at hlength
    omega

namespace Session

variable {t u : FileTree} {o : Options} {s : Session} {mark : Text} {savings : Nat → Saving}
  {r : Report} {f : OpenFile}

/-! ## A list of codes that is listed -/

/-- No resource file has the path of the list of codes. -/
theorem Apart.eq_target (h : Apart t o mark s) (hf : f ∈ (s.settle o).changed)
    (hpath : f.path = o.target t) : (s.settle o).mayWrite = true ∧ f = (s.settle o).target := by
  rcases changed_cases hf with ⟨hmay, rfl⟩ | ⟨f₀, hf₀, rfl⟩
  · exact ⟨hmay, rfl⟩
  · rw [path_edited] at hpath
    obtain ⟨bytes, hread, -⟩ := loadText_eq_ok_iff.mp (h.isResource hf₀).load
    obtain ⟨k, hk, -⟩ := readFile_eq_ok_iff.mp hread
    exact absurd hk ((h.isResource hf₀).locate_ne (hpath ▸ hk))

/-- A path with two dots that leads to a file has its directory. -/
theorem siteKey?_isSome_of_file (hs : t.Sound) {p : Path} {k : Key} {bytes : List UInt8}
    (hk : t.locate p = .ok k) (hfile : t.get? k = some (.file bytes))
    (hup : Path.upStep ∈ p.names) : (t.siteKey? p).isSome := by
  have hpieces : p.pieces ≠ [] := List.ne_nil_of_mem (List.mem_filter.mp hup).1
  obtain ⟨-, dir, name, hsite⟩ := hs.site_of_file hpieces hk hfile
  rw [hsite.siteKey?_eq]
  rfl

/-- A list of codes that is there and may be written has been read. -/
theorem exists_of_mayWrite {k : Key} (hk : t.locate (o.target t) = .ok k)
    (hmay : (start t o).mayWrite = true) : ∃ old content, t.get? k = some (.file old) ∧
      TextContent.decode? old = some content ∧
      (start t o).target = ⟨o.target t, content, false⟩ := by
  rcases start_cases t o with ⟨_, content, -, hload, hstart, -⟩ | ⟨⟨fault, hfault⟩, -⟩ | ⟨-, -, hnot⟩
  · obtain ⟨old, hread, hdecode⟩ := loadText_eq_ok_iff.mp hload
    obtain ⟨k', hk', hfile⟩ := readFile_eq_ok_iff.mp hread
    obtain rfl : k = k' := Except.ok.inj (hk.symm.trans hk')
    exact ⟨old, content, hfile, hdecode, hstart⟩
  · exact nomatch hk.symm.trans hfault
  · exact nomatch hmay.symm.trans hnot

/-- What a run makes of a list of codes that was at the key `k` and is listed: its text, `content`, has
the text `z` behind it, which is not empty and begins with a character of seven bits. -/
structure TargetWritten (t u : FileTree) (o : Options) (mark : Text) (s : Session) (k : Key)
    (old : List UInt8) (content : TextContent) (z : Text) : Prop where
  file : t.get? k = some (.file old)
  read : TextContent.decode? old = some content
  text : (s.settle o).target.content = content.extend z
  head : ∀ c ∈ z.head?, c.toNat < 0x80
  added : z ≠ []
  wrote : ∃ done, (∀ f ∈ done, f ∈ (s.settle o).changed) ∧ (s.settle o).target ∈ done ∧
    Wrote t u mark (s.settle o).changed done

theorem Apart.targetWritten (h : Apart t o mark s) (hsavings : ∀ i, (savings i).Attempts mark)
    {k : Key} (hk : t.locate (o.target t) = .ok k) (hrun : runEach savings t o = .ok (u, r))
    (hlisted : o.target t ∈ r.written) :
    ∃ old content z, TargetWritten t u o mark s k old content z := by
  have hgathers := gathers_scanned h.sound h.scan
  have hread : (s.settle o).mayWrite = true → ∃ old content, t.get? k = some (.file old) ∧
      TextContent.decode? old = some content ∧
      (start t o).target = ⟨o.target t, content, false⟩ := fun hmay =>
    exists_of_mayWrite hk (by rw [← hgathers.mayWrite, ← s.mayWrite_settle o, hmay])
  obtain ⟨s₀, s', hscan, hflush, rfl⟩ := runEach_eq_ok_iff.mp hrun
  obtain rfl : s₀ = s := Except.ok.inj (hscan.symm.trans h.scan)
  obtain ⟨done, ha⟩ := h.account (fun hdirty hmay => by
    obtain ⟨old, -, hfile, -⟩ := hread hmay
    exact h.savable (siteKey?_isSome_of_file h.sound hk hfile)
      (fun hlinks => nomatch hk.symm.trans hlinks) hdirty hmay) hsavings hflush
  rw [ha.listed] at hlisted
  obtain ⟨f, hf, hpath⟩ := List.mem_map.mp hlisted
  obtain ⟨hmay, rfl⟩ := h.eq_target (ha.changed f hf) hpath
  have hdirty := (mem_changed_iff.mp (ha.changed _ hf)).2
  -- what was read has lines behind it now
  obtain ⟨old, content, hfile, hdecode, hstart⟩ := hread hmay
  obtain ⟨lines, hlines, htarget⟩ := s₀.target_settle o
  rw [hgathers.target, hstart] at htarget
  obtain ⟨z, hz, hhead, hadded⟩ := Definition.foldl_append_eq hlines content.text
  rw [htarget, OpenFile.dirty_append] at hdirty
  have hne : lines ≠ [] := by simpa using hdirty
  refine ⟨old, content, z, hfile, hdecode, ?_, fun c hc => ?_, hadded hne, done, ha.changed, hf,
    ha.wrote⟩
  · rw [htarget, OpenFile.append, if_neg (by simpa using hne)]
    exact congrArg (TextContent.mk · content.encoding) hz
  · rcases hhead c hc with rfl | rfl <;> decide

/-! ## The bytes that were there -/

/-- The old bytes of a list of codes are at the front of the new ones exactly if they are at the front of
the bytes of what was read of them; and always if it holds no mark. -/
theorem target_keeps_bytes_iff (h : Apart t o mark s) (hsavings : ∀ i, (savings i).Attempts mark)
    {old : List UInt8} (hread : t.readFile (o.target t) = .ok old)
    (hrun : runEach savings t o = .ok (u, r)) (hlisted : o.target t ∈ r.written) :
    ∃ content new, TextContent.decode? old = some content ∧
      u.readFile (o.target t) = .ok new ∧ (old <+: new ↔ old <+: content.encode) ∧
      (content.encoding = .utf8 → old <+: new) := by
  obtain ⟨k, hk, hfile⟩ := readFile_eq_ok_iff.mp hread
  obtain ⟨old', content, z, hwritten⟩ := h.targetWritten hsavings hk hrun hlisted
  obtain rfl : old = old' := by
    have := hfile.symm.trans hwritten.file
    cases this
    rfl
  obtain ⟨done, -, hmem, hwrote⟩ := hwritten.wrote
  have hnew := hwrote.readFile_eq h.sound hmem
  rw [h.target_path, hwritten.text] at hnew
  have hiff := TextContent.prefix_encode_iff hwritten.read hwritten.head
  refine ⟨content, _, hwritten.read, hnew, hiff, fun hutf8 => hiff.mpr ⟨[], ?_⟩⟩
  rw [List.append_nil, TextContent.encode_of_decode? hwritten.read hutf8]

/-- A string that waits for a code, and a list of codes beside the roots. -/
def listed (bytes : List UInt8) : FileTree :=
  oneQuestion.put ["UqiList.uni".toList] (.file bytes)

/-- An update run that has the list of codes beside its roots. -/
def updateBeside : Options := { updateRoot with output := ⟨"UqiList.uni".toList⟩ }

/-- A list of codes with one definition. -/
def listOfOne : List UInt8 := Utf8.encode "#string STR_Z #language uqi \"x0001\"\n".toList

theorem apart_listOfOne : ∃ s, (s.settle updateBeside).changed.map OpenFile.path =
      [⟨"UqiList.uni".toList⟩] ∧ Apart (listed listOfOne) updateBeside ['1'] s :=
  exists_apart (by decide +kernel) (by decide) (by decide +kernel) (by decide +kernel)

/-- An update run writes that list. -/
theorem exists_run_listOfOne : ∃ u r, runEach (fun _ t p content => t.replaceText ['1'] p content)
      (listed listOfOne) updateBeside = .ok (u, r) ∧
    updateBeside.target (listed listOfOne) ∈ r.written ∧
    (u.readFile ⟨"UqiList.uni".toList⟩).toOption.any (· ≠ listOfOne) = true := by
  have hlists : (runEach (fun _ t p content => t.replaceText ['1'] p content) (listed listOfOne)
      updateBeside).toOption.any (fun x =>
        x.2.written.contains (updateBeside.target (listed listOfOne)) &&
        (x.1.readFile ⟨"UqiList.uni".toList⟩).toOption.any (· ≠ listOfOne)) = true := by
    decide +kernel
  obtain ⟨u, r, hrun, htest⟩ := exists_of_any hlists
  obtain ⟨hlisted, hother⟩ := Bool.and_eq_true_iff.mp htest
  exact ⟨u, r, hrun, List.contains_iff_mem.mp hlisted, hother⟩

/-- An update run puts a line behind a list of codes. -/
theorem bytes_kept_listOfOne :
    ∃ u r new, runEach (fun _ t p content => t.replaceText ['1'] p content) (listed listOfOne)
        updateBeside = .ok (u, r) ∧
      u.readFile ⟨"UqiList.uni".toList⟩ = .ok new ∧ listOfOne <+: new ∧ new ≠ listOfOne := by
  obtain ⟨u, r, hrun, hlisted, hother⟩ := exists_run_listOfOne
  have hread : ((listed listOfOne).readFile (updateBeside.target (listed listOfOne))).toOption =
      some listOfOne := by decide +kernel
  have hutf8 : ((TextContent.decode? listOfOne).map TextContent.encoding) = some .utf8 := by
    decide +kernel
  obtain ⟨s, -, hapart⟩ := apart_listOfOne
  obtain ⟨content, new, hdecode, hnew, -, hpre⟩ := target_keeps_bytes_iff hapart
    (fun _ => attempts_replaceText ['1']) (toOption_eq_some_iff.mp hread) hrun hlisted
  have hpath : updateBeside.target (listed listOfOne) = ⟨"UqiList.uni".toList⟩ := by
    decide +kernel
  rw [hdecode, Option.map_some] at hutf8
  rw [hpath] at hnew
  rw [hnew] at hother
  exact ⟨u, r, new, hrun, hnew, hpre (Option.some.inj hutf8),
    by simpa [Except.toOption] using hother⟩

/-- A list of codes that holds the mark of its encoding and one byte that is no character. -/
def markedAndMalformed : List UInt8 := [0xEF, 0xBB, 0xBF, 0xFF]

/-- A byte that is no character is not a reason to leave a list of codes alone if that holds a mark. It
is replaced by the bytes of another character. -/
theorem bytes_lost_behind_mark :
    ∃ u r new, runEach (fun _ t p content => t.replaceText ['1'] p content)
        (listed markedAndMalformed) updateBeside = .ok (u, r) ∧
      r.succeeds = true ∧ ⟨"UqiList.uni".toList⟩ ∈ r.written ∧
      (listed markedAndMalformed).readFile ⟨"UqiList.uni".toList⟩ = .ok markedAndMalformed ∧
      u.readFile ⟨"UqiList.uni".toList⟩ = .ok new ∧ ¬ markedAndMalformed <+: new := by
  have hlost : (runEach (fun _ t p content => t.replaceText ['1'] p content)
      (listed markedAndMalformed) updateBeside).toOption.any (fun x => x.2.succeeds &&
        x.2.written.contains ⟨"UqiList.uni".toList⟩ &&
        (x.1.readFile ⟨"UqiList.uni".toList⟩).toOption.any
          (!markedAndMalformed.isPrefixOf ·)) = true := by decide +kernel
  obtain ⟨u, r, hrun, htest⟩ := exists_of_any hlost
  simp only [Bool.and_eq_true] at htest
  obtain ⟨⟨hsucceeds, hlisted⟩, hread⟩ := htest
  obtain ⟨new, hnew, hpre⟩ := (Option.any_eq_true _ _).mp hread
  have hold : ((listed markedAndMalformed).readFile ⟨"UqiList.uni".toList⟩).toOption =
      some markedAndMalformed := by decide +kernel
  refine ⟨u, r, new, hrun, hsucceeds, List.contains_iff_mem.mp hlisted,
    toOption_eq_some_iff.mp hold, toOption_eq_some_iff.mp hnew, fun h => ?_⟩
  rw [List.isPrefixOf_iff_prefix.mpr h] at hpre
  cases hpre

/-! ## The file that was there -/

/-- A path leads to the file at its last name unless that is a link. -/
theorem eq_iff_not_endsInLink {p : Path} {dir : Key} {name : Text} {k : Key}
    {bytes : List UInt8} (hsite : t.Site p dir name) (hsep : p.endsWithSeparator = false)
    (hshort : ¬ Path.nameLimit < name.byteLength) (hk : t.locate p = .ok k)
    (hfile : t.get? k = some (.file bytes)) : k = dir ++ [name] ↔ ¬ t.EndsInLink p := by
  have hkey := hsite.siteKey?_eq
  cases he : t.get? (dir ++ [name]) with
  | none =>
    rw [hsite.locate_of_none hsep hshort he] at hk
    cases hk
  | some e =>
    by_cases hlink : ∃ l, e = .link l
    · obtain ⟨l, rfl⟩ := hlink
      refine ⟨?_, fun h => absurd ⟨hsep, _, l, hkey, he⟩ h⟩
      rintro rfl
      exact nomatch hfile.symm.trans he
    · have hno : ∀ l, e ≠ .link l := fun l hl => hlink ⟨l, hl⟩
      rw [hsite.locate_eq hsep hshort he hno] at hk
      refine ⟨fun _ => ?_, fun _ => (Except.ok.inj hk).symm⟩
      rintro ⟨-, k', l, hk', hl⟩
      obtain rfl := Option.some.inj (hkey.symm.trans hk')
      exact hno l (Option.some.inj (he.symm.trans hl))

/-- A list of codes that is written is found where it was before exactly if its path ends in no link. Then
the file that the path led to holds the new text, and the next run passes over it. Otherwise that file is
as it was, and the next run takes it for another one. -/
theorem target_written_where_found_iff (h : Apart t o mark s)
    (hsavings : ∀ i, (savings i).Attempts mark) {k : Key} (hk : t.locate (o.target t) = .ok k)
    (htemporary : ∀ f ∈ (s.settle o).changed, t.temporaryKey? mark f.path ≠ some k)
    (hrun : runEach savings t o = .ok (u, r)) (hlisted : o.target t ∈ r.written) :
    (u.get? k = some (.file (s.settle o).target.content.encode) ↔ ¬ t.EndsInLink (o.target t)) ∧
      (t.EndsInLink (o.target t) → u.get? k = t.get? k) ∧
      ∀ p, u.locate p = .ok k →
        ((start u o).leadsToTarget u p = true ↔ ¬ t.EndsInLink (o.target t)) := by
  obtain ⟨old, content, z, hwritten⟩ := h.targetWritten hsavings hk hrun hlisted
  obtain ⟨done, hdone, hmem, hwrote⟩ := hwritten.wrote
  obtain ⟨touched, hevolves, -⟩ := id hwrote.evolves
  have hsound := hevolves.sound h.sound
  obtain ⟨dir, name, hholds⟩ := hwrote.holds _ hmem
  have hplace := hholds.locate_eq hsound
  rw [h.target_path] at hplace
  have hkey : k = dir ++ [name] ↔ ¬ t.EndsInLink (o.target t) := by
    have hpieces : (o.target t).pieces ≠ [] := fun hnil => by
      have := hholds.site.last
      rw [h.target_path, hnil] at this
      cases this
    obtain ⟨hsep, dir', name', hsite⟩ := h.sound.site_of_file hpieces hk hwritten.file
    obtain ⟨rfl, rfl⟩ := (hevolves.site hsite).unique (h.target_path ▸ hholds.site)
    exact eq_iff_not_endsInLink hsite hsep (hsound.parent _ _ _ hholds.file).2.2.2.2.2 hk
      hwritten.file
  -- the old list is left alone where a link was replaced
  have hkept : t.EndsInLink (o.target t) → u.get? k = t.get? k := by
    intro hlink
    rw [hwritten.file]
    refine hwrote.kept hwritten.file (fun f hf hfk => ?_) htemporary
    rcases changed_cases (hdone f hf) with ⟨-, rfl⟩ | ⟨f₀, hf₀, rfl⟩
    · have hlocate := hwrote.locate_eq h.sound hf hfk
      rw [h.target_path, hplace] at hlocate
      exact hkey.mp (Except.ok.inj hlocate).symm hlink
    · exact (h.isResource hf₀).siteKey?_ne hk (path_edited o f₀ ▸ hfk)
  refine ⟨⟨fun hnew hlink => ?_, fun hno => ?_⟩, hkept, fun p hp => ?_⟩
  · rw [hkept hlink, hwritten.file, hwritten.text] at hnew
    refine TextContent.encode_extend_ne hwritten.read hwritten.head hwritten.added ?_
    exact (Entry.file.inj (Option.some.inj hnew)).symm
  · rw [hkey.mpr hno]
    exact hholds.file
  · have htarget : o.target u = o.target t := target_of_evolves hevolves hplace hholds.file
    unfold leadsToTarget
    rw [start_targetKey, htarget, hplace, hp, ← hkey]
    simp [Except.toOption]

/-- A list of codes that is no link has its new text where it was. -/
theorem list_found_listOfOne :
    ∃ s u r, scanned (listed listOfOne) updateBeside = .ok s ∧
      runEach (fun _ t p content => t.replaceText ['1'] p content) (listed listOfOne) updateBeside =
        .ok (u, r) ∧
      u.get? ["UqiList.uni".toList] =
        some (.file (s.settle updateBeside).target.content.encode) := by
  obtain ⟨u, r, hrun, hlisted, -⟩ := exists_run_listOfOne
  have hlocate : ((listed listOfOne).locate (updateBeside.target (listed listOfOne))).toOption =
      some ["UqiList.uni".toList] := by decide +kernel
  have hsite : (listed listOfOne).siteKey? (updateBeside.target (listed listOfOne)) =
      some ["UqiList.uni".toList] := by decide +kernel
  have hfile : (listed listOfOne).get? ["UqiList.uni".toList] =
      some (.file listOfOne) := by decide +kernel
  have hvacant : ∀ p ∈ [(⟨"UqiList.uni".toList⟩ : Path)],
      (listed listOfOne).temporaryKey? ['1'] p ≠ some ["UqiList.uni".toList] := by
    decide +kernel
  obtain ⟨s, hpaths, hapart⟩ := apart_listOfOne
  obtain ⟨hiff, -⟩ := target_written_where_found_iff hapart
    (fun _ => attempts_replaceText ['1']) (toOption_eq_some_iff.mp hlocate)
    (fun f hf => hvacant f.path (hpaths ▸ List.mem_map_of_mem hf)) hrun hlisted
  refine ⟨s, u, r, hapart.scan, hrun, hiff.mpr ?_⟩
  rintro ⟨-, k, l, hk, hlink⟩
  obtain rfl := Option.some.inj (hsite.symm.trans hk)
  exact nomatch hfile.symm.trans hlink

/-- A string that waits for a code, and a list of codes that is reached by a link. -/
def linkedList : FileTree :=
  ((oneQuestion.put ["lists".toList] .directory).put ["lists".toList, "list.uni".toList]
    (.file listOfOne)).put ["UqiList.uni".toList] (.link ⟨"lists/list.uni".toList⟩)

/-- An update run that has the directory of that list among its roots. -/
def updateLists : Options :=
  { updateBeside with roots := [⟨"root".toList⟩, ⟨"forms".toList⟩, ⟨"lists".toList⟩] }

/-- A list of codes that is reached by a link is as it was, and the next run finds its definitions given
twice. -/
theorem list_left_behind_link :
    ∃ u r, runEach (fun _ t p content => t.replaceText ['1'] p content) linkedList updateLists =
        .ok (u, r) ∧
      r.succeeds = true ∧ ⟨"UqiList.uni".toList⟩ ∈ r.written ∧
      linkedList.locate ⟨"UqiList.uni".toList⟩ = .ok ["lists".toList, "list.uni".toList] ∧
      u.get? ["lists".toList, "list.uni".toList] = some (.file listOfOne) ∧
      ∃ v r', runEach (fun _ t p content => t.replaceText ['2'] p content) u updateLists =
          .ok (v, r') ∧
        ∃ i ∈ r'.issues, i.kind = .duplicateIdentifier := by
  have hleft : (runEach (fun _ t p content => t.replaceText ['1'] p content) linkedList
      updateLists).toOption.any (fun x => x.2.succeeds &&
        x.2.written.contains ⟨"UqiList.uni".toList⟩ &&
        x.1.get? ["lists".toList, "list.uni".toList] == some (.file listOfOne) &&
        (runEach (fun _ t p content => t.replaceText ['2'] p content) x.1
          updateLists).toOption.any fun y => y.2.issues.any (·.kind = .duplicateIdentifier)) =
      true := by decide +kernel
  obtain ⟨u, r, hrun, htest⟩ := exists_of_any hleft
  simp only [Bool.and_eq_true, beq_iff_eq] at htest
  obtain ⟨⟨⟨hsucceeds, hlisted⟩, hfile⟩, hagain⟩ := htest
  obtain ⟨v, r', hrun', htwice⟩ := exists_of_any hagain
  have hlocate : (linkedList.locate ⟨"UqiList.uni".toList⟩).toOption =
      some ["lists".toList, "list.uni".toList] := by decide +kernel
  exact ⟨u, r, hrun, hsucceeds, List.contains_iff_mem.mp hlisted, toOption_eq_some_iff.mp hlocate,
    hfile, v, r', hrun', by simpa using htwice⟩

end Session

end FirmwareIds
