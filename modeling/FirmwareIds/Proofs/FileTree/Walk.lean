import FirmwareIds.FileTree.Walk
import FirmwareIds.Proofs.FileTree.Change
import FirmwareIds.Proofs.Text.Ordering

/-!
# What a walk finds

Every file that a walk finds stands where its path says: the way of the steps before its last name
leads to its directory, and its last name is its name there (`foundAt_of_mem_walk`). So a path that a
walk has formed, if it can be taken, leads to the file and to nothing else (`FoundAt.locate_eq`).
-/

namespace FirmwareIds.FileTree

open FirmwareIds.Path

variable {t u : FileTree} {excluded : List Path} {p root : Path} {dir k : Key} {name : Text}

/-- What a walk finds at one child of a directory. -/
def walkChild (t : FileTree) (excluded : List Path) (dir : Path) (k : Key) (child : Text × Entry) :
    List Found :=
  if excluded.any ((dir.join ⟨child.1⟩).same ·) then []
  else
    match child.2 with
    | .file _ => [.file (dir.join ⟨child.1⟩)]
    | .link _ => []
    | .directory => t.walkBelow excluded (dir.join ⟨child.1⟩) (k ++ [child.1])

theorem walkBelow_eq (t : FileTree) (excluded : List Path) (dir : Path) (k : Key) :
    t.walkBelow excluded dir k =
      match dir.fault? with
      | some fault => [.unlisted dir fault]
      | none => (t.children k).flatMap (t.walkChild excluded dir k) := by
  rw [walkBelow]
  cases dir.fault? with
  | some fault => rfl
  | none =>
    dsimp only
    conv => rhs; rw [← List.attach_map_subtype_val (t.children k), List.flatMap_map]
    refine congrArg (List.flatMap · _) (funext fun ⟨⟨name, e⟩, h⟩ => ?_)
    unfold walkChild
    cases e <;> rfl

/-- The names of a directory are listed in their order, each once. -/
theorem pairwise_children (t : FileTree) (k : Key) :
    (t.children k).Pairwise fun a b => Text.le a.1 b.1 = true ∧ a.1 ≠ b.1 := by
  have hle : (t.children k).Pairwise fun a b => Text.le a.1 b.1 = true := by
    unfold children
    refine List.pairwise_mergeSort (fun a b c h h' => ?_) (fun a b => ?_) _
    · exact Text.le_trans h h'
    · exact Text.le_total ..
  have hkeys : t.entries.Pairwise fun x y => x.1 ≠ y.1 := List.pairwise_map.mp t.distinct
  have hdistinct : (t.children k).Pairwise fun a b => a.1 ≠ b.1 := by
    refine (List.mergeSort_perm ..).symm.pairwise ?_ fun h => Ne.symm h
    refine List.pairwise_filterMap.mpr (hkeys.imp fun {x y} hne a ha b hb hname => hne ?_)
    obtain ⟨n, hn, rfl⟩ := Option.map_eq_some_iff.mp ha
    obtain ⟨n', hn', rfl⟩ := Option.map_eq_some_iff.mp hb
    rw [nameIn?_eq_some_iff.mp hn, nameIn?_eq_some_iff.mp hn', show n = n' from hname]
  exact hle.and hdistinct

/-- A file that a walk has found: it stands in the directory `dir` under `name`. -/
structure FoundAt (t : FileTree) (p : Path) (dir : Key) (name : Text) : Prop where
  last : p.pieces.getLast? = some name
  way : ∃ left, t.Way left dir linkLimit (startFrom t.here p) p.pieces.dropLast
  file : ∃ bytes, t.get? (dir ++ [name]) = some (.file bytes)
  separator : p.endsWithSeparator = false
  named : IsEntryName name

theorem FoundAt.stay (h : t.FoundAt p dir name) : isStay name = false :=
  isStay_eq_false_iff.mpr ⟨h.named.1, h.named.2.2.1⟩

theorem FoundAt.steps_eq (h : t.FoundAt p dir name) : p.steps = p.pieces.dropLast ++ [name] := by
  obtain ⟨front, hfront⟩ := List.getLast?_eq_some_iff.mp h.last
  unfold steps
  rw [h.separator, hfront, List.dropLast_concat]
  exact List.append_nil _

theorem FoundAt.fileName?_eq (h : t.FoundAt p dir name) : p.fileName? = some name := by
  obtain ⟨front, hfront⟩ := List.getLast?_eq_some_iff.mp h.last
  have hnames : p.names = plain front ++ [name] := by
    rw [← plain_pieces, hfront, plain_append]
    simp [plain, h.stay]
  exact fileName?_of_names hnames h.named.2.2.2.1

theorem FoundAt.site (h : t.FoundAt p dir name) (hp : p.fault? = none) : t.Site p dir name where
  valid := hp
  last := h.last
  stay := h.stay
  up := h.named.2.2.2.1
  way := h.way

/-- The file is what the path leads to. -/
theorem FoundAt.locate_eq (h : t.FoundAt p dir name) (hp : p.fault? = none) :
    t.locate p = .ok (dir ++ [name]) := by
  obtain ⟨bytes, hfile⟩ := h.file
  exact (h.site hp).locate_eq h.separator h.named.2.2.2.2 hfile nofun

theorem FoundAt.eq_of_readFile (h : t.FoundAt p dir name) {bytes : List UInt8}
    (hread : t.readFile p = .ok bytes) :
    t.Site p dir name ∧ t.get? (dir ++ [name]) = some (.file bytes) := by
  obtain ⟨k, hk, hfile⟩ := readFile_eq_ok_iff.mp hread
  have hp : p.fault? = none := (locate_eq_ok_iff.mp hk).1
  rw [h.locate_eq hp] at hk
  cases hk
  exact ⟨h.site hp, hfile⟩

/-- Another path with the same parts has its last name there as well. -/
theorem FoundAt.site_of_same {q : Path} (h : t.FoundAt p dir name) (hsame : p.same q = true)
    (hvalid : q.fault? = none) {n : Text} (hlast : q.pieces.getLast? = some n)
    (hstay : isStay n = false) : t.Site q dir name := by
  obtain ⟨hnames, habs⟩ := names_eq_of_same hsame
  obtain ⟨left, hway⟩ := h.way
  obtain ⟨front, hfront⟩ := List.getLast?_eq_some_iff.mp hlast
  obtain ⟨front', hfront'⟩ := List.getLast?_eq_some_iff.mp h.last
  have hname : isStay name = false := isStay_eq_false_iff.mpr ⟨h.named.1, h.named.2.2.1⟩
  -- without the dots, both paths have the same pieces before their last names
  have hplain : plain front' ++ [name] = plain front ++ [n] := by
    have := hnames
    rw [← plain_pieces, ← plain_pieces, hfront, hfront', plain_append, plain_append] at this
    simpa [plain, hname, hstay] using this
  obtain ⟨hfronts, hn⟩ := List.append_inj' hplain rfl
  obtain rfl := List.singleton_inj.mp hn
  rw [hfront', List.dropLast_concat] at hway
  refine ⟨hvalid, hlast, hstay, h.named.2.2.2.1, left, ?_⟩
  rw [hfront, List.dropLast_concat, startFrom_eq rfl habs.symm]
  exact hway.of_plain hfronts

/-- The path of a directory goes on to the names in it: a file is found there. -/
theorem foundAt_of_child (hs : t.Sound) {dir : Path} {k : Key} {left : Nat}
    (hway : t.Way left k linkLimit (startFrom t.here dir) dir.pieces) {name : Text}
    {bytes : List UInt8} (he : t.get? (k ++ [name]) = some (.file bytes)) :
    t.FoundAt (dir.join ⟨name⟩) k name := by
  have hname := (hs.parent k name _ he).2
  obtain ⟨hpieces, habs, hsep⟩ := dir.join_name hname.2.1 hname.1
  rw [← startFrom_eq rfl habs] at hway
  refine ⟨?_, ⟨left, ?_⟩, ⟨bytes, he⟩, hsep, hname⟩
  · rw [hpieces, List.getLast?_concat]
  · rw [hpieces, List.dropLast_concat]
    exact hway

/-- And a directory is entered there. -/
theorem way_of_child (hs : t.Sound) {dir : Path} {k : Key} {left : Nat}
    (hway : t.Way left k linkLimit (startFrom t.here dir) dir.pieces) {name : Text}
    (he : t.get? (k ++ [name]) = some .directory) :
    t.Way left (k ++ [name]) linkLimit (startFrom t.here (dir.join ⟨name⟩))
      (dir.join ⟨name⟩).pieces := by
  have hname := (hs.parent k name _ he).2
  obtain ⟨hpieces, habs, -⟩ := dir.join_name hname.2.1 hname.1
  rw [← startFrom_eq rfl habs] at hway
  have hstep : t.NameStep k name := ⟨hway.directory,
    isStay_eq_false_iff.mpr ⟨hname.1, hname.2.2.1⟩, hname.2.2.2.1, hname.2.2.2.2⟩
  rw [hpieces]
  exact hway.append (.down hstep he (.done he))

/-- A walk stays on the ways of the tree: it goes from the key of a directory to the keys of what the
directory holds, as the path of the directory goes on to their names. -/
theorem foundAt_of_mem_walkBelow (hs : t.Sound) {dir : Path} {k : Key} {left : Nat}
    (hway : t.Way left k linkLimit (startFrom t.here dir) dir.pieces)
    (h : Found.file p ∈ t.walkBelow excluded dir k) : ∃ k' name, t.FoundAt p k' name := by
  rw [walkBelow_eq] at h
  split at h
  · cases List.mem_singleton.mp h
  obtain ⟨⟨name, e⟩, hchild, h⟩ := List.mem_flatMap.mp h
  have he := mem_entries_iff.mp (mem_children.mp hchild)
  unfold walkChild at h
  split at h
  · cases h
  cases e with
  | link => cases h
  | file bytes =>
    cases List.mem_singleton.mp h
    exact ⟨k, name, foundAt_of_child hs hway he⟩
  | directory => exact foundAt_of_mem_walkBelow hs (way_of_child hs hway he) h
termination_by t.depth - k.length
decreasing_by
  have := length_lt_depth hchild
  rw [List.length_append, List.length_singleton]
  omega

theorem foundAt_of_mem_walk (hs : t.Sound) {found : List Found}
    (hwalk : t.walk root excluded = .ok found) (h : Found.file p ∈ found) :
    ∃ dir name, t.FoundAt p dir name := by
  unfold walk at hwalk
  cases hk : t.locate root with
  | error fault => rw [hk] at hwalk; cases hwalk
  | ok k =>
    rw [hk] at hwalk
    dsimp only at hwalk
    split at hwalk
    · cases hwalk
    · next hdir =>
      split at hwalk
      · cases hwalk
        cases h
      · cases hwalk
        have hdir := Decidable.not_not.mp hdir
        have hisdir : t.isDirectory root = true := by
          unfold isDirectory
          rw [hk]
          exact beq_iff_eq.mpr hdir
        obtain ⟨hp, left, stop, hway⟩ := isDirectory_iff.mp hisdir
        rw [locate_of_way hp hway] at hk
        cases hk
        exact foundAt_of_mem_walkBelow hs hway h

end FirmwareIds.FileTree
