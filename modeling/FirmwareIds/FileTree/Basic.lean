import FirmwareIds.Path

/-!
# The file tree

The files that a run sees and changes, as a value. An entry lies at a key, the names on the way
from the root to it, and no two entries lie at one key. So a change of one entry is a change at
one key: `get?_put` and `get?_erase` say what it does to every key. Links are entries of
their own; following them is the matter of `FileTree.Locate`.
-/

namespace FirmwareIds

/-- The names on the way from the root to an entry. -/
abbrev Key := List Text

/-- What can lie at a key. -/
inductive Entry where
  /-- A directory; what it holds lies at longer keys. -/
  | directory
  /-- A file with its bytes. -/
  | file (bytes : List UInt8)
  /-- A symbolic link. -/
  | link (target : Path)
  deriving DecidableEq

/-- A tree of files and the directory that relative paths start from. -/
structure FileTree where
  /-- The entries, each with its key. -/
  entries : List (Key × Entry)
  /-- The working directory. -/
  here : Key
  /-- An entry has a key of its own. -/
  distinct : (entries.map (·.1)).Nodup

namespace FileTree

/-- The entry at a key. -/
def get? (t : FileTree) (k : Key) : Option Entry := (t.entries.find? (·.1 == k)).map (·.2)

/-- The tree without the entries that `gone` picks by their keys. -/
def without (t : FileTree) (gone : Key → Bool) : FileTree where
  entries := t.entries.filter fun e => !gone e.1
  here := t.here
  distinct := t.distinct.sublist (List.filter_sublist.map _)

/-- The tree with nothing at a key. -/
def erase (t : FileTree) (k : Key) : FileTree := t.without (· == k)

/-- The tree with an entry laid at a key, over what was there. -/
def put (t : FileTree) (k : Key) (e : Entry) : FileTree where
  entries := (k, e) :: (t.erase k).entries
  here := t.here
  distinct := by
    rw [List.map_cons, List.nodup_cons]
    refine ⟨fun h => ?_, (t.erase k).distinct⟩
    obtain ⟨e', he, hk⟩ := List.mem_map.mp h
    have := (List.mem_filter.mp he).2
    simp [hk] at this

/-- The tree as seen from another working directory. -/
def within (t : FileTree) (dir : Key) : FileTree := { t with here := dir }

theorem mem_entries_iff {t : FileTree} {k : Key} {e : Entry} :
    (k, e) ∈ t.entries ↔ t.get? k = some e := by
  unfold get?
  have hd := t.distinct
  generalize t.entries = es at hd ⊢
  induction es with
  | nil => simp
  | cons x xs ih =>
    rw [List.map_cons, List.nodup_cons] at hd
    rw [List.mem_cons, List.find?_cons]
    by_cases hx : x.1 = k
    · simp only [hx, beq_self_eq_true, Option.map_some, Option.some.injEq]
      constructor
      · rintro (rfl | hm)
        · rfl
        · exact absurd (List.mem_map.mpr ⟨_, hm, hx.symm⟩) hd.1
      · rintro rfl
        exact Or.inl (Prod.ext hx.symm rfl)
    · simp only [beq_eq_false_iff_ne.mpr hx]
      exact ⟨fun h => (ih hd.2).mp (h.resolve_left fun he => hx (by rw [← he])),
        fun h => Or.inr ((ih hd.2).mpr h)⟩

/-- What is picked is gone, and nothing else is. -/
@[simp] theorem get?_without (t : FileTree) (gone : Key → Bool) (k : Key) :
    (t.without gone).get? k = if gone k then none else t.get? k := by
  apply Option.ext
  intro e
  rw [← mem_entries_iff]
  show (k, e) ∈ t.entries.filter _ ↔ _
  rw [List.mem_filter, mem_entries_iff]
  cases gone k <;> simp

/-- A removal is seen at its key alone. -/
@[simp] theorem get?_erase (t : FileTree) (k k' : Key) :
    (t.erase k).get? k' = if k' = k then none else t.get? k' := by
  unfold erase
  simp

/-- A change at one key is seen at that key alone. -/
@[simp] theorem get?_put (t : FileTree) (k k' : Key) (e : Entry) :
    (t.put k e).get? k' = if k' = k then some e else t.get? k' := by
  have : (t.put k e).get? k' = if k = k' then some e else (t.erase k).get? k' := by
    unfold get? put
    by_cases h : k = k'
    · simp [h]
    · simp only [List.find?_cons, beq_eq_false_iff_ne.mpr h, h, if_false]
  rw [this, get?_erase]
  by_cases h : k' = k
  · simp [h]
  · simp [h, Ne.symm h]

@[simp] theorem here_put (t : FileTree) (k : Key) (e : Entry) : (t.put k e).here = t.here := rfl

@[simp] theorem here_erase (t : FileTree) (k : Key) : (t.erase k).here = t.here := rfl

/-- The name under which the key `k` lies in the directory `dir`. -/
def nameIn? (dir k : Key) : Option Text := if k.dropLast = dir then k.getLast? else none

theorem nameIn?_eq_some_iff {dir k : Key} {n : Text} :
    nameIn? dir k = some n ↔ k = dir ++ [n] := by
  unfold nameIn?
  constructor
  · intro h
    split at h
    · rename_i hd
      obtain ⟨l, rfl⟩ := List.getLast?_eq_some_iff.mp h
      rw [List.dropLast_concat] at hd
      rw [hd]
    · cases h
  · rintro rfl
    simp

/-- What a directory holds, in the order of the names. -/
def children (t : FileTree) (dir : Key) : List (Text × Entry) :=
  (t.entries.filterMap fun (k, e) => (nameIn? dir k).map (·, e)).mergeSort
    fun a b => Text.le a.1 b.1

theorem mem_children {t : FileTree} {dir : Key} {n : Text} {e : Entry} :
    (n, e) ∈ t.children dir ↔ (dir ++ [n], e) ∈ t.entries := by
  unfold children
  rw [List.mem_mergeSort, List.mem_filterMap]
  constructor
  · rintro ⟨⟨k, e'⟩, hm, h⟩
    obtain ⟨n', hn, h⟩ := Option.map_eq_some_iff.mp h
    cases h
    rw [nameIn?_eq_some_iff.mp hn] at hm
    exact hm
  · intro hm
    exact ⟨_, hm, by simp [nameIn?]⟩

/-- A tree that holds nothing but the directories down to the working directory. -/
def bare (here : Key) : FileTree :=
  ((List.range (here.length + 1)).map (here.take ·)).foldl
    (fun t k => t.put k .directory) ⟨[], here, by simp⟩

end FileTree

end FirmwareIds
