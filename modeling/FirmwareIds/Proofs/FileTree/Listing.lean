import FirmwareIds.Proofs.FileTree.Walk
import Mathlib.Data.List.Induction
import Mathlib.Data.List.Lex
import Mathlib.Data.Set.List

/-!
# What a walk lists

A walk lists the files below a root that are not excluded and lie in no excluded directory
(`Included`), and nothing else, each of them once and in the order of their parts
(`walk_lists_included`). Both go from a directory to what it holds: a file is included under a name if
the name is not excluded and the file is included below it (`included_cons_iff`), and what is below two
names is in the order of these names.
-/

namespace FirmwareIds

/-! ## Paths of what lies below -/

namespace Path

/-- The path of what lies below a path under names, each in the one before it. -/
def below (p : Path) (names : List Text) : Path := names.foldl (fun dir name => dir.join ⟨name⟩) p

/-- Names are ordered by their bytes. Paths below one root differ in nothing but names. -/
inductive Part.Before : Part → Part → Prop
  | name {n n' : Text} (h : Utf8.encode n < Utf8.encode n') : Before (.name n) (.name n')

/-- Paths are ordered part by part. -/
def Before (p q : Path) : Prop := List.Lex Part.Before p.parts q.parts

variable {p q : Path} {n : Text}

theorem Part.Before.ne {a b : Part} (h : a.Before b) : a ≠ b := by
  intro hsame
  subst hsame
  cases h with
  | name h => exact List.lt_irrefl _ h

/-- Of paths that are in order, no two are the same. -/
theorem Before.parts_ne (h : p.Before q) : p.parts ≠ q.parts :=
  List.Lex.to_ne (List.Lex.imp (fun _ _ => Part.Before.ne) _ _ h)

theorem beginsWithDot_cons {c : Char} {s : Text} :
    beginsWithDot ⟨c :: s⟩ = true ↔ c = '.' ∧ (s = [] ∨ s.head? = some '/') := by
  rw [beginsWithDot_iff]
  constructor
  · intro ⟨rest, htext, hrest⟩
    obtain ⟨rfl, rfl⟩ := List.cons.inj htext
    exact ⟨rfl, hrest⟩
  · intro ⟨hc, hs⟩
    exact ⟨s, by rw [hc], hs⟩

/-- Whether a path begins with a dot is seen from the path alone, not from a name in it. -/
theorem beginsWithDot_join_name (p : Path) (hslash : '/' ∉ n) (hne : n ≠ []) (hdot : n ≠ ['.']) :
    (p.join ⟨n⟩).beginsWithDot = p.beginsWithDot := by
  have hhead : n.head? ≠ some '/' := fun he => hslash (List.mem_of_mem_head? he)
  have hrel : isAbsolute ⟨n⟩ = false := beq_eq_false_iff_ne.mpr hhead
  unfold join
  rw [hrel, if_neg Bool.false_ne_true, Bool.eq_iff_iff]
  rcases p with ⟨_ | ⟨c, s⟩⟩
  · -- the name stands alone
    obtain ⟨c, s, rfl⟩ := List.exists_cons_of_ne_nil hne
    refine iff_of_false ?_ Bool.false_ne_true
    show ¬ beginsWithDot ⟨c :: s⟩ = true
    rw [beginsWithDot_cons]
    rintro ⟨rfl, rfl | hs⟩
    · exact hdot rfl
    · exact hslash (List.mem_cons_of_mem _ (List.mem_of_mem_head? hs))
  · have hmore : ∀ more : Text, more ≠ [] → (c :: s = ['.'] → more.head? = some '/') →
        (beginsWithDot ⟨c :: s ++ more⟩ = true ↔ beginsWithDot ⟨c :: s⟩ = true) := by
      intro more hne hslash
      rw [List.cons_append, beginsWithDot_cons, beginsWithDot_cons]
      refine and_congr_right fun hc => ?_
      cases s with
      | nil => exact iff_of_true (Or.inr (hslash (by rw [hc]))) (Or.inl rfl)
      | cons d s => simp
    split
    · next hends =>
      refine hmore n hne fun hone => ?_
      rw [hone] at hends
      exact absurd hends (by decide)
    · exact hmore ('/' :: n) (List.cons_ne_nil _ _) fun _ => rfl

/-- A path and a name in it: the parts of the path and the name. -/
theorem parts_join_name (p : Path) (h : FileTree.IsEntryName n) :
    (p.join ⟨n⟩).parts = p.parts ++ [.name n] := by
  obtain ⟨hne, hslash, hdot, hup, -⟩ := h
  obtain ⟨hpieces, habs, -⟩ := p.join_name hslash hne
  have hpart : Part.ofPiece? n = some (.name n) := by
    unfold Part.ofPiece?
    rw [if_neg hdot]
    exact if_neg hup
  unfold parts
  rw [hpieces, habs, p.beginsWithDot_join_name hslash hne hdot, List.filterMap_append,
    List.filterMap_cons, hpart]
  dsimp only
  split
  · rfl
  · split <;> rfl

theorem parts_below {names : List Text} (h : ∀ name ∈ names, FileTree.IsEntryName name) (p : Path) :
    (p.below names).parts = p.parts ++ names.map .name := by
  induction names generalizing p with
  | nil => exact (List.append_nil _).symm
  | cons name names ih =>
    show ((p.join ⟨name⟩).below names).parts = _
    rw [ih (fun n hn => h n (List.mem_cons_of_mem _ hn)),
      p.parts_join_name (h name (List.mem_cons_self ..)), List.append_assoc]
    rfl

/-- The names can be told from the path that they make. -/
theorem below_injective {names names' : List Text} (h : ∀ name ∈ names, FileTree.IsEntryName name)
    (h' : ∀ name ∈ names', FileTree.IsEntryName name) (hsame : p.below names = p.below names') :
    names = names' := by
  have hparts := congrArg parts hsame
  rw [parts_below h, parts_below h', List.append_cancel_left_eq] at hparts
  exact List.map_injective_iff.mpr (fun _ _ hname => Part.name.inj hname) hparts

end Path

namespace FileTree

open FirmwareIds.Path

variable {t : FileTree} {excluded : List Path} {dir root : Path} {k : Key} {name : Text}
  {names rest : List Text}

/-- What lies below a directory lies there under names, and in directories. -/
theorem Sound.of_below (hs : t.Sound) {e : Entry} (he : t.get? (k ++ names) = some e) :
    (∀ name ∈ names, IsEntryName name) ∧
      ∀ above, above <+: names → above ≠ names → t.get? (k ++ above) = some .directory := by
  induction names using List.reverseRecOn generalizing e with
  | nil => exact ⟨nofun, fun above habove hne => absurd (List.prefix_nil.mp habove) hne⟩
  | append_singleton names name ih =>
    rw [← List.append_assoc] at he
    obtain ⟨hdir, hname⟩ := hs.parent _ _ _ he
    obtain ⟨hnames, hdirs⟩ := ih hdir
    constructor
    · intro n hn
      rcases List.mem_append.mp hn with hn | hn
      · exact hnames n hn
      · exact List.mem_singleton.mp hn ▸ hname
    · intro above habove hne
      have habove := (List.prefix_concat_iff.mp habove).resolve_left hne
      by_cases hlast : above = names
      · exact hlast ▸ hdir
      · exact hdirs above habove hlast

/-! ## Files to be listed -/

/-- The file that lies under the names is to be listed: neither its path nor that of a directory which
it lies in is an excluded one. -/
structure Included (t : FileTree) (excluded : List Path) (dir : Path) (k : Key) (names : List Text) :
    Prop where
  file : ∃ bytes, t.get? (k ++ names) = some (.file bytes)
  kept : ∀ above, above <+: names → above ≠ [] → ∀ ex ∈ excluded, (dir.below above).parts ≠ ex.parts

theorem included_nil_iff :
    t.Included excluded dir k [] ↔ ∃ bytes, t.get? k = some (.file bytes) := by
  constructor
  · intro h
    have hfile := h.file
    rwa [List.append_nil] at hfile
  · intro h
    exact ⟨by rwa [List.append_nil], fun above habove hne => absurd (List.prefix_nil.mp habove) hne⟩

theorem included_cons_iff : t.Included excluded dir k (name :: rest) ↔
    (∀ ex ∈ excluded, (dir.join ⟨name⟩).parts ≠ ex.parts) ∧
      t.Included excluded (dir.join ⟨name⟩) (k ++ [name]) rest := by
  have hkey : k ++ [name] ++ rest = k ++ name :: rest := by
    rw [List.append_assoc]
    rfl
  constructor
  · intro h
    refine ⟨h.kept [name] ⟨rest, rfl⟩ (List.cons_ne_nil _ _), hkey ▸ h.file, ?_⟩
    intro above habove _
    exact h.kept (name :: above) (List.cons_prefix_cons.mpr ⟨rfl, habove⟩) (List.cons_ne_nil _ _)
  · intro ⟨hname, h⟩
    refine ⟨hkey ▸ h.file, fun above habove hne => ?_⟩
    cases above with
    | nil => exact absurd rfl hne
    | cons first above =>
      obtain ⟨rfl, hrest⟩ := List.cons_prefix_cons.mp habove
      by_cases hnil : above = []
      · rw [hnil]
        exact hname
      · exact h.kept above hrest hnil

/-- Only a directory has something below it. -/
theorem Included.eq_nil (hs : t.Sound) (h : t.Included excluded dir k names)
    (hk : t.get? k ≠ some .directory) : names = [] := by
  obtain ⟨bytes, hfile⟩ := h.file
  by_contra hne
  have hdir := (hs.of_below hfile).2 [] List.nil_prefix (Ne.symm hne)
  rw [List.append_nil] at hdir
  exact hk hdir

/-- Nothing is included at a link or behind one. -/
theorem not_included_of_link (hs : t.Sound) {target : Path}
    (hlink : t.get? (k ++ names) = some (.link target)) :
    ¬ t.Included excluded dir k (names ++ rest) := by
  intro h
  obtain ⟨bytes, hfile⟩ := h.file
  by_cases hnil : rest = []
  · rw [hnil, List.append_nil, hlink] at hfile
    cases hfile
  · have hdir := (hs.of_below hfile).2 names (List.prefix_append ..)
      fun hsame => hnil (List.self_eq_append_right.mp hsame)
    rw [hlink] at hdir
    cases hdir

theorem Included.named (hs : t.Sound) (h : t.Included excluded dir k names) :
    ∀ name ∈ names, IsEntryName name :=
  h.file.elim fun _ hfile => (hs.of_below hfile).1

/-! ## The walk -/

/-- The directory and all directories below it can be listed. -/
def Listable (t : FileTree) (dir : Path) (k : Key) : Prop :=
  ∀ names, t.get? (k ++ names) = some .directory → (dir.below names).fault? = none

theorem listable_iff : t.Listable dir k ↔ ∀ x ∈ t.entries, x.2 = .directory → k <+: x.1 →
    (dir.below (x.1.drop k.length)).fault? = none := by
  constructor
  · rintro h ⟨_, e⟩ hx rfl ⟨names, rfl⟩
    rw [List.drop_left]
    exact h names (mem_entries_iff.mp hx)
  · intro h names hdir
    have hnames := h _ (mem_entries_iff.mpr hdir) rfl (List.prefix_append ..)
    rwa [List.drop_left] at hnames

instance : Decidable (t.Listable dir k) := decidable_of_iff _ listable_iff.symm

theorem Listable.child (h : t.Listable dir k) (name : Text) :
    t.Listable (dir.join ⟨name⟩) (k ++ [name]) := by
  intro names hdir
  rw [List.append_assoc] at hdir
  exact h (name :: names) hdir

theorem walkBelow_of_listable (h : t.Listable dir k) (hdir : t.get? k = some .directory) :
    t.walkBelow excluded dir k = (t.children k).flatMap (t.walkChild excluded dir k) := by
  have hfault : dir.fault? = none := h [] (by rwa [List.append_nil])
  rw [walkBelow_eq, hfault]

/-- A walk finds the files that are included below an entry, if it does so where the entry is a
directory. -/
theorem mem_walkChild_iff (hs : t.Sound) {e : Entry} (he : t.get? (k ++ [name]) = some e) {x : Found}
    (hbelow : e = .directory → (x ∈ t.walkBelow excluded (dir.join ⟨name⟩) (k ++ [name]) ↔
      ∃ rest, t.Included excluded (dir.join ⟨name⟩) (k ++ [name]) rest ∧
        x = .file ((dir.join ⟨name⟩).below rest))) :
    x ∈ t.walkChild excluded dir k (name, e) ↔
      ∃ rest, t.Included excluded dir k (name :: rest) ∧ x = .file (dir.below (name :: rest)) := by
  have hany : excluded.any ((dir.join ⟨name⟩).same ·) = true ↔
      ¬ ∀ ex ∈ excluded, (dir.join ⟨name⟩).parts ≠ ex.parts := by
    simp [Path.same]
  unfold walkChild
  dsimp only
  split
  · next hex =>
    refine iff_of_false List.not_mem_nil ?_
    intro ⟨rest, h, _⟩
    exact hany.mp hex (included_cons_iff.mp h).1
  · next hex =>
    have hkept := Decidable.not_not.mp (mt hany.mpr hex)
    have hrest : (∃ rest, t.Included excluded dir k (name :: rest) ∧
        x = .file (dir.below (name :: rest))) ↔
          ∃ rest, t.Included excluded (dir.join ⟨name⟩) (k ++ [name]) rest ∧
            x = .file ((dir.join ⟨name⟩).below rest) :=
      exists_congr fun rest => and_congr_left fun _ =>
        included_cons_iff.trans (and_iff_right hkept)
    rw [hrest]
    cases e with
    | file bytes =>
      rw [List.mem_singleton]
      constructor
      · intro hx
        exact ⟨[], included_nil_iff.mpr ⟨bytes, he⟩, hx⟩
      · intro ⟨rest, h, hx⟩
        rw [h.eq_nil hs (by rw [he]; nofun)] at hx
        exact hx
    | link target =>
      refine iff_of_false List.not_mem_nil ?_
      intro ⟨rest, h, _⟩
      rw [h.eq_nil hs (by rw [he]; nofun), included_nil_iff, he] at h
      cases h.choose_spec
    | directory => exact hbelow rfl

theorem mem_walkBelow_iff (hs : t.Sound) {dir : Path} {k : Key} (hdir : t.get? k = some .directory)
    (hlistable : t.Listable dir k) (x : Found) : x ∈ t.walkBelow excluded dir k ↔
      ∃ names, t.Included excluded dir k names ∧ x = .file (dir.below names) := by
  have hchild : ∀ name e, t.get? (k ++ [name]) = some e →
      (x ∈ t.walkChild excluded dir k (name, e) ↔ ∃ rest, t.Included excluded dir k (name :: rest) ∧
        x = .file (dir.below (name :: rest))) := by
    intro name e he
    refine mem_walkChild_iff hs he fun hdirectory => ?_
    -- the recursion goes down from the longest key to the key of the directory
    have hdeeper := length_lt_depth (mem_children.mpr (mem_entries_iff.mpr he))
    exact mem_walkBelow_iff hs (hdirectory ▸ he) (hlistable.child name) x
  rw [walkBelow_of_listable hlistable hdir, List.mem_flatMap]
  constructor
  · intro ⟨⟨name, e⟩, hmem, hx⟩
    obtain ⟨rest, h, hx⟩ := (hchild name e (mem_entries_iff.mp (mem_children.mp hmem))).mp hx
    exact ⟨name :: rest, h, hx⟩
  · intro ⟨names, h, hx⟩
    obtain ⟨bytes, hfile⟩ := h.file
    cases names with
    | nil =>
      rw [List.append_nil, hdir] at hfile
      cases hfile
    | cons name rest =>
      have hentry : ∃ e, t.get? (k ++ [name]) = some e := by
        by_cases hnil : rest = []
        · exact ⟨_, hnil ▸ hfile⟩
        · exact ⟨_, (hs.of_below hfile).2 [name] ⟨rest, rfl⟩ (by simpa using Ne.symm hnil)⟩
      obtain ⟨e, he⟩ := hentry
      exact ⟨(name, e), mem_children.mpr (mem_entries_iff.mpr he),
        (hchild name e he).mpr ⟨rest, h, hx⟩⟩
termination_by t.depth - k.length
decreasing_by
  rw [List.length_append, List.length_singleton]
  omega

/-- What a walk finds is in the order of the paths. -/
theorem pairwise_walkBelow (hs : t.Sound) {dir : Path} {k : Key} (hdir : t.get? k = some .directory)
    (hlistable : t.Listable dir k) :
    (t.walkBelow excluded dir k).Pairwise fun x y => ∃ p q, x = .file p ∧ y = .file q ∧ p.Before q := by
  have hincluded : ∀ {name e x}, (name, e) ∈ t.children k →
      x ∈ t.walkChild excluded dir k (name, e) → ∃ rest,
        t.Included excluded dir k (name :: rest) ∧ x = .file (dir.below (name :: rest)) := by
    intro name e x hmem
    have he := mem_entries_iff.mp (mem_children.mp hmem)
    exact (mem_walkChild_iff hs he fun hdirectory =>
      mem_walkBelow_iff hs (hdirectory ▸ he) (hlistable.child name) x).mp
  rw [walkBelow_of_listable hlistable hdir, List.pairwise_flatMap]
  constructor
  · intro ⟨name, e⟩ hmem
    have he := mem_entries_iff.mp (mem_children.mp hmem)
    have hdeeper := length_lt_depth hmem
    unfold walkChild
    split
    · exact List.Pairwise.nil
    · cases e with
      | file bytes => exact List.pairwise_singleton _ _
      | link target => exact List.Pairwise.nil
      | directory => exact pairwise_walkBelow hs he (hlistable.child name)
  · refine (pairwise_children t k).imp_of_mem ?_
    intro ⟨name, e⟩ ⟨name', e'⟩ hmem hmem' ⟨hle, hne⟩ x hx y hy
    obtain ⟨rest, h, hx⟩ := hincluded hmem hx
    obtain ⟨rest', h', hy⟩ := hincluded hmem' hy
    refine ⟨_, _, hx, hy, ?_⟩
    -- the paths have the parts of the directory in common, and then comes the name of the child
    unfold Path.Before
    rw [parts_below (h.named hs), parts_below (h'.named hs)]
    exact List.Lex.append_left _ (.rel (.name (Utf8.encode_lt hle hne))) _
termination_by t.depth - k.length
decreasing_by
  rw [List.length_append, List.length_singleton]
  omega

/-- A walk of a directory, where all directories can be listed, lists the files that are included below
it and nothing else. It lists no link, and nothing behind a link. No two of the paths are the same, and
each of them comes before those that follow. -/
theorem walk_lists_included (hs : t.Sound) (hk : t.locate root = .ok k)
    (hdir : t.get? k = some .directory) (hroot : root.same standardInput = false)
    (hlistable : t.Listable root k) (excluded : List Path) :
    ∃ listed : List Path, t.walk root excluded = .ok (listed.map .file) ∧
      (∀ p, p ∈ listed ↔ ∃ names, t.Included excluded root k names ∧ p = root.below names) ∧
      (∀ names target, t.get? (k ++ names) = some (.link target) →
        ∀ rest, (∀ name ∈ rest, IsEntryName name) → root.below (names ++ rest) ∉ listed) ∧
      (listed.map Path.parts).Nodup ∧ listed.Pairwise Path.Before := by
  have hmem : ∀ x, x ∈ t.walkBelow excluded root k ↔
      ∃ names, t.Included excluded root k names ∧ x = .file (root.below names) :=
    mem_walkBelow_iff hs hdir hlistable
  have hpairwise : (t.walkBelow excluded root k).Pairwise
      fun x y => ∃ p q, x = .file p ∧ y = .file q ∧ p.Before q :=
    pairwise_walkBelow hs hdir hlistable
  have hfiles : t.walkBelow excluded root k ∈ Set.range (List.map Found.file) := by
    rw [Set.range_list_map]
    intro x hx
    obtain ⟨names, -, hx⟩ := (hmem x).mp hx
    exact ⟨_, hx.symm⟩
  obtain ⟨listed, hlisted⟩ := hfiles
  rw [← hlisted] at hmem hpairwise
  have hiff : ∀ p, p ∈ listed ↔
      ∃ names, t.Included excluded root k names ∧ p = root.below names := by
    intro p
    have hp := hmem (.file p)
    rw [List.mem_map_of_injective fun _ _ h => Found.file.inj h] at hp
    refine hp.trans (exists_congr fun names => and_congr_right fun _ => ?_)
    exact ⟨Found.file.inj, congrArg Found.file⟩
  have hbefore : listed.Pairwise Path.Before := by
    refine (List.pairwise_map.mp hpairwise).imp ?_
    intro p q ⟨p', q', hp, hq, h⟩
    cases hp
    cases hq
    exact h
  refine ⟨listed, ?_, hiff, ?_, ?_, hbefore⟩
  · unfold walk
    rw [hk]
    dsimp only
    rw [if_neg (fun hne => hne hdir), hroot, if_neg Bool.false_ne_true, hlisted]
  · intro names target hlink rest hrest hin
    obtain ⟨names', h, hsame⟩ := (hiff _).mp hin
    have hnames : ∀ name ∈ names ++ rest, IsEntryName name := by
      intro name hname
      exact (List.mem_append.mp hname).elim ((hs.of_below hlink).1 name) (hrest name)
    -- another included file with this path would lie under the same names
    obtain rfl := below_injective hnames (h.named hs) hsame
    exact not_included_of_link hs hlink h
  · exact List.pairwise_map.mpr (hbefore.imp Before.parts_ne)

/-- A directory beside a file with a longer name, a link to it, and a directory to leave out. -/
def mixed : FileTree where
  entries := [([], .directory), ([['r']], .directory), ([['r'], ['b']], .directory),
    ([['r'], ['b'], ['z']], .file []), ([['r'], ['b', '.']], .file []),
    ([['r'], ['l']], .link ⟨['b']⟩), ([['r'], ['s']], .directory), ([['r'], ['s'], ['x']], .file [])]
  here := []
  distinct := by decide

/-- Two files are listed, but not the one in the excluded directory, and nothing behind the link. -/
theorem mixed_listed :
    mixed.Sound ∧ mixed.locate ⟨['r']⟩ = .ok [['r']] ∧ mixed.get? [['r']] = some .directory ∧
      Path.same ⟨['r']⟩ standardInput = false ∧ mixed.Listable ⟨['r']⟩ [['r']] ∧
      ∃ listed : List Path, mixed.walk ⟨['r']⟩ [⟨"r//s/".toList⟩] = .ok (listed.map .file) ∧
        ⟨"r/b/z".toList⟩ ∈ listed ∧ ⟨"r/b.".toList⟩ ∈ listed ∧ ⟨"r/s/x".toList⟩ ∉ listed ∧
        ⟨"r/l/z".toList⟩ ∉ listed ∧ listed.Pairwise Path.Before := by
  have hsound : mixed.Sound := by decide +kernel
  have hk : mixed.locate ⟨['r']⟩ = .ok [['r']] := by decide +kernel
  have hdir : mixed.get? [['r']] = some .directory := by decide +kernel
  have hroot : Path.same ⟨['r']⟩ standardInput = false := by decide +kernel
  have hlistable : mixed.Listable ⟨['r']⟩ [['r']] := by decide +kernel
  obtain ⟨listed, hlisted, hiff, hlink, -, hbefore⟩ :=
    walk_lists_included hsound hk hdir hroot hlistable [⟨"r//s/".toList⟩]
  refine ⟨hsound, hk, hdir, hroot, hlistable, listed, hlisted, ?_, ?_, ?_, ?_, hbefore⟩
  · refine (hiff _).mpr ⟨[['b'], ['z']], ?_, by decide +kernel⟩
    refine included_cons_iff.mpr ⟨by decide +kernel, included_cons_iff.mpr ⟨by decide +kernel, ?_⟩⟩
    exact included_nil_iff.mpr ⟨[], by decide +kernel⟩
  · refine (hiff _).mpr ⟨[['b', '.']], ?_, by decide +kernel⟩
    refine included_cons_iff.mpr ⟨by decide +kernel, ?_⟩
    exact included_nil_iff.mpr ⟨[], by decide +kernel⟩
  · intro hin
    obtain ⟨names, h, hsame⟩ := (hiff _).mp hin
    have hpath : (⟨"r/s/x".toList⟩ : Path) = Path.below ⟨['r']⟩ [['s'], ['x']] := by decide +kernel
    obtain rfl := below_injective (by decide +kernel) (h.named hsound) (hpath.symm.trans hsame)
    exact h.kept [['s']] ⟨[['x']], rfl⟩ (by decide) _ (List.mem_singleton_self _)
      (by decide +kernel)
  · exact hlink [['l']] ⟨['b']⟩ (by decide +kernel) [['z']] (by decide +kernel)

end FileTree

end FirmwareIds
