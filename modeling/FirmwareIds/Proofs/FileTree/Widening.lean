import FirmwareIds.Proofs.FileTree.Walk

/-!
# Walks of a tree that one file was put into

A tree gets a file, and the directories that it needs (`Placed`). A walk of the new tree finds what a
walk of the old one found, in the same order; what it finds besides is the file, if it was not there
before, and directories that cannot be listed (`Placed.walk`). The order is kept because both trees
list the names of a directory in their own order: of two sorted lists of names, the longer one is the
shorter one with names put in (`widened_of_pairwise`).
-/

namespace FirmwareIds

/-! ## Lists with elements put in -/

/-- The second list is the first one, element by element, with more elements put in. -/
inductive Widened {α β : Type} (R : α → β → Prop) (more : β → Prop) : List α → List β → Prop
  | nil : Widened R more [] []
  | keep {a b l l'} : R a b → Widened R more l l' → Widened R more (a :: l) (b :: l')
  | add {b l l'} : more b → Widened R more l l' → Widened R more l (b :: l')

section

variable {α β : Type} {R : α → β → Prop} {more : β → Prop} {l m : List α} {l' m' : List β}

theorem Widened.append (h : Widened R more l l') (hm : Widened R more m m') :
    Widened R more (l ++ m) (l' ++ m') := by
  induction h with
  | nil => exact hm
  | keep hab _ ih => exact .keep hab ih
  | add hb _ ih => exact .add hb ih

theorem Widened.flatMap {γ δ : Type} {S : γ → δ → Prop} {more' : δ → Prop} {f : α → List γ}
    {g : β → List δ} (h : Widened R more l l') (hR : ∀ a b, R a b → Widened S more' (f a) (g b))
    (hmore : ∀ b, more b → Widened S more' [] (g b)) :
    Widened S more' (l.flatMap f) (l'.flatMap g) := by
  induction h with
  | nil => exact .nil
  | keep hab _ ih => exact (hR _ _ hab).append ih
  | add hb _ ih => exact (hmore _ hb).append ih

/-- What relates two states is kept by steps for the same element, and by a step for an element that
was put in. -/
theorem Widened.foldl {σ τ : Type} {S : σ → τ → Prop} {f : σ → α → σ} {g : τ → β → τ}
    (h : Widened R more l l') (hR : ∀ s t a b, a ∈ l → R a b → S s t → S (f s a) (g t b))
    (hmore : ∀ s t b, more b → S s t → S s (g t b)) {s : σ} {t : τ} (hs : S s t) :
    S (l.foldl f s) (l'.foldl g t) := by
  induction h generalizing s t with
  | nil => exact hs
  | keep hab _ ih =>
    exact ih (fun s t a b ha => hR s t a b (List.mem_cons_of_mem _ ha))
      (hR s t _ _ (List.mem_cons_self ..) hab hs)
  | add hb _ ih => exact ih hR (hmore s t _ hb hs)

/-- Where both lists are in the strict order of their names, the first elements have one name if the
second list has that of the first one, and the first list that of the second one. -/
theorem name_eq_of_heads {κ : Type} {lt : κ → κ → Prop} {name : α → κ} {name' : β → κ}
    (hasymm : ∀ x y, lt x y → ¬ lt y x) {a : α} {b : β} (ha : ∀ x ∈ l, lt (name a) (name x))
    (hb : ∀ y ∈ l', lt (name' b) (name' y)) (hin : ∃ y ∈ b :: l', name' y = name a)
    (hold : ∃ x ∈ a :: l, name' b = name x) : name' b = name a := by
  obtain ⟨y, hy, hyname⟩ := hin
  obtain ⟨x, hx, hxname⟩ := hold
  rcases List.mem_cons.mp hy with rfl | hy
  · exact hyname
  · rcases List.mem_cons.mp hx with rfl | hx
    · exact hxname
    · -- each would be before the other
      have hbefore := hb y hy
      rw [hxname, hyname] at hbefore
      exact absurd (ha x hx) (hasymm _ _ hbefore)

/-- Two lists in the strict order of their names, of which the second has all names of the first. -/
theorem widened_of_pairwise {κ : Type} (lt : κ → κ → Prop) (name : α → κ) (name' : β → κ)
    (hirrefl : ∀ x, ¬ lt x x) (hasymm : ∀ x y, lt x y → ¬ lt y x)
    (hl : l.Pairwise fun a b => lt (name a) (name b))
    (hl' : l'.Pairwise fun a b => lt (name' a) (name' b))
    (hin : ∀ a ∈ l, ∃ b ∈ l', name' b = name a)
    (hR : ∀ a ∈ l, ∀ b ∈ l', name' b = name a → R a b)
    (hmore : ∀ b ∈ l', (∀ a ∈ l, name' b ≠ name a) → more b) : Widened R more l l' := by
  induction l' generalizing l with
  | nil =>
    cases l with
    | nil => exact .nil
    | cons a l =>
      obtain ⟨b, hb, -⟩ := hin a (List.mem_cons_self ..)
      cases hb
  | cons b l' ih =>
    obtain ⟨hb, hl'⟩ := List.pairwise_cons.mp hl'
    by_cases hold : ∃ a ∈ l, name' b = name a
    · obtain ⟨first, l, rfl⟩ : ∃ first rest, l = first :: rest := by
        obtain ⟨a, ha, -⟩ := hold
        exact List.exists_cons_of_ne_nil (List.ne_nil_of_mem ha)
      obtain ⟨hfirst, hl⟩ := List.pairwise_cons.mp hl
      have hsame := name_eq_of_heads hasymm hfirst hb (hin first (List.mem_cons_self ..)) hold
      refine .keep (hR first (List.mem_cons_self ..) b (List.mem_cons_self ..) hsame)
        (ih hl hl' (fun a ha => ?_)
          (fun a ha c hc => hR a (List.mem_cons_of_mem _ ha) c (List.mem_cons_of_mem _ hc))
          fun c hc hno => hmore c (List.mem_cons_of_mem _ hc) fun a ha => ?_)
      · obtain ⟨c, hc, hcname⟩ := hin a (List.mem_cons_of_mem _ ha)
        rcases List.mem_cons.mp hc with rfl | hc
        · have hbehind := hfirst a ha
          rw [← hsame, hcname] at hbehind
          exact absurd hbehind (hirrefl _)
        · exact ⟨c, hc, hcname⟩
      · rcases List.mem_cons.mp ha with rfl | ha
        · intro hcname
          have hbehind := hb c hc
          rw [hsame, hcname] at hbehind
          exact hirrefl _ hbehind
        · exact hno a ha
    · have hnew : ∀ a ∈ l, name' b ≠ name a := fun a ha hname => hold ⟨a, ha, hname⟩
      refine .add (hmore b (List.mem_cons_self ..) hnew) (ih hl hl' (fun a ha => ?_)
        (fun a ha c hc => hR a ha c (List.mem_cons_of_mem _ hc))
        fun c hc => hmore c (List.mem_cons_of_mem _ hc))
      obtain ⟨c, hc, hname⟩ := hin a ha
      rcases List.mem_cons.mp hc with rfl | hc
      · exact absurd hname (hnew a ha)
      · exact ⟨c, hc, hname⟩

end

/-! ## Putting a file in -/

namespace FileTree

variable {t u : FileTree} {k : Key}

/-- From `t` to `u` a file was written at `place`, and beyond that directories were made where nothing
was. -/
structure Placed (t u : FileTree) (place : Key) : Prop where
  evolves : ∃ touched, Evolves t u touched
  elsewhere : ∀ k, k ≠ place →
    u.get? k = t.get? k ∨ t.get? k = none ∧ u.get? k = some .directory
  file : ∃ bytes, u.get? place = some (.file bytes)
  before : ∀ e, t.get? place = some e → ∃ bytes, e = .file bytes

variable {place : Key} {excluded : List Path}

/-- An entry stays an entry of its kind. -/
theorem Placed.kept (h : Placed t u place) {e : Entry} (he : t.get? k = some e) :
    u.get? k = some e ∨ k = place ∧ ∃ bytes bytes', e = .file bytes ∧ u.get? k = some (.file bytes') := by
  by_cases hk : k = place
  · subst hk
    obtain ⟨bytes, hbytes⟩ := h.before e he
    obtain ⟨bytes', hbytes'⟩ := h.file
    exact Or.inr ⟨rfl, bytes, bytes', hbytes, hbytes'⟩
  · rcases h.elsewhere k hk with hsame | ⟨hnone, -⟩
    · exact Or.inl (hsame.trans he)
    · rw [hnone] at he
      cases he

theorem Placed.children (h : Placed t u place) (k : Key) :
    Widened (fun a b => a.1 = b.1 ∧ t.get? (k ++ [a.1]) = some a.2 ∧ u.get? (k ++ [b.1]) = some b.2)
      (fun b => t.get? (k ++ [b.1]) = none ∧ u.get? (k ++ [b.1]) = some b.2)
      (t.children k) (u.children k) := by
  have hmem : ∀ (v : FileTree) (a : Text × Entry), a ∈ v.children k ↔ v.get? (k ++ [a.1]) = some a.2 :=
    fun v a => mem_children.trans mem_entries_iff
  refine widened_of_pairwise (fun x y => Text.le x y = true ∧ x ≠ y) Prod.fst Prod.fst
    (fun x hx => hx.2 rfl) (fun x y hxy hyx => hxy.2 (Text.le_antisymm hxy.1 hyx.1))
    (pairwise_children t k) (pairwise_children u k) (fun a ha => ?_) (fun a ha b hb hname => ?_)
    (fun b hb hnew => ?_)
  · rcases h.kept ((hmem t a).mp ha) with hu | ⟨-, -, bytes', -, hu⟩
    · exact ⟨a, (hmem u a).mpr hu, rfl⟩
    · exact ⟨(a.1, .file bytes'), (hmem u _).mpr hu, rfl⟩
  · exact ⟨hname.symm, (hmem t a).mp ha, (hmem u b).mp hb⟩
  · refine ⟨?_, (hmem u b).mp hb⟩
    cases hold : t.get? (k ++ [b.1]) with
    | none => rfl
    | some e => exact absurd rfl (hnew (b.1, e) ((hmem t _).mpr hold))

/-! ## Walks -/

/-- What a walk finds in the tree `u` and not in `t`: a directory that cannot be listed, or a file that
stands where nothing was. -/
def NewIn (t u : FileTree) (x : Found) : Prop :=
  ∀ p, x = .file p → ∃ dir name, u.FoundAt p dir name ∧ t.get? (dir ++ [name]) = none

/-- A directory that was not there held nothing. -/
theorem Sound.children_eq_nil (hs : t.Sound) (hk : t.get? k = none) : t.children k = [] := by
  refine List.eq_nil_iff_forall_not_mem.mpr fun ⟨name, e⟩ hmem => ?_
  have he := mem_entries_iff.mp (mem_children.mp hmem)
  rw [hs.get?_eq_none hk name] at he
  cases he

/-- The walks below one directory. -/
theorem Placed.walkBelow (h : Placed t u place) (hs : t.Sound) (excluded : List Path) {dir : Path}
    {k : Key} {left : Nat}
    (hway : u.Way left k linkLimit (startFrom u.here dir) dir.pieces) :
    Widened Eq (NewIn t u) (t.walkBelow excluded dir k) (u.walkBelow excluded dir k) := by
  obtain ⟨touched, hevolves⟩ := h.evolves
  have hus := hevolves.sound hs
  rw [walkBelow_eq, walkBelow_eq]
  cases hfault : dir.fault? with
  | some fault => exact .keep rfl .nil
  | none =>
    refine (h.children k).flatMap (fun a b hab => ?_) fun b hb => ?_
    · obtain ⟨name, e⟩ := a
      obtain ⟨name', e'⟩ := b
      obtain ⟨rfl, ha, hb⟩ : name = name' ∧ _ ∧ _ := hab
      unfold walkChild
      dsimp only at ha hb ⊢
      split
      · exact .nil
      rcases h.kept ha with hsame | ⟨-, bytes, bytes', rfl, hfile⟩
      · obtain rfl : e = e' := Option.some.inj (hsame.symm.trans hb)
        cases e with
        | file bytes => exact .keep rfl .nil
        | link target => exact .nil
        | directory => exact h.walkBelow hs excluded (way_of_child hus hway hb)
      · obtain rfl := Option.some.inj (hfile.symm.trans hb)
        exact .keep rfl .nil
    · obtain ⟨name, e⟩ := b
      obtain ⟨hnone, hb⟩ := hb
      unfold walkChild
      dsimp only at hnone hb ⊢
      split
      · exact .nil
      cases e with
      | link target => exact .nil
      | file bytes =>
        refine .add (fun p hp => ?_) .nil
        cases hp
        exact ⟨k, name, foundAt_of_child hus hway hb, hnone⟩
      | directory =>
        -- in `t` nothing is found there, so all that is found is new
        have hbelow := h.walkBelow hs excluded (way_of_child hus hway hb)
        cases hlong : (dir.join ⟨name⟩).fault? with
        | some fault =>
          rw [walkBelow_eq, hlong]
          exact .add (fun _ hp => nomatch hp) .nil
        | none =>
          rw [t.walkBelow_eq, hlong, hs.children_eq_nil hnone] at hbelow
          exact hbelow
termination_by u.depth - k.length
decreasing_by
  all_goals
    have := length_lt_depth (mem_children.mpr (mem_entries_iff.mpr hb))
    rw [List.length_append, List.length_singleton]
    omega

/-- A walk of the new tree finds what a walk of the old one found, and what is new. -/
theorem Placed.walk (h : Placed t u place) (hs : t.Sound) {root : Path} {found : List Found}
    (hwalk : t.walk root excluded = .ok found) :
    ∃ found', u.walk root excluded = .ok found' ∧ Widened Eq (NewIn t u) found found' := by
  obtain ⟨touched, hevolves⟩ := h.evolves
  unfold FileTree.walk at hwalk ⊢
  cases hk : t.locate root with
  | error fault => rw [hk] at hwalk; cases hwalk
  | ok k =>
    rw [hk] at hwalk
    dsimp only at hwalk
    split at hwalk
    · cases hwalk
    next hdir =>
    have hdir := Decidable.not_not.mp hdir
    have hroot : t.isDirectory root = true := by
      unfold isDirectory
      rw [hk]
      exact beq_iff_eq.mpr hdir
    obtain ⟨hvalid, left, stop, hway⟩ := isDirectory_iff.mp hroot
    rw [locate_of_way hvalid hway] at hk
    cases hk
    have hway : u.Way left k linkLimit (startFrom u.here root) root.pieces := by
      rw [startFrom_eq hevolves.here rfl]
      exact hevolves.way hway
    rw [locate_of_way hvalid hway]
    dsimp only
    rw [if_neg (not_not_intro (hevolves.directory hdir))]
    split at hwalk
    · next hinput =>
      cases hwalk
      exact ⟨[], if_pos hinput, .nil⟩
    · next hinput =>
      cases hwalk
      exact ⟨_, if_neg hinput, h.walkBelow hs excluded hway⟩

/-- A file that was found is found in the new tree. -/
theorem Placed.foundAt (h : Placed t u place) {p : Path} {dir : Key} {name : Text}
    (hp : t.FoundAt p dir name) : u.FoundAt p dir name := by
  obtain ⟨touched, hevolves⟩ := h.evolves
  obtain ⟨left, hway⟩ := hp.way
  refine ⟨hp.last, ⟨left, ?_⟩, ?_, hp.separator, hp.named⟩
  · rw [startFrom_eq hevolves.here rfl]
    exact hevolves.way hway
  · obtain ⟨bytes, hfile⟩ := hp.file
    rcases h.kept hfile with hsame | ⟨-, -, bytes', -, hfile'⟩
    · exact ⟨bytes, hsame⟩
    · exact ⟨bytes', hfile'⟩

end FileTree

end FirmwareIds
