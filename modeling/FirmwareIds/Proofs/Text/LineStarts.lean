import FirmwareIds.Text.Cutting

/-!
# Cuttings, step by step

A cutting is made character by character: at each place the pattern hits, and the cutting goes on
behind the hit, or it does not, and the character goes to the gap. `cutFrom_cons_of_hit` and
`cutFrom_cons_of_miss` are these two steps, and every other statement about cuttings is an
induction over them.

A pattern that declares something hits only at the start of a line, and nothing inside its hits
looks like another declaration. So its hits are the readings at the line starts of the text, one
by one and without regard to each other: that is `Declares.notes_cut`.
-/

namespace FirmwareIds

variable {α : Type}

/-- The cutting with one more character in front, in no hit. -/
def Cutting.skip (c : Char) (k : Cutting α) : Cutting α :=
  match k.hits with
  | [] => ⟨[], c :: k.tail⟩
  | h :: hs => ⟨{ h with skipped := c :: h.skipped } :: hs, k.tail⟩

namespace Cutting

/-- What the hits took and noted, without the gaps between them. -/
def readings (k : Cutting α) : List (Text × α) := k.hits.map fun h => (h.taken, h.note)

theorem notes_eq (k : Cutting α) : k.notes = k.readings.map (·.2) := by
  unfold notes readings
  rw [List.map_map]
  rfl

theorem pieces_eq (k : Cutting α) : k.pieces = k.readings.map (·.1) := by
  unfold pieces readings
  rw [List.map_map]
  rfl

@[simp] theorem readings_skip (c : Char) (k : Cutting α) : (k.skip c).readings = k.readings := by
  unfold skip readings
  split
  · next h => rw [h]
  · next h => rw [h]; rfl

@[simp] theorem remainder_skip (c : Char) (k : Cutting α) :
    (k.skip c).remainder = c :: k.remainder := by
  unfold skip remainder
  split
  · next h => rw [h]; rfl
  · next h => rw [h]; rfl

theorem remainder_foldr_skip (s : Text) (k : Cutting α) :
    (s.foldr skip k).remainder = s ++ k.remainder := by
  induction s with
  | nil => rfl
  | cons c s ih => rw [List.foldr_cons, remainder_skip, ih, List.cons_append]

theorem notes_foldr_skip (s : Text) (k : Cutting α) : (s.foldr skip k).notes = k.notes := by
  induction s with
  | nil => rfl
  | cons c s ih => rw [List.foldr_cons, notes_eq, readings_skip, ← notes_eq, ih]

end Cutting

namespace Pattern

/-- What the pattern takes at a place, if it may begin there and takes something. -/
def hit? (p : Pattern α) (anchor : Anchor) (fresh : Bool) (s : Text) : Option (Reading α) :=
  if anchor = .lineStart && !fresh then none else (p.read s).filter fun r => !r.taken.isEmpty

theorem read_of_hit? {p : Pattern α} {anchor : Anchor} {fresh : Bool} {s : Text} {r : Reading α}
    (h : p.hit? anchor fresh s = some r) : p.read s = some r ∧ r.taken ≠ [] := by
  unfold hit? at h
  split at h
  · cases h
  · obtain ⟨hr, ht⟩ := Option.filter_eq_some_iff.mp h
    exact ⟨hr, by simpa using ht⟩

theorem firstFrom_cons (p : Pattern α) (anchor : Anchor) (fresh : Bool) (skipped : List Char)
    (c : Char) (s : Text) :
    p.firstFrom anchor fresh skipped (c :: s) =
      match p.hit? anchor fresh (c :: s) with
      | some r => some (⟨skipped.reverse, r.taken, r.note⟩, r.rest)
      | none => p.firstFrom anchor (c == '\n') (c :: skipped) s := by
  rw [firstFrom]
  unfold hit?
  split
  · next note t ts rest h =>
    split at h
    · cases h
    · next hg => rw [if_neg hg, h]; rfl
  · next hne =>
    split
    · next r hr =>
      split at hr
      · cases hr
      · next hg =>
        -- a reading that takes nothing is passed over by both sides
        obtain ⟨hread, htaken⟩ := Option.filter_eq_some_iff.mp hr
        rw [if_neg hg] at hne
        obtain ⟨note, _ | ⟨t, ts⟩, rest⟩ := r
        · exact absurd htaken (by simp)
        · exact absurd hread (hne note t ts rest)
    · rfl

/-- The characters skipped before only add to the gap of the hit. -/
theorem firstFrom_skipped (p : Pattern α) (anchor : Anchor) (fresh : Bool) (skipped : List Char)
    (s : Text) :
    p.firstFrom anchor fresh skipped s =
      (p.firstFrom anchor fresh [] s).map fun (h, rest) =>
        ({ h with skipped := skipped.reverse ++ h.skipped }, rest) := by
  induction s generalizing fresh skipped with
  | nil => rfl
  | cons c s ih =>
    rw [firstFrom_cons, firstFrom_cons]
    cases p.hit? anchor fresh (c :: s) with
    | some r => simp
    | none =>
      show p.firstFrom anchor (c == '\n') (c :: skipped) s =
        (p.firstFrom anchor (c == '\n') [c] s).map _
      rw [ih (c == '\n') (c :: skipped), ih (c == '\n') [c], Option.map_map]
      congr 1
      funext ⟨h, rest⟩
      simp

theorem cutFrom_eq (p : Pattern α) (anchor : Anchor) (fresh : Bool) (s : Text) :
    p.cutFrom anchor fresh s =
      match p.firstFrom anchor fresh [] s with
      | none => ⟨[], s⟩
      | some (hit, rest) =>
        ⟨hit :: (p.cutFrom anchor (endsLine hit.taken) rest).hits,
          (p.cutFrom anchor (endsLine hit.taken) rest).tail⟩ := by
  rw [cutFrom]
  split
  · next h => simp only [h]
  · next h => simp only [h]

/-- What is noted first is what the first hit noted. -/
theorem first?_eq (p : Pattern α) (anchor : Anchor) (s : Text) :
    p.first? anchor s = (p.cut anchor s).readings.head?.map (·.2) := by
  unfold first? cut
  rw [cutFrom_eq]
  cases p.firstFrom anchor true [] s with
  | none => rfl
  | some found => rfl

@[simp] theorem cutFrom_nil (p : Pattern α) (anchor : Anchor) (fresh : Bool) :
    p.cutFrom anchor fresh [] = ⟨[], []⟩ := by
  rw [cutFrom_eq]
  rfl

theorem exists_read_of_firstFrom {p : Pattern α} {anchor : Anchor} {fresh : Bool}
    {skipped : List Char} {s : Text} {hit : Hit α} {rest : Text}
    (h : p.firstFrom anchor fresh skipped s = some (hit, rest)) :
    ∃ u r, p.read u = some r ∧ r.taken = hit.taken ∧ r.note = hit.note := by
  induction s generalizing fresh skipped with
  | nil => cases h
  | cons c s ih =>
    rw [firstFrom_cons] at h
    split at h
    · next r hr =>
      cases h
      exact ⟨_, r, (read_of_hit? hr).1, rfl, rfl⟩
    · exact ih h

/-- A hit is what the pattern reads somewhere. -/
theorem exists_read_of_mem_hits {p : Pattern α} {anchor : Anchor} {fresh : Bool} {s : Text}
    {h : Hit α} (hh : h ∈ (p.cutFrom anchor fresh s).hits) :
    ∃ u r, p.read u = some r ∧ r.taken = h.taken ∧ r.note = h.note := by
  fun_induction cutFrom p anchor fresh s with
  | case1 => cases hh
  | case2 fresh s hit rest hfirst _ more ih =>
    rcases List.mem_cons.mp hh with rfl | hh
    · exact exists_read_of_firstFrom hfirst
    · exact ih hh

theorem exists_read_of_mem_notes {p : Pattern α} {anchor : Anchor} {fresh : Bool} {s : Text}
    {a : α} (h : a ∈ (p.cutFrom anchor fresh s).notes) : ∃ u r, p.read u = some r ∧ r.note = a := by
  obtain ⟨hit, hhit, rfl⟩ := List.mem_map.mp h
  obtain ⟨u, r, hr, -, hnote⟩ := exists_read_of_mem_hits hhit
  exact ⟨u, r, hr, hnote⟩

/-- A hit at the front: the cutting goes on behind it. -/
theorem cutFrom_cons_of_hit {p : Pattern α} {anchor : Anchor} {fresh : Bool} {c : Char}
    {s : Text} {r : Reading α} (h : p.hit? anchor fresh (c :: s) = some r) :
    p.cutFrom anchor fresh (c :: s) =
      ⟨⟨[], r.taken, r.note⟩ :: (p.cutFrom anchor (endsLine r.taken) r.rest).hits,
        (p.cutFrom anchor (endsLine r.taken) r.rest).tail⟩ := by
  rw [cutFrom_eq, firstFrom_cons, h]
  rfl

/-- A hit at the front of any text. -/
theorem cutFrom_of_hit {p : Pattern α} {anchor : Anchor} {fresh : Bool} {s : Text} {r : Reading α}
    (h : p.hit? anchor fresh s = some r) :
    p.cutFrom anchor fresh s =
      ⟨⟨[], r.taken, r.note⟩ :: (p.cutFrom anchor (endsLine r.taken) r.rest).hits,
        (p.cutFrom anchor (endsLine r.taken) r.rest).tail⟩ := by
  cases s with
  | nil =>
    obtain ⟨hread, hne⟩ := read_of_hit? h
    exact absurd (List.append_eq_nil_iff.mp (p.taken_append_rest hread)).1 hne
  | cons c s => exact cutFrom_cons_of_hit h

/-- No hit at the front: the character goes to the gap. -/
theorem cutFrom_cons_of_miss {p : Pattern α} {anchor : Anchor} {fresh : Bool} {c : Char}
    {s : Text} (h : p.hit? anchor fresh (c :: s) = none) :
    p.cutFrom anchor fresh (c :: s) = (p.cutFrom anchor (c == '\n') s).skip c := by
  rw [cutFrom_eq, cutFrom_eq p anchor (c == '\n') s, firstFrom_cons, h]
  show (match p.firstFrom anchor (c == '\n') [c] s with | none => _ | some (hit, rest) => _) = _
  rw [firstFrom_skipped]
  cases p.firstFrom anchor (c == '\n') [] s with
  | none => rfl
  | some found => rfl

end Pattern

/-! ## Line starts -/

/-- Whether a line starts behind the text `s`, where one starts before it if `fresh` holds. -/
def freshAfter (fresh : Bool) (s : Text) : Bool := if s.isEmpty then fresh else endsLine s

@[simp] theorem freshAfter_nil (fresh : Bool) : freshAfter fresh [] = fresh := rfl

@[simp] theorem freshAfter_cons (fresh : Bool) (c : Char) (s : Text) :
    freshAfter fresh (c :: s) = freshAfter (c == '\n') s := by
  unfold freshAfter endsLine
  cases s with
  | nil => simp [Bool.beq_eq_decide_eq]
  | cons d s => simp [List.getLast?_cons]

@[simp] theorem freshAfter_append (fresh : Bool) (s t : Text) :
    freshAfter fresh (s ++ t) = freshAfter (freshAfter fresh s) t := by
  induction s generalizing fresh with
  | nil => rfl
  | cons c s ih => rw [List.cons_append, freshAfter_cons, freshAfter_cons, ih]

theorem freshAfter_of_ne_nil {s : Text} (h : s ≠ []) (fresh : Bool) :
    freshAfter fresh s = endsLine s := by
  cases s with
  | nil => exact absurd rfl h
  | cons c s => rfl

/-- A line that starts behind a text starts there no less if one starts before it. -/
theorem freshAfter_of_imp {fresh fresh' : Bool} (h : fresh = true → fresh' = true) {s : Text}
    (hs : freshAfter fresh s = true) : freshAfter fresh' s = true := by
  cases s with
  | nil => exact h hs
  | cons c s => exact hs

theorem freshAfter_of_endsLine {s : Text} (h : endsLine s = true) (fresh : Bool) :
    freshAfter fresh s = true := by
  cases s with
  | nil => cases h
  | cons c s => exact h

/-- No line starts behind a text of one line. -/
theorem freshAfter_of_not_mem {s : Text} (h : '\n' ∉ s) : freshAfter false s = false := by
  induction s with
  | nil => rfl
  | cons c s ih =>
    have hc : (c == '\n') = false := beq_eq_false_iff_ne.mpr fun e => h (e ▸ List.mem_cons_self ..)
    rw [freshAfter_cons, hc]
    exact ih fun hm => h (List.mem_cons_of_mem _ hm)

/-- The rests of a text that begin where a line starts. -/
def lineStarts : (fresh : Bool) → Text → List Text
  | _, [] => []
  | fresh, c :: s => (if fresh then [c :: s] else []) ++ lineStarts (c == '\n') s

@[simp] theorem lineStarts_nil (fresh : Bool) : lineStarts fresh [] = [] := by
  cases fresh <;> rfl

theorem lineStarts_cons (fresh : Bool) (c : Char) (s : Text) :
    lineStarts fresh (c :: s) =
      (if fresh then [c :: s] else []) ++ lineStarts (c == '\n') s := by
  cases fresh <;> rfl

/-- The lines of two texts in a row start in the one or in the other. -/
theorem lineStarts_append (fresh : Bool) (s t : Text) :
    lineStarts fresh (s ++ t) =
      (lineStarts fresh s).map (· ++ t) ++ lineStarts (freshAfter fresh s) t := by
  induction s generalizing fresh with
  | nil => simp
  | cons c s ih =>
    rw [List.cons_append, lineStarts_cons, lineStarts_cons, ih, freshAfter_cons, List.map_append,
      List.append_assoc]
    cases fresh <;> rfl

theorem lineStarts_of_not_mem {s : Text} (h : '\n' ∉ s) : lineStarts false s = [] := by
  induction s with
  | nil => rfl
  | cons c s ih =>
    have hc : (c == '\n') = false := beq_eq_false_iff_ne.mpr fun e => h (e ▸ List.mem_cons_self ..)
    rw [lineStarts_cons, hc, ih fun hm => h (List.mem_cons_of_mem _ hm)]
    rfl

theorem ne_nil_of_mem_lineStarts {fresh : Bool} {s u : Text} (h : u ∈ lineStarts fresh s) :
    u ≠ [] := by
  induction s generalizing fresh with
  | nil => rw [lineStarts_nil] at h; cases h
  | cons c s ih =>
    rw [lineStarts_cons, List.mem_append] at h
    rcases h with h | h
    · cases fresh
      · cases h
      · rw [List.mem_singleton.mp h]; exact List.cons_ne_nil c s
    · exact ih h

/-- A line start is a place of the text with a line end, or the front, before it. -/
theorem mem_lineStarts_iff {fresh : Bool} {s u : Text} :
    u ∈ lineStarts fresh s ↔ u ≠ [] ∧ ∃ x, s = x ++ u ∧ freshAfter fresh x = true := by
  constructor
  · intro h
    refine ⟨ne_nil_of_mem_lineStarts h, ?_⟩
    induction s generalizing fresh with
    | nil => rw [lineStarts_nil] at h; cases h
    | cons c s ih =>
      rw [lineStarts_cons, List.mem_append] at h
      rcases h with h | h
      · cases fresh
        · cases h
        · exact ⟨[], (List.mem_singleton.mp h).symm, rfl⟩
      · obtain ⟨x, rfl, hx⟩ := ih h
        exact ⟨c :: x, rfl, by rw [freshAfter_cons]; exact hx⟩
  · rintro ⟨hu, x, rfl, hx⟩
    rw [lineStarts_append, hx]
    refine List.mem_append_right _ ?_
    cases u with
    | nil => exact absurd rfl hu
    | cons c u => rw [lineStarts_cons]; exact List.mem_append_left _ (List.mem_singleton.mpr rfl)

theorem eq_or_mem_lineStarts {s v : Text} (fresh : Bool) (h : v ∈ lineStarts true s) :
    v = s ∨ v ∈ lineStarts fresh s := by
  cases s with
  | nil => cases h
  | cons c s =>
    rw [lineStarts_cons] at h ⊢
    exact (List.mem_append.mp h).imp List.mem_singleton.mp (List.mem_append_right _)

theorem mem_lineStarts_true {fresh : Bool} {s v : Text} (h : v ∈ lineStarts fresh s) :
    v ∈ lineStarts true s := by
  obtain ⟨hne, x, hs, hx⟩ := mem_lineStarts_iff.mp h
  exact mem_lineStarts_iff.mpr ⟨hne, x, hs, freshAfter_of_imp (fun _ => rfl) hx⟩

/-! ## Declarations -/

/-- The word that a declaration begins with. -/
def declarationWord : Text := "#string".toList

/-- No declaration begins where a line starts in the text, whatever comes behind it. -/
def Quiet (fresh : Bool) (s : Text) : Prop :=
  ∀ u ∈ lineStarts fresh s, ∀ z, ¬ declarationWord <+: u ++ z

theorem quiet_append {fresh : Bool} {s t : Text} (hs : Quiet fresh s)
    (ht : Quiet (freshAfter fresh s) t) : Quiet fresh (s ++ t) := by
  intro u hu z
  rw [lineStarts_append, List.mem_append] at hu
  rcases hu with hu | hu
  · obtain ⟨v, hv, rfl⟩ := List.mem_map.mp hu
    rw [List.append_assoc]
    exact hs v hv (t ++ z)
  · exact ht u hu z

theorem quiet_nil (fresh : Bool) : Quiet fresh [] := by
  intro u hu
  rw [lineStarts_nil] at hu
  cases hu

/-- The rest of a line is quiet. -/
theorem quiet_of_not_mem {s : Text} (h : '\n' ∉ s) : Quiet false s := by
  intro u hu
  rw [lineStarts_of_not_mem h] at hu
  cases hu

/-- A text without the first character of a declaration is quiet. -/
theorem quiet_of_hash_not_mem {fresh : Bool} {s : Text} (h : '#' ∉ s) : Quiet fresh s := by
  rintro u hu z ⟨t, ht⟩
  obtain ⟨hne, x, rfl, -⟩ := mem_lineStarts_iff.mp hu
  cases u with
  | nil => exact hne rfl
  | cons c u =>
    have hc : c = '#' := (List.cons.inj ht).1.symm
    exact h (by rw [hc]; simp)

/-- A pattern that hits declarations: what it takes begins like one, and no other one begins in
it. -/
structure Pattern.Declares (p : Pattern α) : Prop where
  opens : ∀ {s : Text} {r : Reading α}, p.read s = some r →
    ∃ t, r.taken = declarationWord ++ t ∧ Quiet false t

namespace Pattern

variable {p : Pattern α}

theorem Declares.prefix_of_read (hp : p.Declares) {s : Text} {r : Reading α}
    (h : p.read s = some r) : declarationWord <+: s := by
  obtain ⟨t, ht, -⟩ := hp.opens h
  rw [← p.taken_append_rest h, ht, List.append_assoc]
  exact List.prefix_append ..

theorem Declares.hit?_eq (hp : p.Declares) (s : Text) : p.hit? .lineStart true s = p.read s := by
  unfold hit?
  simp only [Bool.not_true, Bool.and_false, Bool.false_eq_true, if_false]
  cases h : p.read s with
  | none => rfl
  | some r =>
    obtain ⟨t, ht, -⟩ := hp.opens h
    rw [Option.filter_some, ht]
    rfl

theorem hit?_lineStart_false (s : Text) : p.hit? .lineStart false s = none := rfl

/-- Behind the front of a hit, lines start quietly up to the end of the hit. -/
theorem Declares.quiet_of_hit (hp : p.Declares) {s : Text} {r : Reading α}
    (h : p.read s = some r) : ∃ t, r.taken = '#' :: t ∧ Quiet false t := by
  obtain ⟨t, ht, hq⟩ := hp.opens h
  refine ⟨"string".toList ++ t, ht, quiet_append (quiet_of_not_mem (by decide)) ?_⟩
  rw [freshAfter_of_not_mem (by decide)]
  exact hq

/-- Nothing is hit in a quiet text, and the cutting begins behind it. -/
theorem Declares.cutFrom_append_of_quiet (hp : p.Declares) {fresh : Bool} {s : Text}
    (hs : Quiet fresh s) (t : Text) :
    p.cutFrom .lineStart fresh (s ++ t) =
      s.foldr Cutting.skip (p.cutFrom .lineStart (freshAfter fresh s) t) := by
  induction s generalizing fresh with
  | nil => rfl
  | cons c s ih =>
    have hmiss : p.hit? .lineStart fresh (c :: (s ++ t)) = none := by
      cases fresh with
      | false => rfl
      | true =>
        rw [hp.hit?_eq, Option.eq_none_iff_forall_ne_some]
        intro r h
        refine hs (c :: s) ?_ t (hp.prefix_of_read h)
        rw [lineStarts_cons]
        exact List.mem_append_left _ (List.mem_singleton.mpr rfl)
    rw [List.cons_append, cutFrom_cons_of_miss hmiss, freshAfter_cons, List.foldr_cons,
      ih fun u hu => hs u (by rw [lineStarts_cons]; exact List.mem_append_right _ hu)]

/-- What the pattern reads at a line start, without what it leaves. -/
def readingAt (p : Pattern α) (s : Text) : Option (Text × α) :=
  (p.read s).map fun r => (r.taken, r.note)

theorem Declares.readingAt_eq_none_of_quiet (hp : p.Declares) {fresh : Bool} {s : Text}
    (hs : Quiet fresh s) (t : Text) {u : Text} (hu : u ∈ lineStarts fresh s) :
    p.readingAt (u ++ t) = none := by
  unfold readingAt
  rw [Option.map_eq_none_iff, Option.eq_none_iff_forall_ne_some]
  intro r h
  exact hs u hu t (hp.prefix_of_read h)

/-- What holds of the empty text, of a character that no hit begins at, and of a hit, each before
a text of which it holds, holds of all texts: they are cut in these steps. -/
@[elab_as_elim]
theorem Declares.induction (hp : p.Declares) {motive : Bool → Text → Prop}
    (nil : ∀ fresh, motive fresh [])
    (miss : ∀ fresh c s, p.hit? .lineStart fresh (c :: s) = none → motive (c == '\n') s →
      motive fresh (c :: s))
    (hit : ∀ r s, p.read s = some r → p.hit? .lineStart true s = some r →
      motive (endsLine r.taken) r.rest → motive true s)
    (fresh : Bool) (s : Text) : motive fresh s := by
  -- a hit may be long, so the induction is on the length of the text
  induction hn : s.length using Nat.strongRecOn generalizing fresh s with
  | ind n ih =>
    subst hn
    cases s with
    | nil => exact nil fresh
    | cons c s =>
      cases h : p.hit? .lineStart fresh (c :: s) with
      | none => exact miss fresh c s h (ih _ (Nat.lt_succ_self _) _ _ rfl)
      | some r =>
        have hfresh : fresh = true := by
          cases fresh with
          | true => rfl
          | false => cases h
        subst hfresh
        obtain ⟨hread, -⟩ := read_of_hit? h
        obtain ⟨t, ht, -⟩ := hp.opens hread
        have hlen : r.rest.length < (c :: s).length := by
          rw [← p.taken_append_rest hread, ht, List.length_append, List.length_append]
          have : declarationWord.length = 7 := rfl
          omega
        exact hit r _ hread h (ih _ hlen _ _ rfl)

/-- The hits of a declaring pattern are its readings at the line starts of the text. -/
theorem Declares.readings_cutFrom (hp : p.Declares) (fresh : Bool) (s : Text) :
    (p.cutFrom .lineStart fresh s).readings = (lineStarts fresh s).filterMap p.readingAt := by
  induction fresh, s using hp.induction with
  | nil fresh => rw [cutFrom_nil, lineStarts_nil]; rfl
  | miss fresh c s h ih =>
    rw [cutFrom_cons_of_miss h, Cutting.readings_skip, ih, lineStarts_cons, List.filterMap_append]
    cases fresh with
    | false => rfl
    | true =>
      rw [hp.hit?_eq] at h
      have hnone : p.readingAt (c :: s) = none := by unfold readingAt; rw [h]; rfl
      rw [if_pos rfl, List.filterMap_cons_none hnone]
      rfl
  | hit r s hread h ih =>
    obtain ⟨t, ht, hquiet⟩ := hp.quiet_of_hit hread
    have hs : s = '#' :: (t ++ r.rest) := by
      rw [← p.taken_append_rest hread, ht, List.cons_append]
    have hmid : ((lineStarts false t).map (· ++ r.rest)).filterMap p.readingAt = [] := by
      rw [List.filterMap_map, List.filterMap_eq_nil_iff]
      exact fun u hu => hp.readingAt_eq_none_of_quiet hquiet r.rest hu
    have hsome : p.readingAt s = some (r.taken, r.note) := by
      unfold readingAt; rw [hread]; rfl
    have hends : endsLine r.taken = freshAfter false t := by
      rw [← freshAfter_of_ne_nil (by rw [ht]; exact List.cons_ne_nil _ _) true, ht,
        freshAfter_cons]
      rfl
    have hstarts : lineStarts true s = s :: lineStarts false (t ++ r.rest) := by
      rw [hs]
      rfl
    rw [hs] at h ⊢
    rw [cutFrom_cons_of_hit h, ← hs, hstarts, List.filterMap_cons_some hsome, lineStarts_append,
      List.filterMap_append, hmid, List.nil_append, ← hends, ← ih]
    rfl

theorem Declares.notes_cut (hp : p.Declares) (s : Text) :
    (p.cut .lineStart s).notes =
      (lineStarts true s).filterMap fun u => (p.read u).map Reading.note := by
  rw [Cutting.notes_eq, cut, hp.readings_cutFrom, List.map_filterMap]
  simp only [readingAt, Option.map_map, Function.comp_def]

theorem Declares.pieces_cut (hp : p.Declares) (s : Text) :
    (p.cut .lineStart s).pieces =
      (lineStarts true s).filterMap fun u => (p.read u).map Reading.taken := by
  rw [Cutting.pieces_eq, cut, hp.readings_cutFrom, List.map_filterMap]
  simp only [readingAt, Option.map_map, Function.comp_def]

/-- In what a declaring pattern took, another one reads at the front or nowhere. -/
theorem Declares.readings_of_opens {β : Type} {q : Pattern β} (hq : q.Declares) {t : Text}
    (ht : Quiet false t) :
    (lineStarts true (declarationWord ++ t)).filterMap q.readingAt =
      (q.readingAt (declarationWord ++ t)).toList := by
  have hrest : (lineStarts false ("string".toList ++ t)).filterMap q.readingAt = [] := by
    have hquiet : Quiet false ("string".toList ++ t) := by
      refine quiet_append (quiet_of_not_mem (by decide)) ?_
      rw [freshAfter_of_not_mem (by decide)]
      exact ht
    rw [List.filterMap_eq_nil_iff]
    intro u hu
    rw [← List.append_nil u]
    exact hq.readingAt_eq_none_of_quiet hquiet [] hu
  have hstarts : lineStarts true (declarationWord ++ t) =
      (declarationWord ++ t) :: lineStarts false ("string".toList ++ t) := rfl
  rw [hstarts, List.filterMap_cons]
  cases q.readingAt (declarationWord ++ t) with
  | none => exact hrest
  | some x => rw [hrest]; rfl

/-! ## Texts put behind one another -/

/-- What a declaring pattern takes does not reach into a declaration on a line of its own. -/
theorem Declares.taken_of_append (hp : p.Declares) {u z : Text} (hu : endsLine u = true)
    (hz : declarationWord <+: z) {r : Reading α} (h : p.read (u ++ z) = some r) :
    r.taken <+: u := by
  rcases List.append_eq_append_iff.mp (p.taken_append_rest h) with ⟨v, hv, -⟩ | ⟨v, hv, hrest⟩
  · exact ⟨v, hv.symm⟩
  · cases v with
    | nil => exact ⟨[], by rw [hv, List.append_nil, List.append_nil]⟩
    | cons d v =>
      -- the taken part would hold a line that begins like a declaration
      obtain ⟨t, ht, hquiet⟩ := hp.quiet_of_hit h
      cases u with
      | nil => cases hu
      | cons c u =>
        rw [hv, List.cons_append] at ht
        obtain ⟨rfl, rfl⟩ := List.cons.inj ht
        have hfresh : freshAfter false u = true := by
          rw [← hu, ← freshAfter_of_ne_nil (List.cons_ne_nil '#' u) true, freshAfter_cons]
          rfl
        have hmem : d :: v ∈ lineStarts false (u ++ d :: v) :=
          mem_lineStarts_iff.mpr ⟨List.cons_ne_nil d v, u, rfl, hfresh⟩
        rw [hrest] at hz
        exact absurd hz (hquiet _ hmem _)

end Pattern

end FirmwareIds
