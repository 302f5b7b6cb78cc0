import FirmwareIds.Proofs.Text.Removal

/-!
# Cutting across a seam

A text is put together from two parts, and the pattern never reaches from the first into the second.
Then the text is cut as its parts are, one behind the other (`cutFrom_append`): the hits add up, and
so do the remainders. Where a closed declaring pattern is looked for at all places, a declaration on
a line of its own is such a seam (`Declares.stopsBefore`).

Some hits of a cutting are taken out and the others are left where they are (`Cutting.without`). What
stands between them are seams as well, since every hit of a search at line starts begins a line
(`lineHits_cutFrom`). Where all hits are taken out, `Cutting.seams` are the places where they were.
-/

namespace FirmwareIds

variable {α : Type}

namespace Cutting

@[simp] theorem length_hits_skip (c : Char) (k : Cutting α) :
    (k.skip c).hits.length = k.hits.length := by
  unfold skip
  split
  · next h => rw [h]
  · next h => rw [h]; rfl

theorem length_hits_foldr_skip (s : Text) (k : Cutting α) :
    (s.foldr skip k).hits.length = k.hits.length := by
  induction s with
  | nil => rfl
  | cons c s ih => rw [List.foldr_cons, length_hits_skip, ih]

/-- One cutting behind another: the gap at the end of the first goes on up to the first hit of the
second. -/
def followedBy (k l : Cutting α) : Cutting α :=
  ⟨k.hits ++ (k.tail.foldr skip l).hits, (k.tail.foldr skip l).tail⟩

theorem skip_followedBy (c : Char) (k l : Cutting α) :
    (k.skip c).followedBy l = (k.followedBy l).skip c := by
  obtain ⟨_ | ⟨h, hs⟩, tail⟩ := k <;> rfl

theorem length_hits_followedBy (k l : Cutting α) :
    (k.followedBy l).hits.length = k.hits.length + l.hits.length := by
  unfold followedBy
  rw [List.length_append, length_hits_foldr_skip]

theorem remainder_followedBy (k l : Cutting α) :
    (k.followedBy l).remainder = k.remainder ++ l.remainder := by
  have h := remainder_foldr_skip k.tail l
  unfold remainder at h ⊢
  unfold followedBy
  rw [List.flatMap_append, List.append_assoc, h, List.append_assoc]

/-- The text without the hits whose characters are to go. -/
def without (k : Cutting α) (gone : Text → Bool) : Text :=
  k.hits.flatMap (fun h => h.skipped ++ if gone h.taken then [] else h.taken) ++ k.tail

/-- What the hits took that stay. -/
def standing (k : Cutting α) (gone : Text → Bool) : List Text := k.pieces.filter (!gone ·)

theorem without_nil (tail : Text) (gone : Text → Bool) :
    (⟨[], tail⟩ : Cutting α).without gone = tail := rfl

theorem without_cons_of_gone {gone : Text → Bool} {h : Hit α} (hgone : gone h.taken = true)
    (hs : List (Hit α)) (tail : Text) :
    (⟨h :: hs, tail⟩ : Cutting α).without gone =
      h.skipped ++ (⟨hs, tail⟩ : Cutting α).without gone := by
  unfold without
  rw [List.flatMap_cons, hgone, if_pos rfl, List.append_nil, List.append_assoc]

theorem without_cons_of_stays {gone : Text → Bool} {h : Hit α} (hgone : gone h.taken = false)
    (hs : List (Hit α)) (tail : Text) :
    (⟨h :: hs, tail⟩ : Cutting α).without gone =
      h.skipped ++ h.taken ++ (⟨hs, tail⟩ : Cutting α).without gone := by
  unfold without
  rw [List.flatMap_cons, hgone, if_neg Bool.false_ne_true, List.append_assoc]

theorem standing_cons_of_gone {gone : Text → Bool} {h : Hit α} (hgone : gone h.taken = true)
    (hs : List (Hit α)) (tail : Text) :
    (⟨h :: hs, tail⟩ : Cutting α).standing gone = (⟨hs, tail⟩ : Cutting α).standing gone :=
  List.filter_cons_of_neg (by simp [hgone])

theorem standing_cons_of_stays {gone : Text → Bool} {h : Hit α} (hgone : gone h.taken = false)
    (hs : List (Hit α)) (tail : Text) :
    (⟨h :: hs, tail⟩ : Cutting α).standing gone =
      h.taken :: (⟨hs, tail⟩ : Cutting α).standing gone :=
  List.filter_cons_of_pos (by simp [hgone])

/-- Only what is decided about the hits matters. -/
theorem without_congr {k : Cutting α} {gone gone' : Text → Bool}
    (h : ∀ piece ∈ k.pieces, gone piece = gone' piece) : k.without gone = k.without gone' := by
  unfold without
  rw [List.flatMap_def, List.flatMap_def, List.map_congr_left fun hit hhit => ?_]
  rw [h _ (List.mem_map_of_mem hhit)]

@[simp] theorem without_skip (c : Char) (k : Cutting α) (gone : Text → Bool) :
    (k.skip c).without gone = c :: k.without gone := by
  obtain ⟨_ | ⟨h, hs⟩, tail⟩ := k <;> rfl

@[simp] theorem standing_skip (c : Char) (k : Cutting α) (gone : Text → Bool) :
    (k.skip c).standing gone = k.standing gone := by
  obtain ⟨_ | ⟨h, hs⟩, tail⟩ := k <;> rfl

/-- Where no hit goes, the text is as it was. -/
theorem without_none (k : Cutting α) : k.without (fun _ => false) = k.text := rfl

theorem without_all (k : Cutting α) : k.without (fun _ => true) = k.remainder := by
  unfold without remainder
  simp only [if_true, List.append_nil]

end Cutting

/-- Every hit begins a line, where a line starts before the first gap if `fresh` holds. -/
def LineHits : (fresh : Bool) → List (Hit α) → Prop
  | _, [] => True
  | fresh, h :: hs => freshAfter fresh h.skipped = true ∧ LineHits (endsLine h.taken) hs

namespace Pattern

variable {p : Pattern α}

theorem Declares.lineHits_cutFrom (hp : p.Declares) (fresh : Bool) (s : Text) :
    LineHits fresh (p.cutFrom .lineStart fresh s).hits := by
  induction fresh, s using hp.induction with
  | nil fresh => rw [cutFrom_nil]; trivial
  | miss fresh c s hmiss ih =>
    rw [cutFrom_cons_of_miss hmiss]
    revert ih
    obtain ⟨_ | ⟨h, hs⟩, tail⟩ := p.cutFrom .lineStart (c == '\n') s
    · exact id
    · exact fun ih => ⟨(freshAfter_cons ..).trans ih.1, ih.2⟩
  | hit r s hread hhit ih =>
    rw [cutFrom_of_hit hhit]
    exact ⟨rfl, ih⟩

theorem cutFrom_word_append {w : Text} (hw : w ≠ []) (anchor : Anchor) {fresh : Bool}
    (hfresh : anchor = .lineStart → fresh = true) (z : Text) :
    (word w).cutFrom anchor fresh (w ++ z) =
      ⟨⟨[], w, ()⟩ :: ((word w).cutFrom anchor (endsLine w) z).hits,
        ((word w).cutFrom anchor (endsLine w) z).tail⟩ :=
  cutFrom_of_hit (hit?_word_append hw anchor hfresh z)

theorem closed_word (w : Text) : (word w).Closed := by
  intro s r h z
  obtain ⟨-, he⟩ := read_word_inv h
  rw [he]
  exact read_word_append w z

/-- The pattern, where what it takes passes a test. -/
def only (p : Pattern α) (test : Text → Bool) : Pattern α where
  read s := (p.read s).filter fun r => test r.taken
  taken_append_rest h := p.taken_append_rest (Option.filter_eq_some_iff.mp h).1

theorem read_only_of_passed {test : Text → Bool} {s : Text} {r : Reading α}
    (h : p.read s = some r) (ht : test r.taken = true) : (p.only test).read s = some r :=
  Option.filter_eq_some_iff.mpr ⟨h, ht⟩

theorem read_only_of_failed {test : Text → Bool} {s : Text} {r : Reading α}
    (h : p.read s = some r) (ht : test r.taken = false) : (p.only test).read s = none := by
  show (p.read s).filter _ = none
  rw [h, Option.filter_some, ht]
  rfl

theorem read_only_of_refused {s : Text} (h : p.read s = none) (test : Text → Bool) :
    (p.only test).read s = none := by
  show (p.read s).filter _ = none
  rw [h]
  rfl

theorem Declares.only (hp : p.Declares) (test : Text → Bool) : (p.only test).Declares where
  opens h := hp.opens (Option.filter_eq_some_iff.mp h).1

/-- What the pattern refuses at a place is no hit of it there, nor of a part of it. -/
theorem Declares.hit?_only (hp : p.Declares) {fresh : Bool} {s : Text}
    (h : p.hit? .lineStart fresh s = none) (test : Text → Bool) :
    (p.only test).hit? .lineStart fresh s = none := by
  cases fresh with
  | false => rfl
  | true =>
    rw [hp.hit?_eq] at h
    rw [(hp.only test).hit?_eq]
    exact read_only_of_refused h test

/-- A declaration that the pattern refuses goes to the gap as far as it is quiet. -/
theorem Declares.cutFrom_of_refused (hp : p.Declares) {t z : Text} (ht : Quiet false t)
    (h : p.read ('#' :: t ++ z) = none) :
    p.cutFrom .lineStart true ('#' :: t ++ z) =
      ('#' :: t).foldr Cutting.skip (p.cutFrom .lineStart (endsLine ('#' :: t)) z) := by
  have hmiss : p.hit? .lineStart true ('#' :: (t ++ z)) = none := by
    rw [hp.hit?_eq]
    exact h
  rw [List.cons_append, cutFrom_cons_of_miss hmiss, show ('#' == '\n') = false from rfl,
    hp.cutFrom_append_of_quiet ht]
  exact congrArg (fun fresh : Bool => ('#' :: t).foldr Cutting.skip (p.cutFrom .lineStart fresh z))
    (freshAfter_cons true '#' t).symm

/-- What a declaring pattern takes stays where that is not to go, and the rest of the text is cut by
itself. -/
theorem Declares.remainder_of_failed (hp : p.Declares) {test : Text → Bool} {s : Text}
    {r : Reading α} (h : p.read s = some r) (ht : test r.taken = false) :
    ((p.only test).cutFrom .lineStart true s).remainder =
      r.taken ++ ((p.only test).cutFrom .lineStart (endsLine r.taken) r.rest).remainder := by
  obtain ⟨t, htaken, hquiet⟩ := hp.quiet_of_hit h
  have hrefused := read_only_of_failed h ht
  rw [← p.taken_append_rest h, htaken] at hrefused
  have hcut := (hp.only test).cutFrom_of_refused hquiet hrefused
  rw [← htaken, p.taken_append_rest h] at hcut
  rw [hcut, Cutting.remainder_foldr_skip]

/-- To take out some of the hits is to cut along a part of the pattern. -/
theorem Declares.without_eq (hp : p.Declares) (gone : Text → Bool) (fresh : Bool) (s : Text) :
    (p.cutFrom .lineStart fresh s).without gone =
      ((p.only gone).cutFrom .lineStart fresh s).remainder := by
  induction fresh, s using hp.induction with
  | nil fresh => rw [cutFrom_nil, cutFrom_nil]; rfl
  | miss fresh c s hmiss ih =>
    rw [cutFrom_cons_of_miss hmiss, Cutting.without_skip, ih,
      remainder_of_miss (hp.hit?_only hmiss gone)]
  | hit r s hread hhit ih =>
    rw [cutFrom_of_hit hhit]
    cases hgone : gone r.taken with
    | true =>
      have hhit' : (p.only gone).hit? .lineStart true s = some r := by
        rw [(hp.only gone).hit?_eq]
        exact read_only_of_passed hread hgone
      rw [Cutting.without_cons_of_gone hgone, remainder_of_hit hhit', ← ih]
      rfl
    | false =>
      rw [Cutting.without_cons_of_stays hgone, hp.remainder_of_failed hread hgone, ← ih]
      rfl

/-- Nothing is taken out of the line that has begun. -/
theorem Declares.firstLine_cons_without (hp : p.Declares) (gone : Text → Bool) (c : Char) (s : Text) :
    firstLine (c :: (p.cutFrom .lineStart (c == '\n') s).without gone) = firstLine (c :: s) := by
  rw [firstLine, firstLine]
  split
  · rfl
  · next hc => rw [beq_eq_false_iff_ne.mpr hc, hp.without_eq, firstLine_remainder]

/-- In a tidy text no declaration stands where no line starts, so none is missed there. -/
theorem Declares.cutFrom_fresh (hp : p.Declares) {fresh : Bool} {s : Text} (h : Tidy fresh s) :
    p.cutFrom .lineStart true s = p.cutFrom .lineStart fresh s := by
  cases fresh with
  | true => rfl
  | false =>
    cases s with
    | nil => rw [cutFrom_nil, cutFrom_nil]
    | cons c s =>
      have hmiss : p.hit? .lineStart true (c :: s) = none := by
        rw [hp.hit?_eq, Option.eq_none_iff_forall_ne_some]
        intro r hr
        cases h.fresh (hp.prefix_of_read hr)
      rw [cutFrom_cons_of_miss hmiss, cutFrom_cons_of_miss (hit?_lineStart_false _)]

/-- What the pattern reads in `u` ends there, though `z` comes behind. -/
def StopsBefore (p : Pattern α) (u z : Text) : Prop :=
  ∀ v, v <:+ u → v ≠ [] → ∀ r, p.read (v ++ z) = some r → r.taken <+: v

theorem StopsBefore.of_suffix {u v z : Text} (h : p.StopsBefore u z) (hv : v <:+ u) :
    p.StopsBefore v z := fun w hw => h w (hw.trans hv)

/-- A declaration on a line of its own is not reached from what stands before it. -/
theorem Declares.stopsBefore (hp : p.Declares) {u z : Text} (hu : freshAfter true u = true)
    (hz : declarationWord <+: z) : p.StopsBefore u z := by
  rintro v ⟨x, rfl⟩ hne r hr
  rw [freshAfter_append, freshAfter_of_ne_nil hne] at hu
  exact hp.taken_of_append hu hz hr

/-- Before a seam a closed pattern hits what it hits without the text behind it. -/
theorem Closed.hit?_append (hp : p.Closed) {u z : Text} (h : p.StopsBefore u z) (hu : u ≠ [])
    (fresh : Bool) :
    p.hit? .anywhere fresh (u ++ z) =
      (p.hit? .anywhere fresh u).map fun r => ⟨r.note, r.taken, r.rest ++ z⟩ := by
  have hread : p.read (u ++ z) = (p.read u).map fun r => ⟨r.note, r.taken, r.rest ++ z⟩ := by
    cases hr : p.read u with
    | some r => exact hp.read_append hr z
    | none =>
      rw [Option.map_none, Option.eq_none_iff_forall_ne_some]
      intro r hrz
      obtain ⟨y, hy⟩ := hp.read_of_append hrz (h u List.suffix_rfl hu r hrz)
      rw [hr] at hy
      cases hy
  show (p.read (u ++ z)).filter _ = ((p.read u).filter _).map _
  rw [hread]
  cases p.read u with
  | none => rfl
  | some r =>
    rw [Option.map_some, Option.filter_some, Option.filter_some]
    split <;> rfl

/-- A closed pattern that does not reach across a seam cuts the two parts by themselves. -/
theorem Closed.cutFrom_append (hp : p.Closed) {u z : Text} (h : p.StopsBefore u z) (fresh : Bool) :
    p.cutFrom .anywhere fresh (u ++ z) =
      (p.cutFrom .anywhere fresh u).followedBy (p.cutFrom .anywhere (freshAfter fresh u) z) := by
  -- a hit may be long, so the induction is on the length of the first part
  induction hn : u.length using Nat.strongRecOn generalizing fresh u with
  | ind n ih =>
    subst hn
    cases u with
    | nil => rw [cutFrom_nil]; rfl
    | cons c u =>
      have hread := hp.hit?_append h (List.cons_ne_nil c u) fresh
      rw [List.cons_append] at hread ⊢
      cases hhit : p.hit? .anywhere fresh (c :: u) with
      | none =>
        rw [hhit] at hread
        rw [cutFrom_cons_of_miss hread, cutFrom_cons_of_miss hhit, freshAfter_cons,
          Cutting.skip_followedBy,
          ih u.length (Nat.lt_succ_self _) (h.of_suffix (List.suffix_cons c u)) _ rfl]
      | some r =>
        rw [hhit] at hread
        obtain ⟨hr, hne⟩ := read_of_hit? hhit
        have hu : r.taken ++ r.rest = c :: u := p.taken_append_rest hr
        have hlength : r.rest.length < (c :: u).length := by
          have := List.length_pos_iff.mpr hne
          rw [← hu, List.length_append]
          omega
        have hfresh : freshAfter fresh (c :: u) = freshAfter (endsLine r.taken) r.rest := by
          rw [← hu, freshAfter_append, freshAfter_of_ne_nil hne]
        rw [cutFrom_cons_of_hit hread, cutFrom_cons_of_hit hhit, hfresh,
          ih _ hlength (h.of_suffix ⟨r.taken, hu⟩) _ rfl]
        rfl

end Pattern

/-! ## What is left at the hits -/

namespace Cutting

/-- The seams at some hits, with the text `tail` behind the last of them. -/
def seamsFrom (tail : Text) : List (Hit α) → List (Text × Text)
  | [] => []
  | h :: hs =>
    (h.skipped, hs.flatMap Hit.skipped ++ tail) ::
      (seamsFrom tail hs).map fun seam => (h.skipped ++ seam.1, seam.2)

/-- What is left before each hit and what is left behind it, once the hits are taken out. -/
def seams (k : Cutting α) : List (Text × Text) := seamsFrom k.tail k.hits

theorem seams_cons (h : Hit α) (hs : List (Hit α)) (tail : Text) :
    (⟨h :: hs, tail⟩ : Cutting α).seams = (h.skipped, (⟨hs, tail⟩ : Cutting α).remainder) ::
      (⟨hs, tail⟩ : Cutting α).seams.map fun seam => (h.skipped ++ seam.1, seam.2) := rfl

theorem mem_seams_cons {h : Hit α} {hs : List (Hit α)} {tail left right : Text} :
    (left, right) ∈ (⟨h :: hs, tail⟩ : Cutting α).seams ↔
      left = h.skipped ∧ right = (⟨hs, tail⟩ : Cutting α).remainder ∨
        ∃ front, left = h.skipped ++ front ∧ (front, right) ∈ (⟨hs, tail⟩ : Cutting α).seams := by
  rw [seams_cons, List.mem_cons, Prod.mk.injEq, List.mem_map]
  refine or_congr_right ⟨?_, ?_⟩
  · intro ⟨⟨front, behind⟩, hseam, heq⟩
    obtain ⟨hleft, hright⟩ := Prod.mk.inj heq
    exact ⟨front, hleft.symm, hright ▸ hseam⟩
  · intro ⟨front, hleft, hseam⟩
    exact ⟨(front, right), hseam, by rw [hleft]⟩

theorem mem_seams_skip {c : Char} {k : Cutting α} {left right : Text}
    (h : (left, right) ∈ k.seams) : (c :: left, right) ∈ (k.skip c).seams := by
  obtain ⟨hits, tail⟩ := k
  cases hits with
  | nil => cases h
  | cons hit hs =>
    show _ ∈ (⟨{ hit with skipped := c :: hit.skipped } :: hs, tail⟩ : Cutting α).seams
    rw [mem_seams_cons] at h ⊢
    refine h.imp (fun ⟨hleft, hright⟩ => ⟨by rw [hleft], hright⟩) ?_
    exact fun ⟨front, hleft, hseam⟩ => ⟨front, by rw [hleft]; rfl, hseam⟩

/-- The two sides of a seam are all that is left. -/
theorem append_of_mem_seams {k : Cutting α} {left right : Text} (h : (left, right) ∈ k.seams) :
    left ++ right = k.remainder := by
  obtain ⟨hits, tail⟩ := k
  induction hits generalizing left with
  | nil => cases h
  | cons hit hs ih =>
    have hall : (⟨hit :: hs, tail⟩ : Cutting α).remainder =
        hit.skipped ++ (⟨hs, tail⟩ : Cutting α).remainder := List.append_assoc ..
    rw [hall]
    cases mem_seams_cons.mp h with
    | inl h => rw [h.1, h.2]
    | inr h =>
      obtain ⟨front, hleft, hseam⟩ := h
      rw [hleft, List.append_assoc, ih hseam]

/-- Where every hit begins a line, a line starts at every seam. -/
theorem freshAfter_of_mem_seams {fresh : Bool} {k : Cutting α} (hk : LineHits fresh k.hits)
    {left right : Text} (h : (left, right) ∈ k.seams) : freshAfter fresh left = true := by
  obtain ⟨hits, tail⟩ := k
  induction hits generalizing fresh left with
  | nil => cases h
  | cons hit hs ih =>
    obtain ⟨hskipped, hrest⟩ := hk
    cases mem_seams_cons.mp h with
    | inl h => rw [h.1, hskipped]
    | inr h =>
      obtain ⟨front, hleft, hseam⟩ := h
      rw [hleft, freshAfter_append, hskipped]
      exact freshAfter_of_imp (fun _ => rfl) (ih hrest hseam)

end Cutting

end FirmwareIds
