import FirmwareIds.Proofs.Resource.Shortening
import FirmwareIds.Proofs.Text.Seams

/-!
# Foreign blocks, by their places

Stripping removes a foreign block by its characters. What it should leave is the text without the
places where the foreign blocks stand, and everything else in order: `withoutForeign`. The two are
compared block by block. What is left when the turn of a block comes holds it at least as often as
there are such blocks still to go, since their places begin lines and no other occurrence reaches
into them (`IsBlock.cutFrom_without`); and if it holds it just as often, exactly these places are
removed (`IsBlock.removeAll_without_iff`). So stripping goes by places, step by step, if and only if
the foreign blocks stand apart: `stripForeign_by_places_iff`. `comment_loses_foreign_block` is a text
where one of them stands in a comment too.

A text is seen to be so from its lines (`Orderly.standApart`).
-/

namespace FirmwareIds

open Pattern Resource

variable {α : Type}

/-! ## Lengths -/

namespace Cutting

/-- Where one more text is to go, the length of it is lost as often as it stood there. -/
theorem length_without_or (k : Cutting α) (gone : Text → Bool) (b : Text) :
    (k.without fun t => gone t || t == b).length + (k.standing gone).count b * b.length =
      (k.without gone).length := by
  obtain ⟨hits, tail⟩ := k
  induction hits with
  | nil =>
    show tail.length + 0 * b.length = tail.length
    omega
  | cons h hs ih =>
    cases hgone : gone h.taken with
    | true =>
      rw [without_cons_of_gone hgone, without_cons_of_gone (by simp [hgone]),
        standing_cons_of_gone hgone]
      simp only [List.length_append]
      omega
    | false =>
      rw [without_cons_of_stays hgone, standing_cons_of_stays hgone]
      by_cases hb : h.taken = b
      · rw [without_cons_of_gone (by simp [hb]), hb, List.count_cons_self, Nat.add_mul]
        simp only [List.length_append]
        omega
      · rw [without_cons_of_stays (by simp [hgone, hb]), List.count_cons_of_ne hb]
        simp only [List.length_append]
        omega

end Cutting

namespace Pattern

/-- A search for a word takes the word. -/
theorem taken_of_mem_hits_word {w s : Text} {anchor : Anchor} {fresh : Bool} {h : Hit Unit}
    (hh : h ∈ ((word w).cutFrom anchor fresh s).hits) : h.taken = w := by
  obtain ⟨u, r, hr, htaken, -⟩ := exists_read_of_mem_hits hh
  obtain ⟨-, he⟩ := read_word_inv hr
  rw [← htaken, he]

end Pattern

namespace Resource

/-- The text without the blocks that are to go, each taken out where it stands. -/
def withoutBlocks (gone : Text → Bool) (s : Text) : Text := (block.cut .lineStart s).without gone

/-- The text without its foreign blocks, each taken out where it stands. -/
def withoutForeign (s : Text) : Text := withoutBlocks (fun b => !(foreignTags b).isEmpty) s

/-- How often a search from left to right finds a text. -/
def occurrences (needle s : Text) : Nat := ((word needle).cut .anywhere s).hits.length

/-- A search for a text removes the length of it each time. -/
theorem length_removeAll (b s : Text) :
    (removeAll b s).length + occurrences b s * b.length = s.length := by
  have hlength := ((word b).cut .anywhere s).length_without_or (fun _ => false) b
  have hall : ∀ piece ∈ ((word b).cut .anywhere s).pieces, piece = b := by
    intro piece hpiece
    obtain ⟨hit, hhit, rfl⟩ := List.mem_map.mp hpiece
    exact taken_of_mem_hits_word hhit
  have hremainder : ((word b).cut .anywhere s).without (fun t => false || t == b) =
      removeAll b s := by
    refine Eq.trans (Cutting.without_congr fun piece hpiece => ?_) (Cutting.without_all _)
    rw [hall piece hpiece]
    simp
  have hcount : (((word b).cut .anywhere s).standing fun _ => false).count b = occurrences b s := by
    have hpieces : ((word b).cut .anywhere s).standing (fun _ => false) =
        ((word b).cut .anywhere s).pieces := List.filter_eq_self.mpr fun _ _ => rfl
    rw [hpieces, List.count_eq_length.mpr fun t ht => (hall t ht).symm]
    exact List.length_map _
  rw [hremainder, hcount, Cutting.without_none, cut_text] at hlength
  exact hlength

namespace IsBlock

variable {b : Text}

theorem ne_nil (hb : IsBlock b) : b ≠ [] := by
  obtain ⟨t, rfl, -⟩ := hb.eq
  exact List.cons_ne_nil '#' _

theorem prefix_append (hb : IsBlock b) (z : Text) : declarationWord <+: b ++ z := by
  obtain ⟨t, rfl, -⟩ := hb.eq
  rw [List.append_assoc]
  exact List.prefix_append ..

/-- A block on a line of its own is found, whatever stands before it. -/
theorem cutFrom_append (hb : IsBlock b) {x : Text} (hx : freshAfter true x = true) (f : Bool)
    (z : Text) :
    ((word b).cutFrom .anywhere f (x ++ (b ++ z))).hits.length =
        ((word b).cutFrom .anywhere f x).hits.length +
          (((word b).cutFrom .anywhere (endsLine b) z).hits.length + 1) ∧
      ((word b).cutFrom .anywhere f (x ++ (b ++ z))).remainder =
        ((word b).cutFrom .anywhere f x).remainder ++
          ((word b).cutFrom .anywhere (endsLine b) z).remainder := by
  have hseam := hb.declares.stopsBefore hx (hb.prefix_append z)
  have hclosed : (word b).Closed := closed_word b
  have hword : (word b).cutFrom .anywhere (freshAfter f x) (b ++ z) = _ :=
    cutFrom_word_append hb.ne_nil .anywhere nofun z
  rw [hclosed.cutFrom_append hseam, hword, Cutting.length_hits_followedBy,
    Cutting.remainder_followedBy]
  exact ⟨rfl, rfl⟩

/-- Behind any text that ends where the hits begin, a search finds the block at least as often as it
is one of the hits that stay; if it finds it no more often, these are the places it finds. -/
theorem cutFrom_without (hb : IsBlock b) (gone : Text → Bool) (tail : Text) (hits : List (Hit α))
    {fresh : Bool} {x : Text} (hlines : LineHits fresh hits)
    (hx : fresh = true → freshAfter true x = true) (f : Bool) :
    ((⟨hits, tail⟩ : Cutting α).standing gone).count b ≤
        ((word b).cutFrom .anywhere f (x ++ (⟨hits, tail⟩ : Cutting α).without gone)).hits.length ∧
      (((word b).cutFrom .anywhere f (x ++ (⟨hits, tail⟩ : Cutting α).without gone)).hits.length =
          ((⟨hits, tail⟩ : Cutting α).standing gone).count b →
        ((word b).cutFrom .anywhere f (x ++ (⟨hits, tail⟩ : Cutting α).without gone)).remainder =
          x ++ (⟨hits, tail⟩ : Cutting α).without fun t => gone t || t == b) := by
  induction hits generalizing fresh x f with
  | nil => exact ⟨Nat.zero_le _, fun h => remainder_cutFrom_of_hits_nil (List.length_eq_zero_iff.mp h)⟩
  | cons h hs ih =>
    obtain ⟨hfresh, hrest⟩ := hlines
    have hbefore : freshAfter true (x ++ h.skipped) = true := by
      rw [freshAfter_append]
      exact freshAfter_of_imp hx hfresh
    cases hgone : gone h.taken with
    | true =>
      have hor : (gone h.taken || h.taken == b) = true := by simp [hgone]
      rw [Cutting.standing_cons_of_gone hgone, Cutting.without_cons_of_gone hgone,
        Cutting.without_cons_of_gone hor, ← List.append_assoc, ← List.append_assoc]
      exact ih hrest (fun _ => hbefore) f
    | false =>
      rw [Cutting.standing_cons_of_stays hgone, Cutting.without_cons_of_stays hgone]
      by_cases heq : h.taken = b
      · have hor : (gone h.taken || h.taken == b) = true := by simp [heq]
        obtain ⟨hle, heqn⟩ := ih (x := []) hrest (fun _ => rfl) (endsLine b)
        obtain ⟨hhits, hrem⟩ := hb.cutFrom_append hbefore f
          ((⟨hs, tail⟩ : Cutting α).without gone)
        rw [List.nil_append] at hle heqn
        rw [Cutting.without_cons_of_gone hor, heq, List.count_cons_self, List.append_assoc,
          ← List.append_assoc, hhits, hrem]
        refine ⟨by omega, fun hcount => ?_⟩
        -- nothing is found before the hit
        rw [heqn (by omega), remainder_cutFrom_of_hits_nil
          (List.length_eq_zero_iff.mp (by omega)), List.append_assoc]
        rfl
      · have hor : (gone h.taken || h.taken == b) = false := by simp [hgone, heq]
        rw [Cutting.without_cons_of_stays hor, List.count_cons_of_ne heq, ← List.append_assoc,
          ← List.append_assoc, ← List.append_assoc, ← List.append_assoc]
        refine ih hrest (fun hends => ?_) f
        rw [freshAfter_append]
        exact freshAfter_of_endsLine hends _

/-- The removal of a block takes exactly the places where it stands if and only if it is found no
more often than that. -/
theorem removeAll_without_iff (hb : IsBlock b) (gone : Text → Bool) (s : Text) :
    removeAll b (withoutBlocks gone s) = withoutBlocks (fun t => gone t || t == b) s ↔
      occurrences b (withoutBlocks gone s) =
        ((block.cut .lineStart s).standing gone).count b := by
  constructor
  · intro hremoved
    have hfound := length_removeAll b (withoutBlocks gone s)
    have hplaces := (block.cut .lineStart s).length_without_or gone b
    rw [hremoved] at hfound
    refine Nat.eq_of_mul_eq_mul_right (List.length_pos_iff.mpr hb.ne_nil) ?_
    unfold withoutBlocks at hfound ⊢
    omega
  · exact (hb.cutFrom_without (x := []) gone _ _ (declares_block.lineHits_cutFrom true s)
      (fun _ => rfl) true).2

end IsBlock

/-- The foreign blocks that are still to go when the turn of the block number `i` comes. -/
def stillForeign (i : Nat) (s : Text) : List Text :=
  (foreignBlocks s).filter (!((foreignBlocks s).take i).contains ·)

/-- When the turn of a foreign block comes, it stands in what is left as often as it is a block that
is still to go, and nowhere else. -/
def StandApart (s : Text) : Prop :=
  ∀ i, (hi : i < (foreignBlocks s).length) →
    occurrences (foreignBlocks s)[i] (withoutBlocks ((foreignBlocks s).take i).contains s) =
      (stillForeign i s).count (foreignBlocks s)[i]

instance (s : Text) : Decidable (StandApart s) :=
  inferInstanceAs (Decidable (∀ i, (_ : i < (foreignBlocks s).length) → _ = _))

/-- What stripping has left when the turn of the foreign block number `i` comes. -/
def strippedTo (i : Nat) (s : Text) : Text :=
  ((foreignBlocks s).take i).foldl (fun left b => removeAll b left) s

theorem count_stillForeign {s b : Text} (hb : b ∈ foreignBlocks s) (i : Nat) :
    (stillForeign i s).count b =
      ((block.cut .lineStart s).standing ((foreignBlocks s).take i).contains).count b := by
  have hforeign : (!(foreignTags b).isEmpty) = true := (List.mem_filter.mp hb).2
  have hcomm : stillForeign i s =
      ((block.cut .lineStart s).standing ((foreignBlocks s).take i).contains).filter
        (fun b => !(foreignTags b).isEmpty) := by
    unfold stillForeign Cutting.standing
    generalize (fun t => !((foreignBlocks s).take i).contains t) = stays
    unfold foreignBlocks
    simp only [List.filter_filter, Bool.and_comm]
  rw [hcomm, List.count_filter (p := fun b => !(foreignTags b).isEmpty) hforeign]

/-- A block without foreign tags adds none. -/
theorem flatMap_foreignBlocks (s : Text) :
    (foreignBlocks s).flatMap foreignTags = (block.cut .lineStart s).pieces.flatMap foreignTags := by
  unfold foreignBlocks
  induction (block.cut .lineStart s).pieces with
  | nil => rfl
  | cons b bs ih =>
    rw [List.filter_cons, List.flatMap_cons, ← ih]
    by_cases htags : foreignTags b = []
    · rw [htags]
      rfl
    · rw [if_pos (by simpa using htags), List.flatMap_cons]

theorem withoutBlocks_foreign (s : Text) :
    withoutBlocks (foreignBlocks s).contains s = withoutForeign s := by
  unfold withoutForeign withoutBlocks
  refine Cutting.without_congr fun piece hpiece => ?_
  rw [Bool.eq_iff_iff, List.contains_iff_mem, foreignBlocks, List.mem_filter]
  exact and_iff_right hpiece

/-- One step of stripping goes by places if and only if the block whose turn it is stands apart. -/
theorem strippedTo_succ_iff {s : Text} {i : Nat} (hi : i < (foreignBlocks s).length)
    (h : strippedTo i s = withoutBlocks ((foreignBlocks s).take i).contains s) :
    strippedTo (i + 1) s = withoutBlocks ((foreignBlocks s).take (i + 1)).contains s ↔
      occurrences (foreignBlocks s)[i] (withoutBlocks ((foreignBlocks s).take i).contains s) =
        (stillForeign i s).count (foreignBlocks s)[i] := by
  have hmem : (foreignBlocks s)[i] ∈ foreignBlocks s := List.getElem_mem hi
  have htake : (foreignBlocks s).take (i + 1) = (foreignBlocks s).take i ++ [(foreignBlocks s)[i]] :=
    List.take_succ_eq_append_getElem hi
  have hstep : strippedTo (i + 1) s = removeAll (foreignBlocks s)[i] (strippedTo i s) := by
    unfold strippedTo
    rw [htake, List.foldl_append]
    rfl
  have hgone : ((foreignBlocks s).take (i + 1)).contains =
      fun t => ((foreignBlocks s).take i).contains t || t == (foreignBlocks s)[i] := by
    funext t
    rw [Bool.eq_iff_iff, Bool.or_eq_true, List.contains_iff_mem, List.contains_iff_mem, htake,
      List.mem_append, List.mem_singleton, beq_iff_eq]
  rw [hstep, h, hgone, count_stillForeign hmem]
  exact (isBlock_of_mem_foreignBlocks hmem).1.removeAll_without_iff _ s

/-! ## Texts whose blocks stand apart -/

/-- A line that begins like the block is the first line of it. -/
def KnownByLine (b : Text) (fresh : Bool) (s : Text) : Prop :=
  ∀ u ∈ lineStarts fresh s, firstLine b <+: u → (block.read u).map Reading.taken = some b

instance (b : Text) (fresh : Bool) (s : Text) : Decidable (KnownByLine b fresh s) :=
  inferInstanceAs (Decidable (∀ u ∈ lineStarts fresh s, _))

theorem firstLine_isPrefix (s : Text) : firstLine s <+: s := by
  induction s with
  | nil => exact List.prefix_rfl
  | cons c s ih =>
    rw [firstLine]
    split
    · next hc => exact ⟨s, congrArg (· :: s) hc.symm⟩
    · exact List.cons_prefix_cons.mpr ⟨rfl, ih⟩

theorem firstLine_isPrefix_firstLine {s t : Text} (h : s <+: t) : firstLine s <+: firstLine t := by
  obtain ⟨z, rfl⟩ := h
  by_cases hs : '\n' ∈ s
  · exact ⟨[], (List.append_nil _).trans (firstLine_append_of_mem hs z).symm⟩
  · have hself := firstLine_append_of_not_mem hs []
    rw [List.append_nil] at hself
    rw [firstLine_append_of_not_mem hs, hself, firstLine, List.append_nil]
    exact List.prefix_append ..

theorem KnownByLine.of_append {b : Text} {fresh : Bool} {s t : Text}
    (h : KnownByLine b fresh (s ++ t)) : KnownByLine b (freshAfter fresh s) t := by
  intro u hu
  refine h u ?_
  rw [lineStarts_append]
  exact List.mem_append_right _ hu

/-- Where the first line of a text is that of another one in which the block would be known, the
block begins there only if it begins the other one. -/
theorem KnownByLine.read_of_read {b s t : Text} {r : Reading Unit} (h : KnownByLine b true s)
    (hs : s ≠ []) (hline : firstLine t = firstLine s) (hr : (word b).read t = some r) :
    (block.read s).map Reading.taken = some b := by
  obtain ⟨ht, -⟩ := read_word_inv hr
  refine h s (mem_lineStarts_iff.mpr ⟨hs, [], rfl, rfl⟩) ?_
  have hprefix : firstLine b <+: firstLine t := firstLine_isPrefix_firstLine ⟨r.rest, ht.symm⟩
  rw [hline] at hprefix
  exact hprefix.trans (firstLine_isPrefix s)

theorem KnownByLine.read_eq_none {b s t : Text} (h : KnownByLine b true s) (hs : s ≠ [])
    (hline : firstLine t = firstLine s) (hno : ∀ r, block.read s = some r → r.taken ≠ b) :
    (word b).read t = none := by
  rw [Option.eq_none_iff_forall_ne_some]
  intro q hq
  obtain ⟨r, hr, hb⟩ := Option.map_eq_some_iff.mp (h.read_of_read hs hline hq)
  exact hno r hr hb

/-- A block that stays is passed over where another one is looked for. -/
theorem IsBlock.length_hits_behind {b z s : Text} {r : Reading Text} (hb : IsBlock b)
    (hread : block.read s = some r) (hrefused : (word b).read (r.taken ++ z) = none) :
    ((word b).cutFrom .lineStart true (r.taken ++ z)).hits.length =
      ((word b).cutFrom .lineStart (endsLine r.taken) z).hits.length := by
  obtain ⟨t, htaken, hquiet⟩ := declares_block.quiet_of_hit hread
  rw [htaken] at hrefused ⊢
  rw [hb.declares.cutFrom_of_refused hquiet hrefused, Cutting.length_hits_foldr_skip]

/-- A block that is known by its line is found in what is left as often as it stands there. -/
theorem IsBlock.length_hits_without {b : Text} (hb : IsBlock b) (gone : Text → Bool) {fresh : Bool}
    {s : Text} (htidy : Tidy fresh s) (hknown : KnownByLine b fresh s) :
    ((word b).cutFrom .lineStart fresh ((block.cutFrom .lineStart fresh s).without gone)).hits.length =
      ((block.cutFrom .lineStart fresh s).standing gone).count b := by
  induction fresh, s using declares_block.induction with
  | nil fresh =>
    rw [cutFrom_nil, Cutting.without_nil, cutFrom_nil]
    rfl
  | miss fresh c s hmiss ih =>
    rw [cutFrom_cons_of_miss hmiss, Cutting.without_skip, Cutting.standing_skip]
    have hline := declares_block.firstLine_cons_without gone c s
    have hmiss' : (word b).hit? .lineStart fresh
        (c :: (block.cutFrom .lineStart (c == '\n') s).without gone) = none := by
      cases fresh with
      | false => rfl
      | true =>
        rw [declares_block.hit?_eq] at hmiss
        rw [hb.declares.hit?_eq]
        exact hknown.read_eq_none (List.cons_ne_nil c s) hline fun r hr => nomatch hmiss.symm.trans hr
    rw [cutFrom_cons_of_miss hmiss', Cutting.length_hits_skip]
    exact ih htidy.2 (hknown.of_append (s := [c]))
  | hit r s hread hhit ih =>
    have hne := (read_of_hit? hhit).2
    have hs := block.taken_append_rest hread
    have hrest : Tidy (endsLine r.taken) r.rest := Tidy.rest htidy hread hne
    have hknown' : KnownByLine b (endsLine r.taken) r.rest := by
      have h := hknown
      rw [← hs] at h
      rw [← freshAfter_of_ne_nil hne true]
      exact h.of_append
    have hleft := ih hrest hknown'
    rw [cutFrom_of_hit hhit]
    cases hgone : gone r.taken with
    | true =>
      have htidy' : Tidy (endsLine r.taken)
          ((block.cutFrom .lineStart (endsLine r.taken) r.rest).without gone) := by
        rw [declares_block.without_eq]
        exact (declares_block.only gone).tidy_remainder hrest
      rw [Cutting.without_cons_of_gone hgone, Cutting.standing_cons_of_gone hgone, ← hleft,
        ← hb.declares.cutFrom_fresh htidy']
      rfl
    | false =>
      have hline : firstLine (r.taken ++
          (block.cutFrom .lineStart (endsLine r.taken) r.rest).without gone) = firstLine s := by
        rw [declares_block.without_eq, ← declares_block.remainder_of_failed hread hgone]
        exact (declares_block.only gone).firstLine_remainder_of_refused
          (declares_block.prefix_of_read hread) (read_only_of_failed hread hgone)
      rw [Cutting.without_cons_of_stays hgone, Cutting.standing_cons_of_stays hgone,
        List.nil_append]
      by_cases hb' : r.taken = b
      · rw [hb'] at hleft ⊢
        rw [cutFrom_word_append hb.ne_nil .lineStart fun _ => rfl, List.count_cons_self, ← hleft]
        rfl
      · have hrefused : (word b).read (r.taken ++
            (block.cutFrom .lineStart (endsLine r.taken) r.rest).without gone) = none := by
          have hs' : s ≠ [] := fun hnil => hne (List.append_eq_nil_iff.mp (hs.trans hnil)).1
          exact hknown.read_eq_none hs' hline fun q hq =>
            Option.some.inj (hread.symm.trans hq) ▸ hb'
        rw [List.count_cons_of_ne hb', ← hleft, hb.length_hits_behind hread hrefused]

/-- The word of a declaration stands at line starts only, and every line that begins like a foreign
block is one. -/
structure Orderly (s : Text) : Prop where
  tidy : Tidy true s
  known : ∀ b ∈ foreignBlocks s, KnownByLine b true s

instance (s : Text) : Decidable (Orderly s) :=
  decidable_of_iff (Tidy true s ∧ ∀ b ∈ foreignBlocks s, KnownByLine b true s)
    ⟨fun h => ⟨h.1, h.2⟩, fun h => ⟨h.1, h.2⟩⟩

/-- In an orderly text the foreign blocks stand apart. -/
theorem Orderly.standApart {s : Text} (h : Orderly s) : StandApart s := by
  intro i hi
  have hmem : (foreignBlocks s)[i] ∈ foreignBlocks s := List.getElem_mem hi
  have hb : IsBlock (foreignBlocks s)[i] := (isBlock_of_mem_foreignBlocks hmem).1
  have hleft : Tidy true (withoutBlocks ((foreignBlocks s).take i).contains s) := by
    unfold withoutBlocks cut
    rw [declares_block.without_eq]
    exact (declares_block.only _).tidy_remainder h.tidy
  rw [count_stillForeign hmem]
  unfold occurrences cut
  rw [hb.declares.cutFrom_anywhere hleft]
  exact hb.length_hits_without _ h.tidy (h.known _ hmem)

/-! ## Stripping by places -/

/-- The tags are those of all blocks, in order. Every step of stripping takes out exactly the places
of the block whose turn it is, if and only if the foreign blocks stand apart; what is left then is
the text without its foreign blocks. In an orderly text they do. -/
theorem stripForeign_by_places_iff (s : Text) :
    (stripForeign s).1 = (block.cut .lineStart s).pieces.flatMap foreignTags ∧
      ((∀ i ≤ (foreignBlocks s).length,
          strippedTo i s = withoutBlocks ((foreignBlocks s).take i).contains s) ↔ StandApart s) ∧
      (StandApart s → (stripForeign s).2 = withoutForeign s) ∧ (Orderly s → StandApart s) := by
  have hsteps : (∀ i ≤ (foreignBlocks s).length,
      strippedTo i s = withoutBlocks ((foreignBlocks s).take i).contains s) ↔ StandApart s := by
    constructor
    · intro h i hi
      exact (strippedTo_succ_iff hi (h i (Nat.le_of_lt hi))).mp (h (i + 1) hi)
    · intro h i hi
      induction i with
      | zero => exact (cut_text block .lineStart s).symm
      | succ i ih => exact (strippedTo_succ_iff hi (ih (Nat.le_of_succ_le hi))).mpr (h i hi)
  refine ⟨flatMap_foreignBlocks s, hsteps, fun h => ?_, Orderly.standApart⟩
  · have hall := hsteps.mpr h _ (Nat.le_refl _)
    rw [List.take_length, withoutBlocks_foreign] at hall
    rw [← hall]
    unfold strippedTo
    rw [List.take_length]
    rfl

/-- A file with a foreign block twice, and a comment. -/
def twoLanguages : Text :=
  ("// colours\n" ++
    "#string RED #language en \"Red\"\n" ++
    " #language fr \"Rouge\"\n" ++
    "#string BLUE #language en \"Blue\"\n" ++
    "#string RED #language en \"Red\"\n" ++
    " #language fr \"Rouge\"\n").toList

theorem twoLanguages_stripped_by_places :
    Orderly twoLanguages ∧ StandApart twoLanguages ∧
      (stripForeign twoLanguages).2 = withoutForeign twoLanguages := by
  have horderly : Orderly twoLanguages := by decide +kernel
  obtain ⟨-, -, hplaces, hapart⟩ := stripForeign_by_places_iff twoLanguages
  exact ⟨horderly, hapart horderly, hplaces (hapart horderly)⟩

/-- A file with a block that is in a comment too. -/
def copiedToComment : Text :=
  ("// #string STR_A #language fr-FR \"Alpha\"\n" ++
    "#string STR_A #language fr-FR \"Alpha\"\n").toList

/-- The comment is lost with the block: two occurrences are removed, and one of them is no block. -/
theorem comment_loses_foreign_block :
    (stripForeign copiedToComment).2 = "// ".toList ∧
      withoutForeign copiedToComment = "// #string STR_A #language fr-FR \"Alpha\"\n".toList := by
  decide +kernel

end Resource

end FirmwareIds
