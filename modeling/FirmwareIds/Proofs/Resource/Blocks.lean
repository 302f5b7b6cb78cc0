import FirmwareIds.Proofs.Resource.Declarations
import FirmwareIds.Proofs.Text.Removal
import FirmwareIds.Resource.Block

/-!
# Blocks and their variants

A block is an identifier and a row of variants, and the row ends where no variant follows. So the
same block can be longer in another text: what follows a variant there may be one more.
`note_row_extends` says that a row that goes on keeps the tags it had, and `taken_block` that the
tags of a block are the notes of its row. `block_of_front` puts this together: if one block is the
front of another one, they have the same identifier, and the tags of the one come first in the
other.

The line of a definition is the front of a block, so a block without definition lines is passed
over when definition lines are cut out: `read_definitionLine_eq_none`.
-/

namespace FirmwareIds.Resource

open Pattern

theorem identifiers_eq (s : Text) :
    identifiers s = (lineStarts true s).filterMap fun u => (block.read u).map Reading.note :=
  declares_block.notes_cut s

/-! ## The end of a line -/

theorem EndsRun.of_head {class_ : Char → Bool} {t z y : Text} (h : EndsRun class_ (t ++ z))
    (hy : ∀ c ∈ y.head?, c ∈ z.head?) : EndsRun class_ (t ++ y) := by
  cases t with
  | nil => exact fun c hc => h c (hy c hc)
  | cons d t => exact h

/-- What ends a line is seen from the character behind it. -/
theorem read_lineEnd_of_head {e z y : Text} (h : lineEnd.read (e ++ z) = some ⟨(), e, z⟩)
    (hy : ∀ c ∈ y.head?, c ∈ z.head?) : lineEnd.read (e ++ y) = some ⟨(), e, y⟩ := by
  obtain ⟨r₁, u, h₁, h, he⟩ := read_bind_inv h
  obtain ⟨cr, z₁, u₁, hs₁, hcr, hcr₁, hcr₂, h, rfl⟩ := read_optional_bind_inv h
  obtain ⟨lf, z₂, u₂, rfl, hlf, hlf₁, hlf₂, h, rfl⟩ := read_optional_bind_inv h
  obtain ⟨hs, hblank, hend, hr₁⟩ := read_many_inv h₁
  cases h
  rw [hs₁] at hend
  rw [List.append_nil] at he
  have he' : e = r₁.taken ++ (cr ++ lf) := he
  rw [he']
  simp only [List.append_assoc]
  have hread : lineEnd.read (r₁.taken ++ (cr ++ (lf ++ y))) =
      some ⟨(), r₁.taken ++ (cr ++ (lf ++ [])), y⟩ := by
    refine read_bind_of (read_many_append hblank ?_) ?_
    · rw [← List.append_assoc] at hend ⊢
      exact EndsRun.of_head hend hy
    refine read_bind_of (read_between_append hcr (Nat.zero_le _) hcr₁ ?_) ?_
    · exact hcr₂.imp id fun h => EndsRun.of_head h hy
    refine read_bind_of (read_between_append hlf (Nat.zero_le _) hlf₁ ?_) (read_pure _ _)
    exact hlf₂.imp id fun h => EndsRun.of_head (t := []) h hy
  rw [hread, List.append_nil]

/-! ## Rows of variants -/

namespace VariantParts

variable {v : VariantParts} {z y : Text}

theorem quote_mem_text (v : VariantParts) : '"' ∈ v.text := by
  unfold text front
  simp

theorem Fits.quote_not_mem_ending (h : v.Fits z) : '"' ∉ v.ending :=
  fun hm => absurd (taken_lineEnd h.ending _ hm) (by decide)

/-- A variant keeps its size before another text, if that begins alike and the line goes on
without quotation marks. -/
theorem Fits.of_head (h : v.Fits z) (hy : ∀ c ∈ y.head?, c ∈ z.head?)
    (hline : '"' ∉ firstLine (v.ending ++ y)) : v.Fits y := by
  obtain ⟨-, hnl, hlast, -, -⟩ := read_throughLastQuote_inv h.value
  exact ⟨h.tag, h.two_le, h.le_five, read_throughLastQuote_append hnl hlast hline,
    read_lineEnd_of_head h.ending hy⟩

/-- A variant stands by itself. -/
theorem Fits.alone (h : v.Fits z) : v.Fits [] := by
  refine h.of_head nofun ?_
  rw [List.append_nil]
  exact fun hm => h.quote_not_mem_ending (mem_firstLine hm)

/-- A variant before another one is as long as it was, whatever follows that one. -/
theorem Fits.of_quote {t : Text} (h : v.Fits (t ++ z)) (ht : '"' ∈ t) (y : Text) :
    v.Fits (t ++ y) := by
  obtain ⟨-, -, -, hline, -⟩ := read_throughLastQuote_inv h.value
  refine h.of_head ?_ ?_
  · cases t with
    | nil => cases ht
    | cons c t => exact fun d hd => hd
  · -- the line ends before the quotation mark of `t`, or there would be one on it
    have hfeed : '\n' ∈ v.ending ++ t := by
      refine Decidable.not_not.mp fun hn => hline ?_
      show '"' ∈ firstLine (v.ending ++ (t ++ z))
      rw [← List.append_assoc, firstLine_append_of_not_mem hn]
      exact List.mem_append_left _ (List.mem_append_right _ ht)
    rw [← List.append_assoc, firstLine_append_of_mem hfeed]
    have := hline
    change '"' ∉ firstLine (v.ending ++ (t ++ z)) at this
    rwa [← List.append_assoc, firstLine_append_of_mem hfeed] at this

/-- A variant may grow to the end of its line, but it keeps its tag. -/
theorem Fits.read_note (h : v.Fits z) (y : Text) :
    ∃ r, variant.read (v.text ++ y) = some r ∧ r.note = v.tag := by
  obtain ⟨-, hnl, hlast, -, -⟩ := read_throughLastQuote_inv h.value
  obtain ⟨u, x, hux, hread⟩ := read_throughLastQuote_of_mem hnl hlast (v.ending ++ y)
  obtain ⟨e, x', hend⟩ := read_lineEnd x
  have hx : e ++ x' = x := lineEnd.taken_append_rest hend
  have hfits : Fits { v with value := v.value ++ u, ending := e } x' := by
    refine ⟨h.tag, h.two_le, h.le_five, ?_, ?_⟩
    · show throughLastQuote.read ((v.value ++ u) ++ (e ++ x')) = _
      rw [hx, List.append_assoc, ← hux]
      exact hread
    · show lineEnd.read (e ++ x') = _
      rw [hx]
      exact hend
  have htext : v.text ++ y = text { v with value := v.value ++ u, ending := e } ++ x' := by
    unfold text
    simp only [List.append_assoc]
    rw [hx, hux]
    rfl
  rw [htext]
  exact ⟨_, hfits.read, rfl⟩

end VariantParts

theorem row_of_none {α : Type} {p : Pattern α} {s : Text} (h : p.read s = none) :
    row p s = ⟨[], [], s⟩ := by
  rw [row]
  split
  · rfl
  · next hr => rw [h] at hr; cases hr

theorem row_of_some {α : Type} {p : Pattern α} {s : Text} {r : Reading α} (h : p.read s = some r)
    (hr : r.taken ≠ []) :
    row p s = ⟨r.note :: (row p r.rest).note, r.taken ++ (row p r.rest).taken,
      (row p r.rest).rest⟩ := by
  rw [row]
  split
  · next hn => rw [h] at hn; cases hn
  · next r' hr' =>
    rw [h] at hr'
    cases hr'
    rw [dif_neg hr]

/-- What the row of variants takes is nothing, or a variant and the row behind it. -/
theorem row_variant_cases (s : Text) :
    row variant s = ⟨[], [], s⟩ ∨
      ∃ (v : VariantParts) (z : Text), v.Fits z ∧ s = v.text ++ z ∧
        row variant s = ⟨v.tag :: (row variant z).note, v.text ++ (row variant z).taken,
          (row variant z).rest⟩ := by
  cases h : variant.read s with
  | none => exact Or.inl (row_of_none h)
  | some r =>
    obtain ⟨v, hv, hr⟩ := read_variant_inv h
    refine Or.inr ⟨v, r.rest, hv, ?_, ?_⟩
    · rw [← variant.taken_append_rest h, hr]
    · rw [row_of_some h (by rw [hr]; exact hv.text_ne_nil), hr]

theorem row_append {v : VariantParts} {z : Text} (h : v.Fits z) :
    row variant (v.text ++ z) = ⟨v.tag :: (row variant z).note, v.text ++ (row variant z).taken,
      (row variant z).rest⟩ :=
  row_of_some h.read h.text_ne_nil

theorem row_nil : row variant [] = ⟨[], [], []⟩ := row_of_none rfl

/-- The first variant of a row is as long as it was before anything that the row goes on with. -/
theorem VariantParts.Fits.before_row {v : VariantParts} {z : Text} (h : v.Fits z) {y : Text}
    (hy : (row variant z).taken ≠ [] ∨ y = []) : v.Fits ((row variant z).taken ++ y) := by
  rcases row_variant_cases z with hz | ⟨w, x, hw, rfl, hz⟩
  · rw [hz] at hy ⊢
    rcases hy with hy | rfl
    · exact absurd rfl hy
    · exact h.alone
  · rw [hz, List.append_assoc]
    have hx := taken_append_rest_row variant x
    exact h.of_quote w.quote_mem_text _

/-- A row of variants is read as it was where nothing follows it. -/
theorem row_taken (s : Text) :
    row variant (row variant s).taken = ⟨(row variant s).note, (row variant s).taken, []⟩ := by
  induction hn : s.length using Nat.strongRecOn generalizing s with
  | ind n ih =>
    subst hn
    rcases row_variant_cases s with hs | ⟨v, z, hv, rfl, hs⟩
    · rw [hs]
      exact row_nil
    · have hlen : z.length < (v.text ++ z).length := by
        have := List.length_pos_iff.mpr hv.text_ne_nil
        rw [List.length_append]
        omega
      have hfits := hv.before_row (y := []) (Or.inr rfl)
      rw [List.append_nil] at hfits
      rw [hs, row_append hfits, ih _ hlen z rfl]

/-- A row that goes on keeps the tags it had. -/
theorem note_row_extends (s y : Text) :
    (row variant s).note <+: (row variant ((row variant s).taken ++ y)).note := by
  induction hn : s.length using Nat.strongRecOn generalizing s with
  | ind n ih =>
    subst hn
    rcases row_variant_cases s with hs | ⟨v, z, hv, rfl, hs⟩
    · rw [hs]
      exact List.nil_prefix
    · rw [hs]
      show v.tag :: _ <+: (row variant ((v.text ++ (row variant z).taken) ++ y)).note
      rw [List.append_assoc]
      by_cases hz : (row variant z).taken = []
      · -- the last variant may grow, but it keeps its tag
        obtain ⟨r, hread, hnote⟩ := hv.read_note y
        have hnotes : (row variant z).note = [] := by
          rcases row_variant_cases z with hz' | ⟨w, x, hw, -, hz'⟩
          · rw [hz']
          · rw [hz'] at hz
            exact absurd (List.append_eq_nil_iff.mp hz).1 hw.text_ne_nil
        obtain ⟨w, hw, hr⟩ := read_variant_inv hread
        rw [hz, List.nil_append, hnotes, row_of_some hread (by rw [hr]; exact hw.text_ne_nil),
          hnote]
        exact List.cons_prefix_cons.mpr ⟨rfl, List.nil_prefix⟩
      · have hlen : z.length < (v.text ++ z).length := by
          have := List.length_pos_iff.mpr hv.text_ne_nil
          rw [List.length_append]
          omega
        rw [row_append (hv.before_row (Or.inl hz))]
        exact List.cons_prefix_cons.mpr ⟨rfl, ih _ hlen z rfl⟩

/-! ## The tags of a block -/

/-- A variant begins with a gap, and its language follows that. -/
theorem read_variant_eq_none {g z : Text} (hg : ∀ c ∈ g, isGap c = true)
    (hz : ∀ c ∈ z.head?, isGap c = false ∧ (g = [] ∨ c ≠ '#')) :
    variant.read (g ++ z) = none := by
  rw [Option.eq_none_iff_forall_ne_some]
  intro r h
  obtain ⟨v, -, hr⟩ := read_variant_inv h
  have hs := variant.taken_append_rest h
  have hend : EndsRun isGap z := fun c hc => (hz c hc).1
  have hdrop := dropWhile_append_of_endsRun hg hend
  have htake := takeWhile_append_of_endsRun hg hend
  rw [← hs, hr] at hdrop htake
  have htext : v.text ++ r.rest = v.before.text ++ ('#' :: ("language".toList ++ (v.inner.text ++
      (v.tag ++ (v.gap.text ++ ['"'])) ++ (v.value ++ v.ending) ++ r.rest))) := by
    unfold VariantParts.text VariantParts.front
    simp only [List.append_assoc]
    rfl
  have hhash : EndsRun isGap ('#' :: ("language".toList ++ (v.inner.text ++
      (v.tag ++ (v.gap.text ++ ['"'])) ++ (v.value ++ v.ending) ++ r.rest))) :=
    endsRun_cons (by decide) _
  have hall : ∀ c ∈ v.before.text, isGap c = true := fun c => v.before.class_of_mem
  change (v.text ++ r.rest).dropWhile isGap = z at hdrop
  change (v.text ++ r.rest).takeWhile isGap = g at htake
  rw [htext, dropWhile_append_of_endsRun hall hhash] at hdrop
  rw [htext, takeWhile_append_of_endsRun hall hhash] at htake
  rw [← hdrop] at hz
  rcases (hz '#' rfl).2 with hnil | hc
  · exact v.before.text_ne_nil (htake.trans hnil)
  · exact hc rfl

theorem read_variant_of_not_gap {u : Text} (hu : u ≠ []) (h : ∀ c ∈ u, isGap c = false)
    (t : Text) : variant.read (u ++ t) = none := by
  cases u with
  | nil => exact absurd rfl hu
  | cons c u =>
    refine read_variant_eq_none (g := []) nofun fun d hd => ⟨?_, Or.inl rfl⟩
    cases hd
    exact h c (List.mem_cons_self ..)

/-- Where the pattern is refused all along, the characters go to the gap. -/
theorem cutFrom_append_of_refused {α : Type} {p : Pattern α} {s t : Text} {fresh : Bool}
    (h : ∀ u, u <:+ s → u ≠ [] → p.read (u ++ t) = none) :
    p.cutFrom .anywhere fresh (s ++ t) =
      s.foldr Cutting.skip (p.cutFrom .anywhere (freshAfter fresh s) t) := by
  induction s generalizing fresh with
  | nil => rfl
  | cons c s ih =>
    have hmiss : p.hit? .anywhere fresh (c :: (s ++ t)) = none := by
      have := h (c :: s) List.suffix_rfl (List.cons_ne_nil c s)
      unfold hit?
      rw [show p.read (c :: (s ++ t)) = none from this]
      rfl
    rw [List.cons_append, cutFrom_cons_of_miss hmiss, freshAfter_cons, List.foldr_cons,
      ih fun u hu => h u (hu.trans (List.suffix_cons c s))]

/-- A text that is one row is cut into the readings of the row. -/
theorem notes_of_row {α : Type} {p : Pattern α} {s : Text} (h : (row p s).rest = [])
    (fresh : Bool) : (p.cutFrom .anywhere fresh s).notes = (row p s).note := by
  fun_induction row p s generalizing fresh with
  | case1 s _ => rw [show s = [] from h, cutFrom_nil]; rfl
  | case2 s _ _ _ => rw [show s = [] from h, cutFrom_nil]; rfl
  | case3 s r hr ht _ more ih =>
    cases s with
    | nil => exact absurd (List.append_eq_nil_iff.mp (p.taken_append_rest hr)).1 ht
    | cons c s =>
      have hhit : p.hit? .anywhere fresh (c :: s) = some r := by
        have hne : (!r.taken.isEmpty) = true := by simpa using ht
        unfold hit?
        rw [hr]
        simp [hne, Option.filter]
      rw [cutFrom_cons_of_hit hhit]
      exact congrArg (r.note :: ·) (ih h _)

/-- A block in its parts: the row of variants is what follows the identifier. -/
structure BlockParts where
  blanks : RunOf isBlank
  identifier : RunOf isWordChar
  variants : Text

namespace BlockParts

/-- What stands before the variants. -/
def front (b : BlockParts) : Text := declarationWord ++ (b.blanks.text ++ b.identifier.text)

/-- The block. -/
def text (b : BlockParts) : Text := b.front ++ b.variants

end BlockParts

/-- Before the variants of a block, none is read. -/
theorem cut_block (b : BlockParts) :
    variant.cut .anywhere b.text =
      b.front.foldr Cutting.skip
        (variant.cutFrom .anywhere (freshAfter true b.front) b.variants) := by
  have hword : ∀ c ∈ b.identifier.text, isGap c = false := fun c hc =>
    isGap_of_isWordChar (b.identifier.class_of_mem hc)
  have hblank : ∀ c ∈ b.blanks.text, isGap c = true := fun c hc =>
    isGap_of_isBlank (b.blanks.class_of_mem hc)
  have hdeclaration : ∀ c ∈ declarationWord, isGap c = false := fun c hc =>
    Bool.eq_false_iff.mpr (List.any_eq_false.mp (by decide) c hc)
  unfold cut BlockParts.text BlockParts.front
  rw [List.append_assoc, List.append_assoc, cutFrom_append_of_refused, cutFrom_append_of_refused,
    cutFrom_append_of_refused, List.foldr_append, List.foldr_append, freshAfter_append,
    freshAfter_append]
  · exact fun u hu hne => read_variant_of_not_gap hne (fun c hc => hword c (hu.subset hc)) _
  · intro u hu _
    refine read_variant_eq_none (fun c hc => hblank c (hu.subset hc)) fun c hc => ⟨?_, ?_⟩
    · exact endsRun_of_run b.identifier (fun _ => isGap_of_isWordChar) _ c hc
    · have hsharp : EndsRun (· == '#') (b.identifier.text ++ b.variants) := by
        refine endsRun_of_run b.identifier (fun d hd => ?_) _
        rw [beq_eq_false_iff_ne]
        rintro rfl
        exact absurd hd (by decide)
      exact Or.inr (ne_of_beq_false (hsharp c hc))
  · exact fun u hu hne => read_variant_of_not_gap hne (fun c hc => hdeclaration c (hu.subset hc)) _

theorem taken_block {s : Text} {r : Reading Text} (h : block.read s = some r) :
    ∃ b : BlockParts, r.taken = b.text ∧ r.note = b.identifier.text ∧
      row variant b.variants = ⟨tags r.taken, b.variants, []⟩ ∧ EndsRun isWordChar b.variants := by
  obtain ⟨blanks, identifier, z, rfl, hend, hr⟩ := read_block_inv h
  have hrow := row_taken z
  have hends : EndsRun isWordChar (row variant z).taken := by
    rcases row_variant_cases z with hz | ⟨v, y, hv, -, hz⟩
    · rw [hz]
      exact nofun
    · rw [hz, VariantParts.text, VariantParts.front, List.append_assoc, List.append_assoc]
      exact endsRun_of_run v.before (fun c => isWordChar_of_isGap) _
  have htaken : r.taken = BlockParts.text ⟨blanks, identifier, (row variant z).taken⟩ := by
    rw [hr, BlockParts.text, BlockParts.front, List.append_assoc, List.append_assoc]
  refine ⟨⟨blanks, identifier, (row variant z).taken⟩, htaken, by rw [hr], ?_, hends⟩
  have htags : tags r.taken = (row variant z).note := by
    rw [htaken, tags, cut_block, Cutting.notes_foldr_skip, notes_of_row (by rw [hrow]), hrow]
  rw [htags]
  exact hrow

theorem tags_ne_nil {b : BlockParts} {tags : List Text}
    (h : row variant b.variants = ⟨tags, b.variants, []⟩) (htags : tags ≠ []) : b.variants ≠ [] := by
  intro hb
  rw [hb, row_nil] at h
  exact htags (Reading.mk.inj h).1.symm

/-- What follows an identifier with variants does not belong to it. -/
theorem endsRun_variants {b : BlockParts} (hb : b.variants ≠ [])
    (h : EndsRun isWordChar b.variants) (z : Text) : EndsRun isWordChar (b.variants ++ z) := by
  cases hv : b.variants with
  | nil => exact absurd hv hb
  | cons c t =>
    rw [hv] at h
    exact h

/-- If one block with variants is the front of another block, they have the same identifier, and
the tags of the one come first in the other. -/
theorem block_of_front {s t : Text} {r q : Reading Text} (hr : block.read s = some r)
    (hq : block.read t = some q) (hp : r.taken <+: q.taken) (htags : tags r.taken ≠ []) :
    r.note = q.note ∧ tags r.taken <+: tags q.taken := by
  obtain ⟨b, hb, hnote, hrow, hend⟩ := taken_block hr
  obtain ⟨b', hb', hnote', hrow', hend'⟩ := taken_block hq
  have hne := tags_ne_nil hrow htags
  obtain ⟨w, hw⟩ := hp
  rw [hb, hb'] at hw
  have hbody : b.blanks.text ++ (b.identifier.text ++ (b.variants ++ w)) =
      b'.blanks.text ++ (b'.identifier.text ++ b'.variants) := by
    unfold BlockParts.text BlockParts.front at hw
    simp only [List.append_assoc] at hw
    exact List.append_cancel_left hw
  have hblanks : b.blanks.text = b'.blanks.text := by
    have h := congrArg (List.takeWhile isBlank) hbody
    rwa [takeWhile_append_of_endsRun (fun c => b.blanks.class_of_mem)
        (endsRun_of_run b.identifier (fun c => isBlank_of_isWordChar) _),
      takeWhile_append_of_endsRun (fun c => b'.blanks.class_of_mem)
        (endsRun_of_run b'.identifier (fun c => isBlank_of_isWordChar) _)] at h
  rw [hblanks] at hbody
  have hbody := List.append_cancel_left hbody
  have hidentifier : b.identifier.text = b'.identifier.text := by
    have h := congrArg (List.takeWhile isWordChar) hbody
    rwa [takeWhile_append_of_endsRun (fun c => b.identifier.class_of_mem)
        (endsRun_variants hne hend w),
      takeWhile_append_of_endsRun (fun c => b'.identifier.class_of_mem) hend'] at h
  rw [hidentifier] at hbody
  have hvariants := List.append_cancel_left hbody
  refine ⟨by rw [hnote, hnote', hidentifier], ?_⟩
  have h := note_row_extends b.variants w
  rwa [hrow, hvariants, hrow'] at h

/-- A block is found again wherever its text stands, and keeps its identifier. -/
theorem read_taken_block_append {s : Text} {r : Reading Text} (hr : block.read s = some r)
    (htags : tags r.taken ≠ []) (z : Text) :
    (block.read (r.taken ++ z)).map Reading.note = some r.note := by
  obtain ⟨b, hb, hnote, hrow, hend⟩ := taken_block hr
  rw [hb, BlockParts.text, BlockParts.front, List.append_assoc, List.append_assoc,
    List.append_assoc, read_block_append b.blanks b.identifier
      (endsRun_variants (tags_ne_nil hrow htags) hend z), hnote]
  rfl

/-! ## Definition lines in blocks -/

/-- The line of a definition is the front of a block. -/
theorem read_block_of_definitionLine {s : Text} {r : Reading Unit}
    (h : definitionLine.read s = some r) : ∃ q, block.read s = some q ∧ r.taken <+: q.taken := by
  obtain ⟨w, value, ending, hvalue, hending, hr⟩ := read_definitionLine_inv h
  let v : VariantParts := ⟨⟨w.behind.text, w.behind.text_ne_nil, fun c hc =>
    isGap_of_isBlank (w.behind.class_of_mem hc)⟩, w.inner, "uqi".toList, w.gap, value, ending⟩
  have htag : ∀ c ∈ "uqi".toList, isTagChar c = true := List.all_eq_true.mp (by decide)
  have hlength : 2 ≤ "uqi".toList.length ∧ "uqi".toList.length ≤ 5 := by decide
  have hv : v.Fits r.rest := ⟨htag, hlength.1, hlength.2, hvalue, hending⟩
  have hs : s = declarationWord ++ (w.before.text ++ (w.identifier.text ++ (v.text ++ r.rest))) := by
    rw [← definitionLine.taken_append_rest h, hr]
    show (w.text ++ (value ++ ending)) ++ r.rest = _
    unfold DefinitionHead.text DefinitionHead.body VariantParts.text VariantParts.front
    simp only [List.append_assoc]
    rfl
  have hend : EndsRun isWordChar (v.text ++ r.rest) := by
    unfold VariantParts.text VariantParts.front
    rw [List.append_assoc, List.append_assoc]
    exact endsRun_of_run v.before (fun c => isWordChar_of_isGap) _
  have hread := read_block_append w.before w.identifier hend
  rw [← hs, row_append hv] at hread
  refine ⟨_, hread, (row variant r.rest).taken, ?_⟩
  rw [hr]
  unfold DefinitionHead.text DefinitionHead.body VariantParts.text VariantParts.front
  simp only [List.append_assoc]
  rfl

/-- A definition line may grow or shrink with what follows it, but it stays one. -/
theorem read_taken_definitionLine_append {s : Text} {r : Reading Unit}
    (h : definitionLine.read s = some r) (z : Text) :
    ∃ q, definitionLine.read (r.taken ++ z) = some q := by
  obtain ⟨w, value, ending, hvalue, -, hr⟩ := read_definitionLine_inv h
  obtain ⟨-, hnl, hlast, -, -⟩ := read_throughLastQuote_inv hvalue
  obtain ⟨q, hread, -⟩ := read_definitionLine_append w hnl hlast (ending ++ z)
  rw [hr, List.append_assoc, List.append_assoc]
  exact ⟨q, hread⟩

/-- A block that holds no definition line is passed over where definition lines are looked for. -/
theorem read_definitionLine_eq_none {s : Text} {r : Reading Text} (h : block.read s = some r)
    (hnone : (definitionLine.cut .lineStart r.taken).hits = []) : definitionLine.read s = none := by
  rw [Option.eq_none_iff_forall_ne_some]
  intro q hq
  obtain ⟨r', hr', z, hz⟩ := read_block_of_definitionLine hq
  rw [h] at hr'
  cases hr'
  obtain ⟨q', hread⟩ := read_taken_definitionLine_append hq z
  rw [hz] at hread
  have hpieces := declares_definitionLine.pieces_cut r.taken
  obtain ⟨t, ht, -⟩ := declares_block.opens h
  have hmem : r.taken ∈ lineStarts true r.taken := by
    rw [ht]
    exact List.mem_append_left _ (List.mem_singleton.mpr rfl)
  have hin : q'.taken ∈ (definitionLine.cut .lineStart r.taken).pieces := by
    rw [hpieces]
    exact List.mem_filterMap.mpr ⟨_, hmem, by rw [hread]; rfl⟩
  unfold Cutting.pieces at hin
  rw [hnone] at hin
  cases hin

end FirmwareIds.Resource
