import FirmwareIds.Proofs.Resource.Definitions
import FirmwareIds.Proofs.Text.Seams

/-!
# What comes together when definition lines are taken out

The definition lines of a text are looked for once, where they stand, and then all of them are taken
out. What stood before such a line and what stood behind it come together, and can make a definition line
that was none before. That happens in two ways. What follows a definition on its own line may be the
front of another one, which no line started with; now one does. Or a line before it broke off in front of
its value, and behind the line taken out there is one.

These are the only ways: what is left of a text has no definition line, and so no definition, if and only
if nothing comes together to one at a seam (`takeLines_complete_iff`). The argument is
`exists_seam_of_read`: a line that is read in what is left, and was not read before, begins at a seam or is
read across one. In the second case it was cut behind a line end, so in the gap before its value, for no
other part of the front of a definition may hold one (`breaksOff_of_prefix`).
-/

namespace FirmwareIds

namespace Resource

open Pattern

/-! ## Lines that broke off -/

/-- Whether the text is the front of a definition, but for the quotation mark that opens its value. -/
def breaksOff (u : Text) : Bool := (definitionHead.read (u ++ ['"'])).any fun r => r.rest.isEmpty

theorem breaksOff_of_head {u : Text} {w : DefinitionHead} (h : u ++ ['"'] = w.text) :
    breaksOff u = true := by
  have hread := w.read_append []
  rw [List.append_nil] at hread
  unfold breaksOff
  rw [h, hread]
  rfl

/-- The front of a definition up to the gap before its value. -/
def DefinitionHead.beforeGap (w : DefinitionHead) : Text :=
  declarationWord ++ (w.before.text ++ (w.identifier.text ++ (w.behind.text ++
    ("#language".toList ++ (w.inner.text ++ "uqi".toList)))))

theorem DefinitionHead.text_eq (w : DefinitionHead) :
    w.text = w.beforeGap ++ (w.gap.text ++ ['"']) := by
  simp only [DefinitionHead.text, DefinitionHead.body, beforeGap, List.append_assoc]

/-- Only the gap before the value may hold a line end. -/
theorem DefinitionHead.newline_not_mem_beforeGap (w : DefinitionHead) : '\n' ∉ w.beforeGap := by
  unfold beforeGap
  simp only [List.mem_append, not_or]
  exact ⟨by decide, w.before.not_mem (by decide), w.identifier.not_mem (by decide),
    w.behind.not_mem (by decide), by decide, w.inner.not_mem (by decide), by decide⟩

/-- A front of a definition that is cut behind a line end is cut in the gap before the value. -/
theorem breaksOff_of_prefix {u : Text} {w : DefinitionHead} (hu : endsLine u = true)
    (h : u <+: w.text) : breaksOff u = true := by
  have hlast : u.getLast? = some '\n' := eq_of_beq hu
  have hmem : '\n' ∈ u := List.mem_of_getLast? hlast
  obtain ⟨z, hz⟩ := h
  rw [w.text_eq] at hz
  rcases List.append_eq_append_iff.mp hz with ⟨v, hv, -⟩ | ⟨v, hv, hgap⟩
  · exact absurd (hv ▸ List.mem_append_left v hmem) w.newline_not_mem_beforeGap
  · have hne : v ≠ [] := by
      intro hnil
      rw [hnil, List.append_nil] at hv
      exact w.newline_not_mem_beforeGap (hv ▸ hmem)
    -- the quotation mark ends no line, so the cut lies before it
    have hz' : z ≠ [] := by
      intro hnil
      rw [hnil, List.append_nil] at hgap
      rw [hv, ← hgap, ← List.append_assoc, List.getLast?_concat] at hlast
      exact absurd hlast (by decide)
    obtain ⟨z', c, rfl⟩ := (List.eq_nil_or_concat z).resolve_left hz'
    rw [List.concat_eq_append, ← List.append_assoc] at hgap
    have hrun : w.gap.text = v ++ z' := (List.append_inj' hgap rfl).1
    have hclass : ∀ c ∈ v, isGap c = true := by
      intro c hc
      exact w.gap.class_of_mem (hrun ▸ List.mem_append_left z' hc)
    apply breaksOff_of_head (w := { w with gap := ⟨v, hne, hclass⟩ })
    rw [DefinitionHead.text_eq, hv, List.append_assoc]
    rfl

/-- A line that is read or not, as it goes on, broke off in front of its value. -/
theorem breaksOff_of_read {u z z' : Text} {r : Reading Unit} (hu : endsLine u = true)
    (h : definitionLine.read (u ++ z) = some r) (hnone : definitionLine.read (u ++ z') = none) :
    breaksOff u = true := by
  have hlast : u.getLast? = some '\n' := eq_of_beq hu
  obtain ⟨w, q, e, hq, -, hr⟩ := read_definitionLine_inv h
  obtain ⟨-, hnl, hquote, -, -⟩ := read_throughLastQuote_inv hq
  have htext : u ++ z = w.text ++ (q ++ (e ++ r.rest)) := by
    rw [← definitionLine.taken_append_rest h, hr]
    simp only [List.append_assoc]
  rcases List.append_eq_append_iff.mp htext with ⟨v, hv, -⟩ | ⟨v, hv, hvalue⟩
  · exact breaksOff_of_prefix hu ⟨v, hv.symm⟩
  · -- the front is complete, and then the value would be
    exfalso
    rcases List.append_eq_append_iff.mp hvalue with ⟨y, hy, -⟩ | ⟨y, hy, -⟩
    · have hread := read_definitionLine_append w hnl hquote (y ++ z')
      obtain ⟨r', hr', -⟩ := hread
      rw [hv, hy, List.append_assoc, List.append_assoc, hr'] at hnone
      cases hnone
    · have hend : (w.text ++ v).getLast? = some '\n' := hv ▸ hlast
      cases hl : v.getLast? with
      | none =>
        rw [List.getLast?_eq_none_iff.mp hl, List.append_nil] at hend
        unfold DefinitionHead.text DefinitionHead.body at hend
        simp only [← List.append_assoc, List.getLast?_concat] at hend
        exact absurd hend (by decide)
      | some c =>
        rw [List.getLast?_append, hl] at hend
        have hc : c = '\n' := Option.some.inj hend
        exact hnl (hy ▸ List.mem_append_left y (hc ▸ List.mem_of_getLast? hl))

/-! ## Lines that come together -/

/-- A line that was refused and is read in what is left broke off in front of the first hit behind it. -/
theorem breaksOff_of_refused {c : Char} {s : Text} {r : Reading Unit}
    (hnone : definitionLine.read (c :: s) = none)
    (h : definitionLine.read (c :: (definitionLine.cutFrom .lineStart (c == '\n') s).remainder) =
      some r) :
    ∃ left right, (left, right) ∈ (definitionLine.cutFrom .lineStart (c == '\n') s).seams ∧
      (definitionLine.cutFrom .lineStart (c == '\n') s).remainder = left ++ right ∧
      breaksOff (c :: left) = true := by
  have hhits := declares_definitionLine.lineHits_cutFrom (c == '\n') s
  have htext := definitionLine.text_cutFrom .lineStart (c == '\n') s
  generalize definitionLine.cutFrom .lineStart (c == '\n') s = k at h hhits htext ⊢
  obtain ⟨hits, tail⟩ := k
  cases hits with
  | nil =>
    -- nothing was taken out behind it
    have : s = tail := htext.symm
    rw [this, show tail = (⟨[], tail⟩ : Cutting Unit).remainder from rfl, h] at hnone
    cases hnone
  | cons hit hs =>
    have hseam : (hit.skipped, (⟨hs, tail⟩ : Cutting Unit).remainder) ∈
        (⟨hit :: hs, tail⟩ : Cutting Unit).seams := Cutting.mem_seams_cons.mpr (Or.inl ⟨rfl, rfl⟩)
    have hremainder := (Cutting.append_of_mem_seams hseam).symm
    have hends : endsLine (c :: hit.skipped) = true := by
      rw [← freshAfter_of_ne_nil (List.cons_ne_nil _ _) true, freshAfter_cons]
      exact hhits.1
    refine ⟨_, _, hseam, hremainder, ?_⟩
    rw [hremainder] at h
    have hbefore : c :: s =
        c :: hit.skipped ++ (hit.taken ++ (⟨hs, tail⟩ : Cutting Unit).text) := by
      rw [← htext]
      unfold Cutting.text
      rw [List.flatMap_cons]
      simp only [List.append_assoc, List.cons_append]
    exact breaksOff_of_read hends h (hbefore ▸ hnone)

/-- A definition line of what is left begins at a seam, or it broke off there before. -/
theorem exists_seam_of_read {fresh : Bool} {s v : Text} {r : Reading Unit}
    (hv : v ∈ lineStarts fresh (definitionLine.cutFrom .lineStart fresh s).remainder)
    (h : definitionLine.read v = some r) :
    ∃ left right, (left, right) ∈ (definitionLine.cutFrom .lineStart fresh s).seams ∧
      (v = right ∨ ∃ u ∈ lineStarts fresh left, breaksOff u = true ∧ v = u ++ right) := by
  induction fresh, s using declares_definitionLine.induction with
  | nil fresh =>
    rw [cutFrom_nil] at hv
    cases fresh <;> cases hv
  | miss fresh c s hmiss ih =>
    rw [remainder_of_miss hmiss, lineStarts_cons, List.mem_append] at hv
    rw [cutFrom_cons_of_miss hmiss]
    cases hv with
    | inl hv =>
      cases fresh with
      | false => cases hv
      | true =>
        rw [declares_definitionLine.hit?_eq] at hmiss
        have hfront := List.mem_singleton.mp hv
        rw [hfront] at h
        obtain ⟨left, right, hseam, hremainder, hbreaks⟩ := breaksOff_of_refused hmiss h
        refine ⟨_, _, Cutting.mem_seams_skip hseam, Or.inr ⟨c :: left, ?_, hbreaks, ?_⟩⟩
        · rw [lineStarts_cons]
          exact List.mem_append_left _ (List.mem_singleton_self _)
        · rw [hfront, hremainder, List.cons_append]
    | inr hv =>
      obtain ⟨left, right, hseam, hstart⟩ := ih hv
      refine ⟨_, _, Cutting.mem_seams_skip hseam, hstart.imp_right ?_⟩
      intro ⟨u, hu, hbreaks⟩
      refine ⟨u, ?_, hbreaks⟩
      rw [lineStarts_cons]
      exact List.mem_append_right _ hu
  | hit r' s hread hhit ih =>
    rw [remainder_of_hit hhit] at hv
    rw [cutFrom_of_hit hhit]
    cases eq_or_mem_lineStarts (endsLine r'.taken) hv with
    | inl hfront => exact ⟨_, _, Cutting.mem_seams_cons.mpr (Or.inl ⟨rfl, rfl⟩), Or.inl hfront⟩
    | inr hv =>
      obtain ⟨left, right, hseam, hstart⟩ := ih hv
      refine ⟨left, right, Cutting.mem_seams_cons.mpr (Or.inr ⟨left, rfl, hseam⟩), ?_⟩
      refine hstart.imp_right fun ⟨u, hu, hbreaks⟩ => ⟨u, ?_, hbreaks⟩
      exact mem_lineStarts_true hu

/-- At the seam a definition line comes together: the text behind it begins with one, or gives its value
to a line that broke off before. -/
def JoinsLine (seam : Text × Text) : Prop :=
  (definitionLine.read seam.2).isSome = true ∨
    ∃ u ∈ lineStarts true seam.1, breaksOff u = true ∧
      (definitionLine.read (u ++ seam.2)).isSome = true

instance (seam : Text × Text) : Decidable (JoinsLine seam) :=
  inferInstanceAs (Decidable (_ ∨ _))

/-- A line starts at every seam, and goes on behind it. -/
theorem mem_lineStarts_of_mem_seams {s left right u : Text}
    (h : (left, right) ∈ (definitionLine.cut .lineStart s).seams)
    (hu : u = [] ∧ right ≠ [] ∨ u ∈ lineStarts true left) :
    u ++ right ∈ lineStarts true (definitionLine.cut .lineStart s).remainder := by
  have hfresh := Cutting.freshAfter_of_mem_seams (declares_definitionLine.lineHits_cutFrom true s) h
  rw [← Cutting.append_of_mem_seams h, lineStarts_append, hfresh]
  cases hu with
  | inl hu =>
    rw [hu.1]
    exact List.mem_append_right _ (mem_lineStarts_iff.mpr ⟨hu.2, [], rfl, rfl⟩)
  | inr hu => exact List.mem_append_left _ (List.mem_map_of_mem hu)

end Resource

namespace Definition

open Pattern Resource

theorem takeLines_fst_eq_nil_iff (s : Text) :
    (takeLines s).1 = [] ↔ ∀ v ∈ lineStarts true s, definitionLine.read v = none := by
  show (definitionLine.cut .lineStart s).pieces = [] ↔ _
  rw [declares_definitionLine.pieces_cut, List.filterMap_eq_nil_iff]
  simp only [Option.map_eq_none_iff]

/-- A second pass takes a line out if and only if one came together in the first. -/
theorem takeLines_takeLines_fst_eq_nil_iff (s : Text) :
    (takeLines (takeLines s).2).1 = [] ↔
      ∀ seam ∈ (definitionLine.cut .lineStart s).seams, ¬ JoinsLine seam := by
  rw [takeLines_fst_eq_nil_iff]
  show (∀ v ∈ lineStarts true (definitionLine.cut .lineStart s).remainder, _) ↔ _
  constructor
  · intro hnone seam hseam hjoins
    obtain ⟨left, right⟩ := seam
    cases hjoins with
    | inl h =>
      have hne : right ≠ [] := by
        intro hnil
        rw [show (left, right).2 = [] from hnil] at h
        exact absurd h (by decide)
      have hread := hnone _ (mem_lineStarts_of_mem_seams hseam (Or.inl ⟨rfl, hne⟩))
      rw [show (left, right).2 = [] ++ right from rfl, hread] at h
      cases h
    | inr h =>
      obtain ⟨u, hu, -, h⟩ := h
      rw [hnone _ (mem_lineStarts_of_mem_seams hseam (Or.inr hu))] at h
      cases h
  · intro hseams v hv
    rw [Option.eq_none_iff_forall_ne_some]
    intro r h
    obtain ⟨left, right, hseam, hstart⟩ := exists_seam_of_read hv h
    refine hseams _ hseam (hstart.imp ?_ ?_)
    · intro hfront
      rw [← hfront, h]
      rfl
    · rintro ⟨u, hu, hbreaks, hfront⟩
      refine ⟨u, mem_lineStarts_true hu, hbreaks, ?_⟩
      rw [← hfront, h]
      rfl

/-- What is left of a text has no definition, and nothing more to take out, if and only if no definition
line came together where the lines were. -/
theorem takeLines_complete_iff (s : Text) :
    (all (takeLines s).2 = [] ∧ takeLines (takeLines s).2 = ([], (takeLines s).2)) ↔
      ∀ seam ∈ (definitionLine.cut .lineStart s).seams, ¬ JoinsLine seam := by
  rw [← takeLines_takeLines_fst_eq_nil_iff]
  constructor
  · intro ⟨_, h⟩
    rw [h]
  · intro h
    refine ⟨?_, Prod.ext h (takeLines_snd_of_fst_nil h)⟩
    rw [← all_takeLines, h]
    rfl

/-- Two definitions share a line, and the second has its value on the next one. -/
def twoOnOneLine : Text :=
  "#string STR_A #language uqi \"x0001\" #string STR_B #language uqi\n\"x0002\"\n".toList

/-- The second definition is left, and with the first one gone a line starts with it. -/
theorem definition_left_on_line :
    (takeLines twoOnOneLine).2 = "#string STR_B #language uqi\n\"x0002\"\n".toList ∧
      all (takeLines twoOnOneLine).2 = [⟨"STR_B".toList, "x".toList, 2⟩] ∧
      (takeLines (takeLines twoOnOneLine).2).1 ≠ [] := by
  decide +kernel

example : ∃ seam ∈ (definitionLine.cut .lineStart twoOnOneLine).seams, JoinsLine seam := by
  decide +kernel

-- a line that broke off finds a value behind the line that was taken out
example : all (takeLines
    "#string STR_A #language uqi\n#string STR_B #language uqi \"x0002\"\n\"x0001\"\n".toList).2 =
      [⟨"STR_A".toList, "x".toList, 1⟩] := by decide +kernel

end Definition

end FirmwareIds
