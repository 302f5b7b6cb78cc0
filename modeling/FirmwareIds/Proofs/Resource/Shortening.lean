import FirmwareIds.Proofs.Resource.Stripping

/-!
# Stripping shortens

A hit takes something, so a text from which hits are cut out is shorter than before, and one without
hits is the same (`Pattern.length_remainder_lt`). A word has a hit in every text that holds it
(`Pattern.hits_word_ne_nil`). Hence a strip of a resource file that reports a line or a language has
made the text shorter, and one that reports nothing has left the file as it was (`OpenFile.strip_cases`).
-/

namespace FirmwareIds

open Resource

namespace Pattern

variable {α : Type} {p : Pattern α} {anchor : Anchor} {s : Text}

theorem taken_ne_nil_of_mem_hits {fresh : Bool} {h : Hit α}
    (hh : h ∈ (p.cutFrom anchor fresh s).hits) : h.taken ≠ [] := by
  fun_induction cutFrom p anchor fresh s with
  | case1 => cases hh
  | case2 fresh s hit rest hfirst _ more ih =>
    rcases List.mem_cons.mp hh with rfl | hh
    · exact (append_eq_of_firstFrom hfirst).2
    · exact ih hh

/-- What is left of a text is shorter by at least a character for each hit. -/
theorem length_remainder_add_le (p : Pattern α) (anchor : Anchor) (s : Text) :
    (p.cut anchor s).remainder.length + (p.cut anchor s).hits.length ≤ s.length := by
  have htaken : ∀ h ∈ (p.cut anchor s).hits, h.taken ≠ [] := fun _ => taken_ne_nil_of_mem_hits
  have htext := congrArg List.length (p.cut_text anchor s)
  rw [← htext]
  generalize p.cut anchor s = c at htaken
  unfold Cutting.remainder Cutting.text
  simp only [List.length_append]
  suffices (c.hits.flatMap Hit.skipped).length + c.hits.length ≤
      (c.hits.flatMap fun h => h.skipped ++ h.taken).length by omega
  generalize c.hits = hits at htaken
  induction hits with
  | nil => exact Nat.le_refl _
  | cons h hs ih =>
    have hrest := ih fun h' hh' => htaken h' (List.mem_cons_of_mem _ hh')
    have hpos := List.length_pos_iff.mpr (htaken h (List.mem_cons_self ..))
    simp only [List.flatMap_cons, List.length_cons, List.length_append]
    omega

theorem length_remainder_le (p : Pattern α) (anchor : Anchor) (s : Text) :
    (p.cut anchor s).remainder.length ≤ s.length := by
  have := length_remainder_add_le p anchor s
  omega

theorem length_remainder_lt (h : (p.cut anchor s).hits ≠ []) :
    (p.cut anchor s).remainder.length < s.length := by
  have hlength := length_remainder_add_le p anchor s
  have hhits := List.length_pos_iff.mpr h
  omega

/-- A search for a word does not miss a place where it stands. -/
theorem firstFrom_word_ne_none {w : Text} (hw : w ≠ []) (h : w <:+: s) (fresh : Bool)
    (skipped : List Char) : (word w).firstFrom .anywhere fresh skipped s ≠ none := by
  induction s generalizing fresh skipped with
  | nil => exact absurd (List.infix_nil.mp h) hw
  | cons c s ih =>
    rw [firstFrom_cons]
    cases hhit : (word w).hit? .anywhere fresh (c :: s) with
    | some r => exact nofun
    | none =>
      rcases List.infix_cons_iff.mp h with ⟨z, hz⟩ | h
      · rw [← hz, hit?_word_append hw .anywhere nofun] at hhit
        cases hhit
      · exact ih h _ _

theorem hits_word_ne_nil {w : Text} (hw : w ≠ []) (h : w <:+: s) :
    ((word w).cut .anywhere s).hits ≠ [] := by
  unfold cut
  rw [cutFrom_eq]
  cases hfirst : (word w).firstFrom .anywhere true [] s with
  | none => exact absurd hfirst (firstFrom_word_ne_none hw h true [])
  | some x => exact List.cons_ne_nil _ _

/-- What a hit has taken stands in the text. -/
theorem infix_of_mem_pieces {piece : Text} (h : piece ∈ (p.cut anchor s).pieces) :
    piece <:+: s := by
  obtain ⟨hit, hhit, rfl⟩ := List.mem_map.mp h
  have hrow : hit.skipped ++ hit.taken <:+:
      (p.cut anchor s).hits.flatMap fun h => h.skipped ++ h.taken := by
    rw [List.flatMap_def]
    exact List.infix_of_mem_flatten (List.mem_map_of_mem hhit)
  have hall : hit.skipped ++ hit.taken <:+: (p.cut anchor s).text :=
    hrow.trans (List.prefix_append ..).isInfix
  rw [p.cut_text anchor s] at hall
  exact (List.suffix_append ..).isInfix.trans hall

end Pattern

namespace Resource

/-- Removing blocks never makes a text longer. -/
theorem length_foldl_removeAll_le (bs : List Text) (s : Text) :
    (bs.foldl (fun left b => removeAll b left) s).length ≤ s.length :=
  foldl_removeAll (fun left => left.length ≤ s.length) bs
    (fun _ _ _ hleft => Nat.le_trans (Pattern.length_remainder_le ..) hleft) (Nat.le_refl _)

theorem foreignTags_ne_nil {s b : Text} (h : b ∈ foreignBlocks s) : foreignTags b ≠ [] := by
  have := (List.mem_filter.mp h).2
  simpa using this

/-- A text without foreign languages is left as it is, and another one becomes shorter. -/
theorem stripForeign_cases (s : Text) :
    stripForeign s = ([], s) ∨
      (stripForeign s).1 ≠ [] ∧ (stripForeign s).2.length < s.length := by
  unfold stripForeign
  cases hblocks : foreignBlocks s with
  | nil => exact Or.inl rfl
  | cons b bs =>
    have hb : b ∈ foreignBlocks s := hblocks ▸ List.mem_cons_self ..
    refine Or.inr ⟨fun hnil => ?_, ?_⟩
    · exact foreignTags_ne_nil hb (List.flatMap_eq_nil_iff.mp hnil b (List.mem_cons_self ..))
    · -- the first block still stands in the text when it is removed
      have hshorter : (removeAll b s).length < s.length := by
        have hpiece := (List.mem_filter.mp hb).1
        refine Pattern.length_remainder_lt (Pattern.hits_word_ne_nil ?_
          (Pattern.infix_of_mem_pieces hpiece))
        obtain ⟨hit, hhit, rfl⟩ := List.mem_map.mp hpiece
        exact Pattern.taken_ne_nil_of_mem_hits hhit
      exact Nat.lt_of_le_of_lt (length_foldl_removeAll_le bs _) hshorter

end Resource

/-- A file without definition lines and foreign languages is left as it is; another one becomes dirty and
shorter. -/
theorem OpenFile.strip_cases (f : OpenFile) :
    f.strip.file = f ∨
      f.strip.file.dirty = true ∧ f.stripped.length < f.content.text.length := by
  have hkept : f.kept.length ≤ f.content.text.length := Pattern.length_remainder_le ..
  have hfile : f.strip.file = { f with
      content := { f.content with text := f.stripped }
      dirty := f.dirty || !f.strip.lines.isEmpty || !f.strip.languages.isEmpty } := rfl
  have hlanguages : f.strip.languages = (stripForeign f.kept).1 := rfl
  rw [hfile, hlanguages, f.stripped_eq]
  cases hlines : f.strip.lines with
  | nil =>
    have hsame : f.kept = f.content.text := Definition.takeLines_snd_of_fst_nil hlines
    rcases stripForeign_cases f.kept with hnone | ⟨hsome, hshorter⟩
    · left
      rw [hnone, hsame]
      simp
    · right
      rw [hsame] at hshorter hsome ⊢
      exact ⟨by simp [hsome], hshorter⟩
  | cons line lines =>
    right
    have hhits : (definitionLine.cut .lineStart f.content.text).hits ≠ [] := by
      intro hnil
      have hnone : f.strip.lines = [] := List.map_eq_nil_iff.mpr hnil
      rw [hlines] at hnone
      cases hnone
    have hshorter : f.kept.length < f.content.text.length := Pattern.length_remainder_lt hhits
    exact ⟨by simp, Nat.lt_of_le_of_lt (length_foldl_removeAll_le _ _) hshorter⟩

end FirmwareIds
