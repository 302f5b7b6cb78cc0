import FirmwareIds.Proofs.Resource.Blocks
import FirmwareIds.Proofs.Text.Searching

/-!
# The variants of a block

The variants of a block are read twice: in a row behind its identifier, with all of the text still
ahead, when the block is found; and by a search through the block alone, when its languages are looked
at. The search could stop short or pass something over, for a value runs to the last quotation mark of
its line and the block ends somewhere. It does not: `variants_of_block` says that it finds the variants
of the row, one right behind the other from the identifier to the end of the block.
-/

namespace FirmwareIds

variable {α : Type}

/-! ## Rows of readings -/

/-- From the text `s` on the pattern reads these pieces, one right behind the other, until it is refused
where `rest` is left. A piece is what was taken and what was noted. -/
inductive Pattern.ReadsRow (p : Pattern α) : Text → List (Text × α) → Text → Prop where
  | stop {s : Text} (h : p.read s = none) : p.ReadsRow s [] s
  | next {s rest : Text} {r : Reading α} {more : List (Text × α)} (h : p.read s = some r)
      (hne : r.taken ≠ []) (hmore : p.ReadsRow r.rest more rest) :
      p.ReadsRow s ((r.taken, r.note) :: more) rest

/-- Pieces as occurrences without gaps, the first of them at the place `n`. -/
def Occurrence.inRow (n : Nat) : List (Text × α) → List (Occurrence α)
  | [] => []
  | (taken, note) :: more => ⟨n, taken, note⟩ :: inRow (n + taken.length) more

theorem Occurrence.map_note_inRow (n : Nat) (pieces : List (Text × α)) :
    (inRow n pieces).map Occurrence.note = pieces.map Prod.snd := by
  induction pieces generalizing n with
  | nil => rfl
  | cons piece more ih => rw [inRow, List.map_cons, ih, List.map_cons]

theorem Cutting.occurrencesFrom_foldr_skip (n : Nat) (s : Text) (k : Cutting α) :
    occurrencesFrom n (s.foldr skip k).hits = occurrencesFrom (n + s.length) k.hits := by
  induction s generalizing n with
  | nil => rfl
  | cons c s ih =>
    rw [List.foldr_cons, occurrencesFrom_skip, ih, List.length_cons]
    congr 1
    omega

namespace Pattern.ReadsRow

variable {p : Pattern α} {s rest : Text} {pieces : List (Text × α)}

/-- The pieces and what is left are the text. -/
theorem flatten_append_rest (h : p.ReadsRow s pieces rest) :
    (pieces.map Prod.fst).flatten ++ rest = s := by
  induction h with
  | stop => rfl
  | next h _ _ ih => rw [List.map_cons, List.flatten_cons, List.append_assoc, ih, p.taken_append_rest h]

/-- In a text that is one row, a search finds the row. -/
theorem occurrencesFrom_cutFrom (h : p.ReadsRow s pieces []) (fresh : Bool) (n : Nat) :
    Cutting.occurrencesFrom n (p.cutFrom .anywhere fresh s).hits = Occurrence.inRow n pieces := by
  generalize hrest : ([] : Text) = rest at h
  induction h generalizing fresh n with
  | stop =>
    rw [← hrest, cutFrom_nil]
    rfl
  | next h hne _ ih =>
    have hhit : p.hit? .anywhere fresh _ = some _ := hit?_eq_some_iff.mpr ⟨nofun, h, hne⟩
    rw [cutFrom_of_hit hhit, Cutting.occurrencesFrom, Occurrence.inRow, ← ih _ _ hrest]
    rfl

end Pattern.ReadsRow

namespace Resource

open Pattern

/-! ## The row of a block -/

/-- The variants at the front of a text are read again, one by one, where the text ends behind them. -/
theorem exists_readsRow_variant (z : Text) :
    ∃ variants, variant.ReadsRow z variants (row variant z).rest ∧
      variant.ReadsRow (row variant z).taken variants [] := by
  induction hn : z.length using Nat.strongRecOn generalizing z with
  | ind n ih =>
    subst hn
    cases h : variant.read z with
    | none =>
      rw [row_of_none h]
      exact ⟨[], .stop h, .stop rfl⟩
    | some r =>
      obtain ⟨v, hv, hr⟩ := read_variant_inv h
      have hne : r.taken ≠ [] := by
        rw [hr]
        exact hv.text_ne_nil
      have hlength : r.rest.length < z.length := by
        have := List.length_pos_iff.mpr hne
        rw [← variant.taken_append_rest h, List.length_append]
        omega
      obtain ⟨more, hmore, halone⟩ := ih _ hlength r.rest rfl
      rw [row_of_some h hne]
      refine ⟨_, .next h hne hmore, ?_⟩
      -- what the row goes on with leaves the variant as long as it was
      have hfits := hv.before_row (y := []) (Or.inr rfl)
      rw [List.append_nil] at hfits
      have hrow : variant.ReadsRow (v.text ++ (row variant r.rest).taken) ((v.text, v.tag) :: more) [] :=
        .next hfits.read hv.text_ne_nil halone
      rw [hr] at hrow ⊢
      exact hrow

/-- The variants that a block takes from the text are those that are found in the block alone. They stand
in the block one right behind the other, from its identifier to its end, and the tags of the block are
theirs. -/
theorem variants_of_block {s : Text} {o : Occurrence Text}
    (ho : o ∈ (block.cut .lineStart s).occurrences) :
    ∃ (b : BlockParts) (variants : List (Text × Text)),
      o.note = b.identifier.text ∧ o.taken = b.text ∧
      b.variants = (variants.map Prod.fst).flatten ∧
      variant.ReadsRow (s.drop (o.start + b.front.length)) variants (s.drop o.stop) ∧
      (variant.cut .anywhere o.taken).occurrences = Occurrence.inRow b.front.length variants ∧
      tags o.taken = variants.map Prod.snd := by
  obtain ⟨rest, hhit⟩ := (block.sweep_cut .lineStart s).reads o ho
  obtain ⟨-, hread, -⟩ := hitAt?_eq_some_iff.mp hhit
  obtain ⟨blanks, identifier, z, hs, -, hr⟩ := read_block_inv hread
  obtain ⟨hnote, htaken, -⟩ := Reading.mk.inj hr
  obtain ⟨variants, htext, halone⟩ := exists_readsRow_variant z
  let b : BlockParts := ⟨blanks, identifier, (row variant z).taken⟩
  have hb : o.taken = b.text := by
    rw [htaken, BlockParts.text, BlockParts.front, List.append_assoc, List.append_assoc]
  have hfront : s.drop o.start = b.front ++ z := by
    rw [hs, BlockParts.front, List.append_assoc, List.append_assoc]
  have hinner : s.drop (o.start + b.front.length) = z := by
    rw [← List.drop_drop, hfront, List.drop_left]
  have hstop : s.drop o.stop = (row variant z).rest := by
    have hz : s.drop o.start = b.text ++ (row variant z).rest := by
      rw [hfront, BlockParts.text, List.append_assoc, taken_append_rest_row]
    rw [Occurrence.stop, ← List.drop_drop, hb, hz, List.drop_left]
  have hfound : (variant.cut .anywhere o.taken).occurrences =
      Occurrence.inRow b.front.length variants := by
    rw [hb, Cutting.occurrences, cut_block, Cutting.occurrencesFrom_foldr_skip, Nat.zero_add]
    exact halone.occurrencesFrom_cutFrom _ _
  refine ⟨b, variants, hnote, hb, ?_, ?_, hfound, ?_⟩
  · have hflatten := halone.flatten_append_rest
    rw [List.append_nil] at hflatten
    exact hflatten.symm
  · rw [hinner, hstop]
    exact htext
  · rw [tags, Cutting.notes_eq_map_occurrences, hfound, Occurrence.map_note_inRow]

/-- A block with a value that holds what looks like a variant, a value on a line of its own, and a line
that ends in blanks and a carriage return of its own. -/
def oddBlock : Text :=
  ("#string\tSTR_A #language en-US \"say \"#language fr \"no\"\n" ++
    "  #language en\r\n \"\" \t\r\r\n#language uqi \"x0001\"\n").toList

/-- The block between others. -/
def amongOthers : Text :=
  "#string STR_0\n".toList ++ (oddBlock ++ "\n#string STR_B #language de \"B\"\n".toList)

/-- Where it stands there. -/
def oddOccurrence : Occurrence Text := ⟨14, oddBlock, "STR_A".toList⟩

/-- Its variants are three, in the text and in the block alone. -/
theorem oddBlock_variants :
    oddOccurrence ∈ (block.cut .lineStart amongOthers).occurrences ∧
      ∃ (b : BlockParts) (variants : List (Text × Text)), oddOccurrence.taken = b.text ∧
        b.variants = (variants.map Prod.fst).flatten ∧
        variant.ReadsRow (amongOthers.drop (oddOccurrence.start + b.front.length)) variants
          (amongOthers.drop oddOccurrence.stop) ∧
        (variant.cut .anywhere oddOccurrence.taken).occurrences =
          Occurrence.inRow b.front.length variants ∧
        variants.map Prod.snd = ["en-US".toList, "en".toList, "uqi".toList] := by
  have ho : oddOccurrence ∈ (block.cut .lineStart amongOthers).occurrences := by decide +kernel
  have htags : tags oddOccurrence.taken = ["en-US".toList, "en".toList, "uqi".toList] := by
    decide +kernel
  obtain ⟨b, variants, -, htaken, hvariants, hread, hfound, hnotes⟩ := variants_of_block ho
  exact ⟨ho, b, variants, htaken, hvariants, hread, hfound, hnotes.symm.trans htags⟩

end Resource

end FirmwareIds
