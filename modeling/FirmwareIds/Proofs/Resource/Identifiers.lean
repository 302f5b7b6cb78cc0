import FirmwareIds.Proofs.Resource.Declarations
import FirmwareIds.Proofs.Text.Searching
import FirmwareIds.Resource.Block

/-!
# Identifiers, line by line

The identifiers of a text are collected block by block, and a block can run over many lines. Still they
are those that a reader finds who looks at each line by itself (`identifiers_by_lines`): where a line
starts inside a block, it goes on with a variant or with a value, and no declaration begins there.
-/

namespace FirmwareIds

open Pattern

/-- No hit of a declaring pattern begins in another one. -/
theorem Pattern.Declares.apart {α : Type} {p : Pattern α} (hp : p.Declares) :
    p.Apart .lineStart := by
  apply apart_of_refused
  intro s r hr x v htaken hx hv hline
  rw [Option.eq_none_iff_forall_ne_some]
  intro r' hr'
  obtain ⟨t, ht, hquiet⟩ := hp.quiet_of_hit hr
  cases x with
  | nil => exact hx rfl
  | cons c x =>
    rw [ht, List.cons_append] at htaken
    obtain ⟨rfl, rfl⟩ := List.cons.inj htaken
    have hfresh : freshAfter false x = true := by
      rw [← hline rfl, ← freshAfter_of_ne_nil (List.cons_ne_nil '#' x) true, freshAfter_cons]
      rfl
    exact hquiet v (mem_lineStarts_iff.mpr ⟨hv, x, rfl, hfresh⟩) r.rest (hp.prefix_of_read hr')

namespace Resource

/-- The line that starts at a place declares the identifier: it begins with the word of a declaration
and blanks, and the identifier is the whole run of word characters behind them. -/
def DeclaresAt (s : Text) (i : Nat) (identifier : Text) : Prop :=
  StartsLine s i ∧ ∃ (blanks : RunOf isBlank) (name : RunOf isWordChar) (rest : Text),
    s.drop i = declarationWord ++ (blanks.text ++ (name.text ++ rest)) ∧
      EndsRun isWordChar rest ∧ name.text = identifier

theorem hitAt?_block_iff {s : Text} {i : Nat} {identifier : Text} :
    (∃ r, block.hitAt? .lineStart s i = some r ∧ r.note = identifier) ↔
      DeclaresAt s i identifier := by
  constructor
  · rintro ⟨r, hhit, rfl⟩
    obtain ⟨hline, hread, -⟩ := hitAt?_eq_some_iff.mp hhit
    obtain ⟨blanks, name, rest, hs, hend, hr⟩ := read_block_inv hread
    exact ⟨hline rfl, blanks, name, rest, hs, hend, by rw [hr]⟩
  · rintro ⟨hline, blanks, name, rest, hs, hend, rfl⟩
    have hread := read_block_append blanks name hend
    rw [← hs] at hread
    refine ⟨_, hitAt?_eq_some_iff.mpr ⟨fun _ => hline, hread, ?_⟩, rfl⟩
    exact List.append_ne_nil_of_left_ne_nil (by decide) _

/-- The identifiers of a text are those that its lines declare, in order and one for each line, and no
line that declares one starts inside a block. -/
theorem identifiers_by_lines (s : Text) :
    ListsInOrder (DeclaresAt s) (identifiers s) ∧
      ∀ o ∈ (block.cut .lineStart s).occurrences, ∀ i identifier, DeclaresAt s i identifier →
        i ≤ o.start ∨ o.stop ≤ i := by
  refine ⟨(declares_block.apart.lists_notes s).congr fun _ _ => hitAt?_block_iff, ?_⟩
  intro o ho i identifier hdeclares
  obtain ⟨r, hhit, -⟩ := hitAt?_block_iff.mpr hdeclares
  obtain ⟨rest, hblock⟩ := (block.sweep_cut .lineStart s).reads o ho
  rcases Nat.lt_or_ge o.start i with hlt | hle
  · exact Or.inr (declares_block.apart.stop_le hblock hhit hlt)
  · exact Or.inl hle

/-- A value may hold a declaration, and a block may run over it. -/
example : identifiers ("#string STR_A #language en-US\n  \"#string STR_B\"\n" ++
    "  #language fr-FR \"\"\n#string  STR_C-1\n #string STR_D\n").toList =
      ["STR_A".toList, "STR_C".toList] := by
  decide +kernel

end Resource

end FirmwareIds
