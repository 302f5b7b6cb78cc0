import FirmwareIds.Text.Pattern

/-!
# Cutting a text along a pattern

A pattern is tried at every place of a text, or only where a line starts; the first place where
it takes something is a hit, and the search goes on right behind it. So a text falls into hits
and the gaps between them, and the statement about that is `cut_text`: put back in order, they
are the text. What a format needs is then read off the cutting: what the hits note, what they
take, or the text with all hits removed.
-/

namespace FirmwareIds

/-- Where a pattern may begin. -/
inductive Anchor where
  /-- At any character. -/
  | anywhere
  /-- At the start of the text and after a line feed. -/
  | lineStart
  deriving DecidableEq

/-- One place where a pattern reads. -/
structure Hit (α : Type) where
  /-- The characters between the hit before, or the start of the text, and this one. -/
  skipped : Text
  /-- The characters that the pattern took. -/
  taken : Text
  /-- What the pattern noted. -/
  note : α

/-- A text cut along a pattern. -/
structure Cutting (α : Type) where
  /-- The hits, first to last. -/
  hits : List (Hit α)
  /-- The characters behind the last hit. -/
  tail : Text

namespace Cutting

variable {α : Type}

/-- The text that was cut. -/
def text (c : Cutting α) : Text := c.hits.flatMap (fun h => h.skipped ++ h.taken) ++ c.tail

/-- What is left of the text without the hits. -/
def remainder (c : Cutting α) : Text := c.hits.flatMap Hit.skipped ++ c.tail

/-- What the pattern noted, hit by hit. -/
def notes (c : Cutting α) : List α := c.hits.map Hit.note

/-- What the pattern took, hit by hit. -/
def pieces (c : Cutting α) : List Text := c.hits.map Hit.taken

/-- Where each hit begins and ends, in bytes from the start of the text. -/
def spans (c : Cutting α) : List (Nat × Nat) := go 0 c.hits
where
  /-- Goes on behind the first `offset` bytes. -/
  go (offset : Nat) : List (Hit α) → List (Nat × Nat)
    | [] => []
    | h :: hs =>
      let start := offset + h.skipped.byteLength
      let stop := start + h.taken.byteLength
      (start, stop) :: go stop hs

end Cutting

/-- Whether a line starts right behind the characters `s`. -/
def endsLine (s : Text) : Bool := s.getLast? == some '\n'

namespace Pattern

variable {α : Type}

/-- The nearest hit and what follows it. `fresh` says that a line starts here; the characters
`skipped`, last first, come before. -/
def firstFrom (p : Pattern α) (anchor : Anchor) :
    (fresh : Bool) → (skipped : List Char) → Text → Option (Hit α × Text)
  | _, _, [] => none
  | fresh, skipped, c :: s =>
    match (if anchor = .lineStart && !fresh then none else p.read (c :: s)) with
    | some ⟨note, t :: ts, rest⟩ => some (⟨skipped.reverse, t :: ts, note⟩, rest)
    | _ => firstFrom p anchor (c == '\n') (c :: skipped) s

/-- A search loses nothing, and a hit takes something. -/
theorem append_eq_of_firstFrom {p : Pattern α} {anchor : Anchor} {fresh : Bool}
    {skipped : List Char} {s : Text} {h : Hit α} {rest : Text}
    (hf : firstFrom p anchor fresh skipped s = some (h, rest)) :
    h.skipped ++ h.taken ++ rest = skipped.reverse ++ s ∧ h.taken ≠ [] := by
  induction s generalizing fresh skipped with
  | nil => cases hf
  | cons c s ih =>
    unfold firstFrom at hf
    split at hf
    · rename_i note t ts rest' hr
      split at hr
      · cases hr
      · cases hf
        have := p.taken_append_rest hr
        simp_all
    · obtain ⟨he, ht⟩ := ih hf
      exact ⟨by rw [he]; simp, ht⟩

/-- All hits, from a place that starts a line if `fresh` holds. -/
def cutFrom (p : Pattern α) (anchor : Anchor) (fresh : Bool) (s : Text) : Cutting α :=
  match h : p.firstFrom anchor fresh [] s with
  | none => ⟨[], s⟩
  | some (hit, rest) =>
    have : rest.length < s.length := by
      obtain ⟨he, ht⟩ := append_eq_of_firstFrom h
      have hl := congrArg List.length he
      have := List.length_pos_iff.mpr ht
      simp at hl
      omega
    let more := cutFrom p anchor (endsLine hit.taken) rest
    ⟨hit :: more.hits, more.tail⟩
termination_by s.length

/-- Cuts a text along the pattern. -/
def cut (p : Pattern α) (anchor : Anchor) (s : Text) : Cutting α := p.cutFrom anchor true s

/-- What the pattern notes where it first hits. -/
def first? (p : Pattern α) (anchor : Anchor) (s : Text) : Option α :=
  (p.firstFrom anchor true [] s).map (·.1.note)

theorem text_cutFrom (p : Pattern α) (anchor : Anchor) (fresh : Bool) (s : Text) :
    (p.cutFrom anchor fresh s).text = s := by
  fun_induction cutFrom p anchor fresh s with
  | case1 => simp [Cutting.text]
  | case2 fresh s hit rest h _ more ih =>
    have he := (append_eq_of_firstFrom h).1
    simp only [Cutting.text, List.flatMap_cons, List.append_assoc] at ih ⊢
    rw [ih, ← List.append_assoc, he]
    rfl

/-- Hits and gaps in order are the text that was cut. -/
theorem cut_text (p : Pattern α) (anchor : Anchor) (s : Text) : (p.cut anchor s).text = s :=
  text_cutFrom p anchor true s

/-- Where there is no hit, nothing is removed. -/
theorem remainder_cutFrom_of_hits_nil {p : Pattern α} {anchor : Anchor} {fresh : Bool} {s : Text}
    (h : (p.cutFrom anchor fresh s).hits = []) : (p.cutFrom anchor fresh s).remainder = s := by
  have ht := text_cutFrom p anchor fresh s
  simpa [Cutting.remainder, Cutting.text, h] using ht

end Pattern

end FirmwareIds
