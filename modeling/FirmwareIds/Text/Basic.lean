/-!
# Text

Everything this library reads, compares and writes is text, and its laws are recursions over
characters. So a text is a list of characters, and what is measured in bytes (the padding of a
line, the limits of a path) is a function on it.

The classes of characters that the formats use are here too. They are ASCII classes by the
formats' own rules; the one Unicode class, white space, has a module of its own.
-/

namespace FirmwareIds

/-- A text: its characters, first to last. -/
abbrev Text := List Char

/-- A space or a tab: what separates words on a line. -/
def isBlank (c : Char) : Bool := c == ' ' || c == '\t'

/-- A blank or a line end: what may separate a language tag from its quoted value. -/
def isGap (c : Char) : Bool := isBlank c || c == '\r' || c == '\n'

/-- A letter, a digit or an underscore: what identifiers and tokens are made of. -/
def isWordChar (c : Char) : Bool := c.isAlphanum || c == '_'

/-- A letter or a hyphen: what language tags are made of. -/
def isTagChar (c : Char) : Bool := c.isAlpha || c == '-'

/-- A digit in base sixteen, in either case. -/
def isHexDigit (c : Char) : Bool :=
  c.isDigit || ('a' ≤ c && c ≤ 'f') || ('A' ≤ c && c ≤ 'F')

/-- Every word character is no gap, so a run of one ends where a run of the other begins. -/
theorem isGap_of_isWordChar {c : Char} (h : isWordChar c = true) : isGap c = false := by
  rcases Bool.eq_false_or_eq_true (isGap c) with hg | hg
  · simp only [isGap, isBlank, Bool.or_eq_true, beq_iff_eq] at hg
    rcases hg with ((rfl | rfl) | rfl) | rfl <;> exact absurd h (by decide)
  · exact hg

namespace Text

/-- The number of bytes the text takes in UTF-8. -/
def byteLength (s : Text) : Nat := s.foldr (fun c n => c.utf8Size + n) 0

@[simp] theorem byteLength_nil : byteLength [] = 0 := rfl

@[simp] theorem byteLength_cons (c : Char) (s : Text) :
    byteLength (c :: s) = c.utf8Size + byteLength s := rfl

@[simp] theorem byteLength_append (s t : Text) :
    byteLength (s ++ t) = byteLength s + byteLength t := by
  induction s with
  | nil => simp
  | cons c s ih => simp [ih, Nat.add_assoc]

/-- What follows the text `w` at the front of a text, if `w` is there. -/
def after? : Text → Text → Option Text
  | [], s => some s
  | _ :: _, [] => none
  | c :: w, d :: s => if c = d then after? w s else none

theorem after?_eq_some_iff : ∀ {w s rest : Text}, after? w s = some rest ↔ s = w ++ rest
  | [], s, rest => by simp [after?]
  | _ :: _, [], rest => by simp [after?]
  | c :: w, d :: s, rest => by
    unfold after?
    by_cases h : c = d
    · subst h; simp [after?_eq_some_iff]
    · simp [h, Ne.symm h]

/-- The text with ASCII capitals made small. -/
def lower (s : Text) : Text := s.map Char.toLower

/-- Order by code points, which is also the order of the UTF-8 bytes. -/
def le : Text → Text → Bool
  | [], _ => true
  | _ :: _, [] => false
  | c :: s, d :: t => if c = d then le s t else c < d

/-- The order of texts is total, so a sort by it is determined. -/
theorem le_total : ∀ s t : Text, (le s t || le t s) = true
  | [], _ => by simp [le]
  | _ :: _, [] => by simp [le]
  | c :: s, d :: t => by
    unfold le
    by_cases h : c = d
    · subst h; simpa using le_total s t
    · have h' : ¬ d = c := fun e => h e.symm
      simp only [h, h', if_false, Bool.or_eq_true, decide_eq_true_eq]
      rcases Nat.lt_trichotomy c.toNat d.toNat with hl | he | hl
      · exact Or.inl hl
      · exact absurd (Char.toNat_inj.mp he) h
      · exact Or.inr hl

/-- The lines of a text. A line feed ends a line, with the one carriage return before it; the
last line needs no end, and nothing after the last line feed is no line. -/
def lines (s : Text) : List Text := go [] s
where
  /-- Goes on with a line whose characters so far, last first, are `acc`. -/
  go (acc : List Char) : Text → List Text
    | [] => if acc.isEmpty then [] else [acc.reverse]
    | c :: rest =>
      if c = '\n' then
        (match acc with
          | '\r' :: line => line.reverse
          | line => line.reverse) :: go [] rest
      else go (c :: acc) rest

end Text

end FirmwareIds
