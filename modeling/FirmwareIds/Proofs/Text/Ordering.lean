import FirmwareIds.Text.Basic
import FirmwareIds.Proofs.Text.Encoding

/-!
# The order of texts

Texts are ordered by code points (`Text.le`), and that is the order of their UTF-8 bytes
(`Utf8.encode_lt`). The first byte of a character tells how many follow, and it is greater where more
follow. Where as many follow, two characters differ in the first byte or in a later one, which has the
next six bits of the code point (`bytes_append_lt`).
-/

namespace FirmwareIds

namespace Text

theorem le_cons_iff {c d : Char} {s t : Text} :
    le (c :: s) (d :: t) = true ↔ c.toNat < d.toNat ∨ c = d ∧ le s t = true := by
  rw [le]
  split
  · next h =>
    subst h
    exact ⟨fun h => Or.inr ⟨rfl, h⟩, fun h => (h.resolve_left (Nat.lt_irrefl _)).2⟩
  · next h =>
    rw [decide_eq_true_eq]
    exact ⟨Or.inl, fun h' => h'.resolve_right fun h' => h h'.1⟩

theorem le_trans : ∀ {s t u : Text}, le s t = true → le t u = true → le s u = true
  | [], _, _, _, _ => rfl
  | _ :: _, [], _, h, _ => nomatch h
  | _ :: _, _ :: _, [], _, h => nomatch h
  | c :: s, d :: t, e :: u, h, h' => by
    rw [le_cons_iff] at h h' ⊢
    rcases h with h | ⟨rfl, h⟩
    · rcases h' with h' | ⟨rfl, -⟩
      · exact Or.inl (Nat.lt_trans h h')
      · exact Or.inl h
    · exact h'.imp_right fun h' => ⟨h'.1, le_trans h h'.2⟩

theorem le_antisymm : ∀ {s t : Text}, le s t = true → le t s = true → s = t
  | [], [], _, _ => rfl
  | [], _ :: _, _, h => nomatch h
  | _ :: _, [], h, _ => nomatch h
  | c :: s, d :: t, h, h' => by
    rw [le_cons_iff] at h h'
    rcases h with h | ⟨rfl, h⟩
    · rcases h' with h' | ⟨rfl, -⟩
      · exact absurd h' (Nat.lt_asymm h)
      · exact absurd h (Nat.lt_irrefl _)
    · rw [le_antisymm h (h'.resolve_left (Nat.lt_irrefl _)).2]

end Text

namespace Utf8

/-- The bits of a code point that are left for the first byte when `count` bytes follow it. -/
def top : Nat → Nat → Nat
  | 0, n => n
  | count + 1, n => top count (n / 64)

/-- A code point in bytes: the first begins as `mark` does, and the `count` that follow have six bits
each. -/
def bytes (mark : Nat) : Nat → Nat → List UInt8
  | 0, n => [(mark + n).toUInt8]
  | count + 1, n => bytes mark count (n / 64) ++ [(0x80 + n % 64).toUInt8]

/-- How the first byte of a code point begins, and how many bytes follow it. -/
inductive Shape : (mark count n : Nat) → Prop
  | one {n : Nat} (h : n < 0x80) : Shape 0 0 n
  | two {n : Nat} (hlow : 0x80 ≤ n) (hhigh : n < 0x800) : Shape 0xC0 1 n
  | three {n : Nat} (hlow : 0x800 ≤ n) (hhigh : n < 0x10000) : Shape 0xE0 2 n
  | four {n : Nat} (hlow : 0x10000 ≤ n) (hhigh : n < 0x110000) : Shape 0xF0 3 n

theorem encodeChar_eq (c : Char) :
    ∃ mark count, Shape mark count c.toNat ∧ encodeChar c = bytes mark count c.toNat := by
  have hvalid := toNat_valid c
  unfold encodeChar
  generalize c.toNat = n at hvalid
  dsimp only
  split
  · next h => exact ⟨_, _, .one h, by simp [bytes]⟩
  · split
    · exact ⟨_, _, .two (by omega) (by omega), by simp [bytes]⟩
    · split
      · exact ⟨_, _, .three (by omega) (by omega), by simp [bytes, Nat.div_div_eq_div_mul]⟩
      · exact ⟨_, _, .four (by omega) (by omega), by simp [bytes, Nat.div_div_eq_div_mul]⟩

section

variable {mark mark' count count' n m : Nat}

theorem Shape.first_lt (h : Shape mark count n) : mark + top count n < 256 := by
  cases h <;> simp only [top] <;> omega

theorem Shape.mark_eq (h : Shape mark count n) (h' : Shape mark' count m) : mark = mark' := by
  cases h <;> cases h' <;> rfl

/-- Of two code points with different shapes, the greater one has the greater first byte. -/
theorem Shape.first_lt_first (h : Shape mark count n) (h' : Shape mark' count' m) (hlt : n < m)
    (hne : count ≠ count') : mark + top count n < mark' + top count' m := by
  cases h <;> cases h' <;> simp only [top] <;> omega

theorem toUInt8_cons_lt {a b : Nat} (hb : b < 256) (h : a < b) (x y : List UInt8) :
    a.toUInt8 :: x < b.toUInt8 :: y := by
  refine List.cons_lt_cons_iff.mpr (Or.inl ?_)
  rw [UInt8.lt_iff_toNat_lt, toNat_toUInt8 (Nat.lt_trans h hb), toNat_toUInt8 hb]
  exact h

theorem bytes_eq_cons (mark count n : Nat) :
    ∃ rest, bytes mark count n = (mark + top count n).toUInt8 :: rest := by
  induction count generalizing n with
  | zero => exact ⟨[], rfl⟩
  | succ count ih =>
    obtain ⟨rest, hrest⟩ := ih (n / 64)
    exact ⟨rest ++ [(0x80 + n % 64).toUInt8], by rw [bytes, hrest]; rfl⟩

/-- Of two code points with the same shape, the greater one has the greater bytes. -/
theorem bytes_append_lt (hlt : n < m) (hm : mark + top count m < 256) (x y : List UInt8) :
    bytes mark count n ++ x < bytes mark count m ++ y := by
  induction count generalizing n m x y with
  | zero => exact toUInt8_cons_lt hm (Nat.add_lt_add_left hlt mark) x y
  | succ count ih =>
    rw [bytes, bytes, List.append_assoc, List.append_assoc]
    rcases Nat.lt_or_eq_of_le (Nat.div_le_div_right (c := 64) (Nat.le_of_lt hlt)) with hdiv | hdiv
    · exact ih hdiv hm _ _
    · -- only the last six bits differ
      rw [hdiv]
      exact List.append_left_lt (toUInt8_cons_lt (by omega) (by omega) x y)

end

/-- A greater character has greater bytes, whatever follows them. -/
theorem encodeChar_append_lt {c d : Char} (h : c.toNat < d.toNat) (x y : List UInt8) :
    encodeChar c ++ x < encodeChar d ++ y := by
  obtain ⟨mark, count, hshape, hc⟩ := encodeChar_eq c
  obtain ⟨mark', count', hshape', hd⟩ := encodeChar_eq d
  rw [hc, hd]
  by_cases hcount : count = count'
  · subst hcount
    rw [hshape.mark_eq hshape']
    exact bytes_append_lt h hshape'.first_lt x y
  · obtain ⟨rest, hrest⟩ := bytes_eq_cons mark count c.toNat
    obtain ⟨rest', hrest'⟩ := bytes_eq_cons mark' count' d.toNat
    rw [hrest, hrest']
    exact toUInt8_cons_lt hshape'.first_lt (hshape.first_lt_first hshape' h hcount) _ _

/-- A text that comes before another one has lesser bytes. -/
theorem encode_lt : ∀ {s t : Text}, Text.le s t = true → s ≠ t → encode s < encode t
  | [], [], _, hne => absurd rfl hne
  | [], d :: t, _, _ => by
    obtain ⟨mark, count, -, hd⟩ := encodeChar_eq d
    obtain ⟨rest, hrest⟩ := bytes_eq_cons mark count d.toNat
    rw [encode_cons, hd, hrest]
    exact List.nil_lt_cons _ _
  | _ :: _, [], h, _ => nomatch h
  | c :: s, d :: t, h, hne => by
    rw [encode_cons, encode_cons]
    rcases Text.le_cons_iff.mp h with hlt | ⟨rfl, hle⟩
    · exact encodeChar_append_lt hlt _ _
    · exact List.append_left_lt (encode_lt hle fun heq => hne (by rw [heq]))

end Utf8

end FirmwareIds
