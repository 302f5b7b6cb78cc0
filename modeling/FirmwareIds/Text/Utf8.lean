import FirmwareIds.Text.Basic

/-!
# UTF-8

Characters as bytes, and bytes as characters. Reading never fails as a whole: `scan` gives one
item per character, and `none` where bytes are no character. A malformed place covers the longest
run of bytes that could have begun a character, and at least one byte; that is the rule by which
a decoder that replaces malformed input decides how many replacement characters to write. So
strict reading and replacing reading are two views of one scan.
-/

namespace FirmwareIds.Utf8

/-- The bytes of a character: one to four of them, seven to twenty-one bits. -/
def encodeChar (c : Char) : List UInt8 :=
  let n := c.toNat
  if n < 0x80 then [n.toUInt8]
  else if n < 0x800 then [(0xC0 + n / 64).toUInt8, (0x80 + n % 64).toUInt8]
  else if n < 0x10000 then
    [(0xE0 + n / 4096).toUInt8, (0x80 + n / 64 % 64).toUInt8, (0x80 + n % 64).toUInt8]
  else
    [(0xF0 + n / 262144).toUInt8, (0x80 + n / 4096 % 64).toUInt8,
      (0x80 + n / 64 % 64).toUInt8, (0x80 + n % 64).toUInt8]

/-- The bytes of a text. -/
def encode (s : Text) : List UInt8 := s.flatMap encodeChar

@[simp] theorem encode_nil : encode [] = [] := rfl

@[simp] theorem encode_cons (c : Char) (s : Text) :
    encode (c :: s) = encodeChar c ++ encode s := rfl

@[simp] theorem encode_append (s t : Text) : encode (s ++ t) = encode s ++ encode t :=
  List.flatMap_append

/-- What the first byte of a character announces. -/
structure Lead where
  /-- How many bytes must follow it. -/
  owed : Nat
  /-- The bits it carries itself. -/
  bits : Nat
  /-- The least value of the next byte. -/
  low : Nat
  /-- The greatest value of the next byte. -/
  high : Nat

/-- A byte as the first of a character, unless no character begins with it. The narrowed ranges
after `E0`, `ED`, `F0` and `F4` keep out overlong forms, surrogates and what lies above the last
code point. -/
def lead? (b : UInt8) : Option Lead :=
  let n := b.toNat
  if n < 0x80 then some ⟨0, n, 0x80, 0xBF⟩
  else if n < 0xC2 then none
  else if n < 0xE0 then some ⟨1, n - 0xC0, 0x80, 0xBF⟩
  else if n = 0xE0 then some ⟨2, 0, 0xA0, 0xBF⟩
  else if n = 0xED then some ⟨2, 13, 0x80, 0x9F⟩
  else if n < 0xF0 then some ⟨2, n - 0xE0, 0x80, 0xBF⟩
  else if n = 0xF0 then some ⟨3, 0, 0x90, 0xBF⟩
  else if n < 0xF4 then some ⟨3, n - 0xF0, 0x80, 0xBF⟩
  else if n = 0xF4 then some ⟨3, 4, 0x80, 0x8F⟩
  else none

/-- Reads the bytes still owed, six bits each, into the code point begun in `bits`; only the first
of them is held to `low` and `high`. Stops before the first byte that does not fit. -/
def tails : Nat → Nat → Nat → Nat → List UInt8 → Option Nat × List UInt8
  | 0, _, _, bits, bs => (some bits, bs)
  | _ + 1, _, _, _, [] => (none, [])
  | owed + 1, low, high, bits, b :: bs =>
    if low ≤ b.toNat ∧ b.toNat ≤ high then
      tails owed 0x80 0xBF (bits * 64 + b.toNat % 64) bs
    else (none, b :: bs)

theorem length_tails_le (owed low high bits : Nat) (bs : List UInt8) :
    (tails owed low high bits bs).2.length ≤ bs.length := by
  fun_induction tails owed low high bits bs with
  | case1 => exact Nat.le_refl _
  | case2 => exact Nat.le_refl _
  | case3 owed low high bits b bs _ ih => exact Nat.le_succ_of_le ih
  | case4 => exact Nat.le_refl _

/-- The characters that the bytes spell, and `none` for each malformed place. -/
def scan (bs : List UInt8) : List (Option Char) := go [] bs
where
  /-- Goes on after the characters `acc`, last first. -/
  go (acc : List (Option Char)) : List UInt8 → List (Option Char)
    | [] => acc.reverse
    | b :: bs =>
      match lead? b with
      | none => go (none :: acc) bs
      | some l =>
        go ((tails l.owed l.low l.high l.bits bs).1.map Char.ofNat :: acc)
          (tails l.owed l.low l.high l.bits bs).2
  termination_by bs => bs.length
  decreasing_by
    · simp
    · exact Nat.lt_succ_of_le (length_tails_le ..)

/-- What is written for a malformed place. -/
def replacement : Char := '\ufffd'

/-- The text with every malformed place replaced. -/
def decodeLossy (bs : List UInt8) : Text := (scan bs).map (·.getD replacement)

/-- The text, unless some place is malformed. -/
def decode? (bs : List UInt8) : Option Text :=
  if (scan bs).all Option.isSome then some (decodeLossy bs) else none

end FirmwareIds.Utf8
