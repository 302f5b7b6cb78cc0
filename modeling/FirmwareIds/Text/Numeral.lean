import FirmwareIds.Text.Basic

/-!
# Numerals

Numbers as digits: base sixteen with four digits for a sixteen-bit code, base ten with a least
width for the parts of a date, and the value of a run of digits in either base. The statement about the code is
`ofHex_hex4`: its four digits read back.
-/

namespace FirmwareIds.Text

/-- The value of a digit in base sixteen, in either case; nought for any other character. -/
def hexValue (c : Char) : Nat :=
  if c.isDigit then c.toNat - 48
  else if 'a' ≤ c && c ≤ 'f' then c.toNat - 87
  else if 'A' ≤ c && c ≤ 'F' then c.toNat - 55
  else 0

/-- The number that digits stand for, the most significant first. The base is sixteen at most. -/
def ofDigits (base : Nat) (s : Text) : Nat := s.foldl (fun n c => base * n + hexValue c) 0

/-- The number that digits in base sixteen stand for. -/
def ofHex (s : Text) : Nat := ofDigits 16 s

/-- The four digits of a code in base sixteen. -/
def hex4 (code : UInt16) : Text :=
  let n := code.toNat
  [Nat.digitChar (n / 4096), Nat.digitChar (n / 256 % 16), Nat.digitChar (n / 16 % 16),
    Nat.digitChar (n % 16)]

theorem hexValue_digitChar : ∀ n < 16, hexValue (Nat.digitChar n) = n := by decide

theorem isHexDigit_digitChar : ∀ n < 16, isHexDigit (Nat.digitChar n) = true := by decide

/-- The digits of a code read back as the code. -/
theorem ofHex_hex4 (code : UInt16) : ofHex (hex4 code) = code.toNat := by
  have := code.toNat_lt
  simp only [ofHex, ofDigits, hex4, List.foldl_cons, List.foldl_nil]
  rw [hexValue_digitChar _ (by omega), hexValue_digitChar _ (by omega),
    hexValue_digitChar _ (by omega), hexValue_digitChar _ (by omega)]
  omega

/-- A number in base ten. -/
def decimal (n : Nat) : Text := Nat.toDigits 10 n

/-- A number in base ten with at least `width` digits, noughts in front. -/
def padded (width n : Nat) : Text :=
  List.replicate (width - (decimal n).length) '0' ++ decimal n

/-- A number in base sixteen without noughts in front. -/
def hex (n : Nat) : Text := Nat.toDigits 16 n

end FirmwareIds.Text
