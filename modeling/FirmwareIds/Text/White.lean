import FirmwareIds.Text.Basic

/-!
# White space

The Unicode property White_Space: the twenty-five characters that `trim` removes and that a code
prefix may not hold. The core class of white space knows the ASCII ones only.
-/

namespace FirmwareIds

/-- A character with the Unicode property White_Space. -/
def isWhite (c : Char) : Bool :=
  let n := c.toNat
  (9 ≤ n && n ≤ 13) || n == 0x20 || n == 0x85 || n == 0xA0 || n == 0x1680
    || (0x2000 ≤ n && n ≤ 0x200A) || n == 0x2028 || n == 0x2029 || n == 0x202F
    || n == 0x205F || n == 0x3000

namespace Text

/-- The text without the white space before it. -/
def trimLeft (s : Text) : Text := s.dropWhile isWhite

/-- The text without the white space after it. -/
def trimRight (s : Text) : Text := (s.reverse.dropWhile isWhite).reverse

/-- The text without the white space around it. -/
def trim (s : Text) : Text := trimRight (trimLeft s)

end Text

end FirmwareIds
