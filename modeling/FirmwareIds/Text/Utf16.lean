import FirmwareIds.Text.Utf8

/-!
# UTF-16

Characters as sixteen-bit units, and units as two bytes in either order. A character above
`FFFF` is a pair of surrogates, the high one first. As for UTF-8, reading gives one item per
character and `none` where units are no character: a surrogate without its partner, or a single
byte left at the end. A high surrogate that nothing but such a byte follows is one malformed
place together with it.
-/

namespace FirmwareIds.Utf16

/-- The order of the two bytes of a unit. -/
inductive ByteOrder where
  /-- The low byte first. -/
  | little
  /-- The high byte first. -/
  | big
  deriving DecidableEq

/-- The two bytes of a unit. -/
def ByteOrder.bytes (o : ByteOrder) (u : UInt16) : List UInt8 :=
  let low := (u.toNat % 256).toUInt8
  let high := (u.toNat / 256).toUInt8
  match o with
  | .little => [low, high]
  | .big => [high, low]

/-- The unit that two bytes make. -/
def ByteOrder.unit (o : ByteOrder) (a b : UInt8) : UInt16 :=
  match o with
  | .little => (a.toNat + 256 * b.toNat).toUInt16
  | .big => (256 * a.toNat + b.toNat).toUInt16

/-- The units of a character. -/
def unitsOfChar (c : Char) : List UInt16 :=
  let n := c.toNat
  if n < 0x10000 then [n.toUInt16]
  else [(0xD800 + (n - 0x10000) / 1024).toUInt16, (0xDC00 + (n - 0x10000) % 1024).toUInt16]

/-- The units of a text. -/
def units (s : Text) : List UInt16 := s.flatMap unitsOfChar

/-- The bytes of a text. -/
def encode (o : ByteOrder) (s : Text) : List UInt8 := (units s).flatMap o.bytes

@[simp] theorem units_nil : units [] = [] := rfl

@[simp] theorem units_append (s t : Text) : units (s ++ t) = units s ++ units t :=
  List.flatMap_append

@[simp] theorem encode_append (o : ByteOrder) (s t : Text) :
    encode o (s ++ t) = encode o s ++ encode o t := by
  simp [encode]

/-- A unit that begins a pair. -/
def isHigh (u : UInt16) : Bool := 0xD800 ≤ u.toNat && u.toNat < 0xDC00

/-- A unit that ends a pair. -/
def isLow (u : UInt16) : Bool := 0xDC00 ≤ u.toNat && u.toNat < 0xE000

/-- The character that a pair spells. -/
def charOfPair (high low : UInt16) : Char :=
  Char.ofNat (0x10000 + (high.toNat - 0xD800) * 1024 + (low.toNat - 0xDC00))

/-- The units that the bytes make, and whether one byte is left over. -/
def unitsOfBytes (o : ByteOrder) (bs : List UInt8) : List UInt16 × Bool := go [] bs
where
  /-- Goes on after the units `acc`, last first. -/
  go (acc : List UInt16) : List UInt8 → List UInt16 × Bool
    | a :: b :: bs => go (o.unit a b :: acc) bs
    | [_] => (acc.reverse, true)
    | [] => (acc.reverse, false)

/-- The characters that the units spell, and `none` for each malformed place; `odd` says that one
byte follows the last unit. -/
def scanUnits (odd : Bool) (us : List UInt16) : List (Option Char) := go [] us
where
  /-- Goes on after the characters `acc`, last first. -/
  go (acc : List (Option Char)) : List UInt16 → List (Option Char)
    | [] => if odd then (none :: acc).reverse else acc.reverse
    | u :: us =>
      if isHigh u then
        match us with
        | [] => (none :: acc).reverse
        | v :: rest =>
          if isLow v then go (some (charOfPair u v) :: acc) rest
          else go (none :: acc) (v :: rest)
      else if isLow u then go (none :: acc) us
      else go (some (Char.ofNat u.toNat) :: acc) us

/-- The characters that the bytes spell, and `none` for each malformed place. -/
def scan (o : ByteOrder) (bs : List UInt8) : List (Option Char) :=
  scanUnits (unitsOfBytes o bs).2 (unitsOfBytes o bs).1

/-- The text with every malformed place replaced. -/
def decodeLossy (o : ByteOrder) (bs : List UInt8) : Text :=
  (scan o bs).map (·.getD Utf8.replacement)

end FirmwareIds.Utf16
