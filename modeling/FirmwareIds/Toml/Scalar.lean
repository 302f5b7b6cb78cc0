import FirmwareIds.Clock.Calendar
import FirmwareIds.Text.Numeral
import FirmwareIds.Text.Pattern

/-!
# Scalars

The values of settings that are neither strings nor made of other values: numbers, truth values,
dates and times. No setting takes one. So what counts is where a scalar ends and that it is one:
an integer has sixty-four bits with its sign, a date is a day of the calendar, and a number with a
fraction or an exponent has a binary64 value, by `isFinite`.
-/

namespace FirmwareIds.Toml

open Pattern

/-! ## Numbers -/

/-- Digits of a class, with an underscore between two of them or not; it is no part of the note. -/
def digits (p : Char → Bool) : Pattern Text := do
  let first ← many1 p
  let more ← star do
    word ['_']
    many1 p
  return first ++ more.flatten

/-- A sign, if there is one. The note says whether it is a minus. -/
def sign : Pattern Bool := do
  let s ← optional fun c => c == '+' || c == '-'
  return s == ['-']

/-- Decimal digits that do not begin with a nought, or a nought alone. -/
def wholeDigits : Pattern Text :=
  oneOf [word ['0'] >>= fun _ => done ['0'], digits Char.isDigit]

/-- The number of integers that are not negative. -/
def integerRange : Nat := Nat.pow 2 63

/-- An integer in base ten. There is one more below nought than from nought up. -/
def decimalInteger : Pattern Unit := do
  let minus ← sign
  let ds ← wholeDigits
  require (Text.ofDigits 10 ds < integerRange + if minus then 1 else 0)

/-- An integer in the base that its mark says, without a sign. -/
def markedInteger (mark : Char) (base : Nat) (p : Char → Bool) : Pattern Unit := do
  word ['0', mark]
  let ds ← digits p
  require (Text.ofDigits base ds < integerRange)

/-- An integer. -/
def integer : Pattern Unit :=
  oneOf [markedInteger 'x' 16 isHexDigit, markedInteger 'o' 8 (fun c => '0' ≤ c && c ≤ '7'),
    markedInteger 'b' 2 (fun c => c == '0' || c == '1'), decimalInteger]

/-- The least number that is nearer to `2 ^ 1024` than to the greatest finite binary64 number, or
as near. -/
def overflow : Nat := Nat.pow 2 1024 - Nat.pow 2 970

/-- Whether decimal digits times a power of ten round to a finite binary64 number. Digits that do
not begin with a nought say how many places the number has, so no power is formed unless the number
has as many places as `overflow`. -/
def isFinite (ds : Text) (power : Int) : Bool :=
  let ds := ds.dropWhile (· == '0')
  let places := ds.length + power
  if ds.isEmpty || places < 309 then true
  else if 309 < places then false
  else if 0 ≤ power then Text.ofDigits 10 ds * Nat.pow 10 power.toNat < overflow
  else Text.ofDigits 10 ds < overflow * Nat.pow 10 (-power).toNat

/-- The digits behind a point. -/
def fraction : Pattern Text := do
  word ['.']
  digits Char.isDigit

/-- The power of ten behind its letter. -/
def exponent : Pattern Int := do
  let _ ← exactly 1 fun c => c == 'e' || c == 'E'
  let minus ← sign
  let n := Text.ofDigits 10 (← digits Char.isDigit)
  return if minus then -n else n

/-- A number with a fraction, an exponent or both. A negative one may be of any size. -/
def decimalFraction : Pattern Unit := do
  let minus ← sign
  let whole ← wholeDigits
  let behind? ← maybe fraction
  let power? ← maybe exponent
  let behind := behind?.getD []
  require (behind?.isSome || power?.isSome)
  require (minus || isFinite (whole ++ behind) (power?.getD 0 - behind.length))

/-- Infinity, or what is no number. -/
def namedNumber : Pattern Unit := do
  let _ ← sign
  oneOf [word "inf".toList, word "nan".toList]

/-! ## Dates and times -/

/-- A number of two digits within bounds. -/
def twoDigits (least most : Nat) : Pattern Nat := do
  let n := Text.ofDigits 10 (← exactly 2 Char.isDigit)
  require (least ≤ n && n ≤ most)
  return n

/-- A day of the calendar. -/
def date : Pattern Unit := do
  let year ← exactly 4 Char.isDigit
  word ['-']
  let month ← twoDigits 1 12
  word ['-']
  let day ← twoDigits 1 31
  require ((Calendar.months (Text.ofDigits 10 year))[month - 1]?.any (day ≤ ·))

/-- A time of day. The last second may be a leap second. -/
def timeOfDay : Pattern Unit := do
  let _ ← twoDigits 0 23
  word [':']
  let _ ← twoDigits 0 59
  word [':']
  let _ ← twoDigits 0 60
  let _ ← maybe do
    word ['.']
    many1 Char.isDigit

/-- How far a time is from universal time. -/
def zone : Pattern Unit := do
  let mark ← exactly 1 fun c => c == 'Z' || c == 'z' || c == '+' || c == '-'
  if mark = ['+'] ∨ mark = ['-'] then
    let _ ← twoDigits 0 23
    word [':']
    let _ ← twoDigits 0 59

/-- A date with a time of day or without, or a time of day alone. A zone stands behind both. -/
def moment : Pattern Unit := do
  let timed : Pattern Unit := do
    let _ ← exactly 1 fun c => c == 'T' || c == 't' || c == ' '
    timeOfDay
    let _ ← maybe zone
  let dated : Pattern Unit := do
    date
    let _ ← maybe timed
  oneOf [dated, timeOfDay]

/-! ## All scalars -/

/-- A scalar. Of two readings the longer one comes first. -/
def scalar : Pattern Unit :=
  oneOf [moment, decimalFraction, namedNumber, integer, word "true".toList, word "false".toList]

end FirmwareIds.Toml
