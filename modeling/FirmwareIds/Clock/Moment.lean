import FirmwareIds.Text.Numeral

/-!
# Moments

A moment is a minute of the Gregorian calendar in universal time, and its parts are written with a
fixed number of digits: that is what the bounds in the type are for. A year outside 0 to 9999 is
written with a sign.
-/

namespace FirmwareIds

/-- A minute of the calendar. -/
structure Moment where
  year : Int
  month : Nat
  day : Nat
  hour : Nat
  minute : Nat
  month_le : month ≤ 12
  day_le : day ≤ 31
  hour_lt : hour < 24
  minute_lt : minute < 60
  deriving DecidableEq

namespace Moment

/-- The moment with these parts, if they are in their bounds. -/
def of? (year : Int) (month day hour minute : Nat) : Option Moment :=
  if h : month ≤ 12 ∧ day ≤ 31 ∧ hour < 24 ∧ minute < 60 then
    some ⟨year, month, day, hour, minute, h.1, h.2.1, h.2.2.1, h.2.2.2⟩
  else none

/-- The year with four digits or more, and with a sign if it is before year 0 or after 9999. -/
def fullYear (m : Moment) : Text :=
  let digits := Text.padded 4 m.year.natAbs
  if m.year < 0 then '-' :: digits
  else if 9999 < m.year then '+' :: digits
  else digits

/-- The last two digits of the year; before year 0 they go on counting down. -/
def shortYear (m : Moment) : Text := Text.padded 2 (m.year % 100).toNat

/-- Month and day. -/
def monthDay (m : Moment) : Text := Text.padded 2 m.month ++ Text.padded 2 m.day

/-- Hour and minute. -/
def hourMinute (m : Moment) : Text := Text.padded 2 m.hour ++ Text.padded 2 m.minute

end Moment

end FirmwareIds
