import FirmwareIds.Clock.Moment
import FirmwareIds.Error
import FirmwareIds.Text.White

/-!
# Stamps

A stamp is one part of a moment for firmware that reads numbers from the lowest byte up: its
characters in reverse order, each as its code in base sixteen.
-/

namespace FirmwareIds

/-- The part of a moment that a stamp shows. -/
inductive Stamp where
  | year
  | date
  | time
  deriving DecidableEq

namespace Stamp

/-- Reads the name of a part, in either case, with white space around it and hyphens before it. -/
def parse (s : Text) : Except Error Stamp :=
  let word := Text.lower (s.trim.dropWhile (· == '-'))
  if word = "year".toList then .ok .year
  else if word = "date".toList then .ok .date
  else if word = "time".toList then .ok .time
  else .error (.unknownStamp word)

/-- The characters that a stamp shows. -/
def shown (m : Moment) : Stamp → Text
  | year => m.fullYear
  | date => m.monthDay
  | time => m.hourMinute

/-- The stamp of a moment. -/
def render (s : Stamp) (m : Moment) : Text :=
  (s.shown m).reverse.flatMap fun c => Text.hex c.toNat

end Stamp

end FirmwareIds
