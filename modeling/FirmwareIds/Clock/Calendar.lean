import FirmwareIds.Clock.Moment

/-!
# The calendar

From a number of seconds to a moment. The days since 1970 are used up year by year and then month
by month; what is left is always below the length of the year or month reached.
-/

namespace FirmwareIds.Calendar

/-- Whether a year has a leap day. -/
def isLeap (year : Nat) : Bool := year % 4 = 0 && (year % 100 ≠ 0 || year % 400 = 0)

/-- The lengths of the months of a year. -/
def months (year : Nat) : List Nat :=
  [31, if isLeap year then 29 else 28, 31, 30, 31, 30, 31, 31, 30, 31, 30, 31]

/-- The days of a year. -/
def yearLength (year : Nat) : Nat := if isLeap year then 366 else 365

theorem yearLength_pos (year : Nat) : 0 < yearLength year := by
  unfold yearLength
  split <;> omega

/-- The year that the day lies in, `days` days after the start of `year`, and the days left in
it. -/
def yearOf (year days : Nat) : Nat × Nat :=
  if days < yearLength year then (year, days) else yearOf (year + 1) (days - yearLength year)
termination_by days
decreasing_by
  have := yearLength_pos year
  omega

/-- The month that the day lies in and its day there, both counted from nought. -/
def monthOf : (lengths : List Nat) → (days : Nat) → Nat × Nat
  | [], days => (0, days)
  | length :: rest, days =>
    if days < length then (0, days)
    else
      let (month, day) := monthOf rest (days - length)
      (month + 1, day)

theorem yearOf_snd_lt (year days : Nat) :
    (yearOf year days).2 < yearLength (yearOf year days).1 := by
  fun_induction yearOf year days with
  | case1 year days h => exact h
  | case2 year days h ih => exact ih

/-- The days of months of the lengths given. -/
def daysOf (lengths : List Nat) : Nat := lengths.foldr (fun length days => length + days) 0

/-- A day of a year falls into one of its months, and within that month. -/
theorem monthOf_lt {bound : Nat} (lengths : List Nat) (days : Nat) (h : days < daysOf lengths)
    (hb : ∀ n ∈ lengths, n ≤ bound) :
    (monthOf lengths days).1 < lengths.length ∧ (monthOf lengths days).2 < bound := by
  fun_induction monthOf lengths days with
  | case1 days => exact absurd h (Nat.not_lt_zero _)
  | case2 length rest days hd =>
    exact ⟨Nat.zero_lt_succ _, Nat.lt_of_lt_of_le hd (hb _ (List.mem_cons_self ..))⟩
  | case3 length rest days hd month day heq ih =>
    have hrest : days - length < daysOf rest := by
      rw [daysOf, List.foldr_cons] at h
      rw [daysOf]
      omega
    have := ih hrest fun n hn => hb n (List.mem_cons_of_mem _ hn)
    rw [heq] at this
    exact ⟨Nat.succ_lt_succ this.1, this.2⟩

theorem daysOf_months (year : Nat) : daysOf (months year) = yearLength year := by
  unfold months yearLength
  split <;> rfl

theorem le_of_mem_months {year n : Nat} (h : n ∈ months year) : n ≤ 31 := by
  unfold months at h
  split at h <;> simp only [List.mem_cons, List.not_mem_nil, or_false] at h <;> omega

/-- The moment `seconds` after the start of 1970, by the clock of universal time. -/
def momentAt (seconds : Nat) : Moment :=
  let date := yearOf 1970 (seconds / 86400)
  let place := monthOf (months date.1) date.2
  have h : place.1 < 12 ∧ place.2 < 31 :=
    monthOf_lt _ _ (by rw [daysOf_months]; exact yearOf_snd_lt ..) fun _ => le_of_mem_months
  ⟨date.1, place.1 + 1, place.2 + 1, seconds / 3600 % 24, seconds / 60 % 60, h.1, h.2,
    Nat.mod_lt _ (by decide), Nat.mod_lt _ (by decide)⟩

end FirmwareIds.Calendar
