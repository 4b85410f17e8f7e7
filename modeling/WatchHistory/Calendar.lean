/-!
# The proleptic Gregorian calendar

Dates and the number of days between them and 1970-01-01. Years are counted astronomically, so year
0 is the one before year 1.

* `Date.toDays` counts the days to a date, and `Date.ofDays` finds the date after that many days.
* `toDays_ofDays`: the date that is found lies as many days away as were asked for.
-/

set_option autoImplicit false

namespace WatchHistory.Calendar

/-! ## Years -/

def isLeapYear (year : Int) : Bool :=
  year % 4 = 0 && (year % 100 ≠ 0 || year % 400 = 0)

/-- The days from 0001-01-01 to the first day of `year`. -/
def daysBeforeYear (year : Int) : Int :=
  365 * (year - 1) + (year - 1) / 4 - (year - 1) / 100 + (year - 1) / 400

/-- The year that holds the day `day` days after 0001-01-01: the mean length of a year leads to it
or to a neighbour. -/
def yearOfDay (day : Int) : Int :=
  let year := 400 * day / 146097 + 1
  if day < daysBeforeYear year then year - 1
  else if daysBeforeYear (year + 1) ≤ day then year + 1
  else year

theorem daysBeforeYear_succ (year : Int) :
    daysBeforeYear (year + 1) = daysBeforeYear year + if isLeapYear year then 366 else 365 := by
  unfold daysBeforeYear isLeapYear
  by_cases h4 : year % 4 = 0 <;> by_cases h100 : year % 100 = 0 <;>
    by_cases h400 : year % 400 = 0 <;> simp [h4, h100, h400] <;> omega

theorem daysBeforeYear_mono {a b : Int} (h : a ≤ b) : daysBeforeYear a ≤ daysBeforeYear b := by
  unfold daysBeforeYear
  omega

/-- The days before a year are those of as many years of mean length, give or take two. -/
theorem daysBeforeYear_mean (year : Int) :
    146097 * (year - 1) - 400 * 2 ≤ 400 * daysBeforeYear year ∧
      400 * daysBeforeYear year ≤ 146097 * (year - 1) + 400 * 2 := by
  unfold daysBeforeYear
  omega

/-- A day lies between the starts of its year and of the next one. -/
theorem yearOfDay_bounds (day : Int) :
    daysBeforeYear (yearOfDay day) ≤ day ∧ day < daysBeforeYear (yearOfDay day + 1) := by
  have hlow := daysBeforeYear_mean (400 * day / 146097 + 1 - 1)
  have hhigh := daysBeforeYear_mean (400 * day / 146097 + 1 + 1 + 1)
  unfold yearOfDay
  dsimp only
  split
  · rw [show 400 * day / 146097 + 1 - 1 + 1 = 400 * day / 146097 + 1 by omega]
    omega
  · split <;> omega

/-! ## Months -/

/-- The lengths of the months, January first. -/
def monthLengths (leap : Bool) : List Nat :=
  [31, if leap then 29 else 28, 31, 30, 31, 30, 31, 31, 30, 31, 30, 31]

/-- The days of the first `n` of the given months. -/
def daysOfMonths (lengths : List Nat) (n : Nat) : Nat :=
  (lengths.take n).foldr (fun length days => length + days) 0

/-- The month and the day of the month, both from 1, of the day `day` days after the first one of
the first of the given months. -/
def monthAndDay : List Nat → Nat → Nat × Nat
  | [], day => (1, day + 1)
  | length :: lengths, day =>
    if day < length then (1, day + 1)
    else
      let later := monthAndDay lengths (day - length)
      (later.1 + 1, later.2)

@[simp] theorem daysOfMonths_zero (lengths : List Nat) : daysOfMonths lengths 0 = 0 := by
  simp [daysOfMonths]

@[simp] theorem daysOfMonths_cons (length : Nat) (lengths : List Nat) (n : Nat) :
    daysOfMonths (length :: lengths) (n + 1) = length + daysOfMonths lengths n := by
  simp [daysOfMonths]

theorem daysOfMonths_monthLengths (leap : Bool) :
    daysOfMonths (monthLengths leap) (monthLengths leap).length = if leap then 366 else 365 := by
  cases leap <;> rfl

/-- The days before the month that was found, and those before the day in it, are all of them. -/
theorem daysOfMonths_monthAndDay {lengths : List Nat} {day : Nat}
    (h : day < daysOfMonths lengths lengths.length) :
    (monthAndDay lengths day).1 ≠ 0 ∧
      daysOfMonths lengths ((monthAndDay lengths day).1 - 1) + (monthAndDay lengths day).2 =
        day + 1 := by
  induction lengths generalizing day with
  | nil => simp at h
  | cons length lengths ih =>
    simp only [List.length_cons, daysOfMonths_cons] at h
    unfold monthAndDay
    split
    · simp
    · obtain ⟨hne, hdays⟩ := @ih (day - length) (by omega)
      obtain ⟨n, hn⟩ := Nat.exists_eq_succ_of_ne_zero hne
      simp only [hn, Nat.succ_eq_add_one, Nat.add_sub_cancel, daysOfMonths_cons] at hdays ⊢
      omega

/-! ## Dates -/

structure Date where
  year : Int
  month : Nat
  day : Nat
deriving DecidableEq

namespace Date

/-- Whether the calendar has the date. -/
def isValid (d : Date) : Bool :=
  match d.month, (monthLengths (isLeapYear d.year))[d.month - 1]? with
  | _ + 1, some length => decide (1 ≤ d.day) && decide (d.day ≤ length)
  | _, _ => false

/-- The days from 0001-01-01 to 1970-01-01. -/
def epochDay : Int := 719162

/-- The days from 1970-01-01 to the date. -/
def toDays (d : Date) : Int :=
  daysBeforeYear d.year + (daysOfMonths (monthLengths (isLeapYear d.year)) (d.month - 1) : Int) +
    ((d.day : Int) - 1) - epochDay

/-- The date `days` days after 1970-01-01. -/
def ofDays (days : Int) : Date :=
  let day := days + epochDay
  let year := yearOfDay day
  let found := monthAndDay (monthLengths (isLeapYear year)) (day - daysBeforeYear year).toNat
  ⟨year, found.1, found.2⟩

theorem toDays_ofDays (days : Int) : (ofDays days).toDays = days := by
  have hyear := yearOfDay_bounds (days + epochDay)
  have hsucc := daysBeforeYear_succ (yearOfDay (days + epochDay))
  have hmonth := @daysOfMonths_monthAndDay
    (monthLengths (isLeapYear (yearOfDay (days + epochDay))))
    (days + epochDay - daysBeforeYear (yearOfDay (days + epochDay))).toNat (by
      rw [daysOfMonths_monthLengths]
      split <;> simp_all <;> omega)
  simp only [ofDays, toDays]
  omega

end Date

end WatchHistory.Calendar
