import Mathlib.Logic.Function.Iterate
import Mathlib.Tactic.IntervalCases

/-!
# The Gregorian calendar

The proleptic calendar, from the year 0 on. `number` counts the days, and the day of the week goes
round with it. `Date.next` and `DateTime.next` are the day and the second that follow, and the
counts of days and seconds go up by one with them.
-/

namespace Calendar

def IsLeap (y : Nat) : Prop := 4 ∣ y ∧ (100 ∣ y → 400 ∣ y)

instance (y : Nat) : Decidable (IsLeap y) := inferInstanceAs (Decidable (_ ∧ _))

/-- The days of a month, which is a number from 1 to 12. -/
def monthLength (y : Nat) : Nat → Nat
  | 1 | 3 | 5 | 7 | 8 | 10 | 12 => 31
  | 4 | 6 | 9 | 11 => 30
  | 2 => if IsLeap y then 29 else 28
  | _ => 0

/-- The days of the year in front of a month. -/
def monthStart (y : Nat) : Nat → Nat
  | 0 => 0
  | m + 1 => monthStart y m + monthLength y m

/-- The days in front of a year. -/
def yearStart : Nat → Nat
  | 0 => 0
  | y + 1 => yearStart y + monthStart y 13

def number (y m d : Nat) : Nat := yearStart y + monthStart y m + d

/-- From 0 for Sunday on. The year 0 begins on a Saturday. -/
def weekday (y m d : Nat) : Nat := (number y m d + 5) % 7

variable {y m d : Nat}

theorem isLeap_iff : IsLeap y ↔ y % 4 = 0 ∧ (y % 100 = 0 → y % 400 = 0) := by
  rw [IsLeap, Nat.dvd_iff_mod_eq_zero, Nat.dvd_iff_mod_eq_zero, Nat.dvd_iff_mod_eq_zero]

/-- A month has 28 to 31 days. -/
theorem monthLength_mem (y : Nat) (h : 1 ≤ m) (h' : m ≤ 12) :
    28 ≤ monthLength y m ∧ monthLength y m ≤ 31 := by
  interval_cases m
  case «2» =>
    rw [monthLength]
    split <;> omega
  all_goals simp [monthLength]

theorem yearLength (y : Nat) : monthStart y 13 = if IsLeap y then 366 else 365 := by
  simp only [monthStart, monthLength]
  split_ifs <;> rfl

/-- The days in front of a year, in closed form. -/
theorem yearStart_succ (y : Nat) :
    yearStart (y + 1) + y / 100 = 365 * (y + 1) + y / 4 + y / 400 + 1 := by
  induction y with
  | zero => decide
  | succ y ih =>
    have h100 : 100 ∣ y + 1 → 4 ∣ y + 1 := Nat.dvd_trans (by decide)
    have h400 : 400 ∣ y + 1 → 100 ∣ y + 1 := Nat.dvd_trans (by decide)
    rw [yearStart, yearLength, Nat.succ_div, Nat.succ_div, Nat.succ_div]
    simp only [IsLeap]
    by_cases d4 : 4 ∣ y + 1
    · by_cases d100 : 100 ∣ y + 1
      · by_cases d400 : 400 ∣ y + 1
        · simp only [d4, d100, d400, imp_self, and_self, if_true]
          omega
        · simp only [d4, d100, d400, true_imp_iff, and_false, if_true, if_false]
          omega
      · simp only [d4, d100, mt h400 d100, false_imp_iff, and_self, if_true, if_false]
        omega
    · have d100 := mt h100 d4
      simp only [d4, d100, mt h400 d100, false_and, if_false]
      omega

/-- The same by centuries. -/
theorem yearStart_century (y : Nat) : yearStart (y + 1) =
    36524 * (y / 100) + y / 100 / 4 + (365 * (y % 100) + y % 100 / 4) + 366 := by
  have h := yearStart_succ y
  have h4 : y / 4 = 25 * (y / 100) + y % 100 / 4 := by omega
  have h400 : y / 400 = y / 100 / 4 := by omega
  omega

/-- The first of January 2000 was a Saturday. -/
example : weekday 2000 1 1 = 6 := by
  have hyear : yearStart 2000 = 730485 := yearStart_century 1999
  rw [weekday, number, hyear]
  decide

/-- From March on a month is as far from the end of the year in every year. -/
theorem monthStart_march (y : Nat) (h : 3 ≤ m) (h' : m ≤ 12) :
    monthStart y m + (306 - (153 * (m - 3) + 2) / 5) = monthStart y 13 := by
  simp only [yearLength]
  interval_cases m
  all_goals
    simp only [monthStart, monthLength]
    split_ifs <;> rfl

theorem number_first (y m : Nat) : number y (m + 1) 1 = number y m 1 + monthLength y m := by
  rw [number, number, monthStart]
  omega

theorem number_new_year (y : Nat) : number (y + 1) 1 1 = number y 12 1 + monthLength y 12 := by
  rw [← number_first, number, number, yearStart]
  rfl

theorem weekday_lt (y m d : Nat) : weekday y m d < 7 := Nat.mod_lt _ (by decide)

/-- The days of a month go round the week. -/
theorem weekday_add (y m d : Nat) : weekday y m (d + 1) = (weekday y m 1 + d) % 7 := by
  rw [weekday, weekday, number, number]
  omega

/-! ## Dates -/

/-- A day of the calendar. -/
@[ext] structure Date where
  year : Nat
  month : Nat
  day : Nat
  month_pos : 1 ≤ month
  month_le : month ≤ 12
  day_pos : 1 ≤ day
  day_le : day ≤ monthLength year month
  deriving DecidableEq

namespace Date

def number (t : Date) : Nat := Calendar.number t.year t.month t.day

/-- The day that follows. -/
def next (t : Date) : Date :=
  if h : t.day < monthLength t.year t.month then
    ⟨t.year, t.month, t.day + 1, t.month_pos, t.month_le, Nat.succ_pos _, h⟩
  else if h : t.month < 12 then
    ⟨t.year, t.month + 1, 1, Nat.succ_pos _, h, le_rfl,
      (by decide : 1 ≤ 28).trans (monthLength_mem _ (Nat.succ_pos _) h).1⟩
  else ⟨t.year + 1, 1, 1, le_rfl, by decide, le_rfl, (by decide : 1 ≤ 31)⟩

theorem number_next (t : Date) : t.next.number = t.number + 1 := by
  have hle := t.day_le
  rw [next]
  split_ifs with hday hmonth
  · exact (Nat.add_assoc ..).symm
  · show Calendar.number t.year (t.month + 1) 1 = Calendar.number t.year t.month t.day + 1
    rw [number_first, Calendar.number, Calendar.number]
    omega
  · show Calendar.number (t.year + 1) 1 1 = Calendar.number t.year t.month t.day + 1
    have hmonth : t.month = 12 := Nat.le_antisymm t.month_le (Nat.not_lt.mp hmonth)
    rw [hmonth] at hle hday ⊢
    rw [number_new_year, Calendar.number, Calendar.number]
    omega

end Date

/-! ## Seconds -/

/-- A second of a day. -/
@[ext] structure DateTime extends Date where
  hour : Nat
  minute : Nat
  second : Nat
  hour_lt : hour < 24
  minute_lt : minute < 60
  second_lt : second < 60
  deriving DecidableEq

/-- The seconds up to a time of the day `n`. -/
def secondsOf (n hour minute second : Nat) : Nat := ((n * 24 + hour) * 60 + minute) * 60 + second

namespace DateTime

def seconds (t : DateTime) : Nat := secondsOf t.number t.hour t.minute t.second

/-- The second that follows. -/
def next (t : DateTime) : DateTime :=
  if h : t.second < 59 then { t with second := t.second + 1, second_lt := by omega }
  else if h : t.minute < 59 then
    { t with minute := t.minute + 1, second := 0, minute_lt := by omega, second_lt := by decide }
  else if h : t.hour < 23 then
    { t with
      hour := t.hour + 1, minute := 0, second := 0
      hour_lt := by omega, minute_lt := by decide, second_lt := by decide }
  else ⟨t.toDate.next, 0, 0, 0, by decide, by decide, by decide⟩

theorem seconds_next (t : DateTime) : t.next.seconds = t.seconds + 1 := by
  obtain ⟨date, hour, minute, second, hhour, hminute, hsecond⟩ := t
  have hnext := date.number_next
  rw [next]
  split_ifs with h₁ h₂ h₃
  all_goals
    simp only [seconds, secondsOf] at *
    omega

theorem second_next (t : DateTime) : t.next.second = (t.second + 1) % 60 := by
  have hlt := t.second_lt
  rw [next]
  split_ifs with h₁ h₂ h₃
  all_goals
    simp only
    omega

/-- The time `n` seconds later. -/
def after (t : DateTime) (n : Nat) : DateTime := next^[n] t

theorem seconds_after (t : DateTime) (n : Nat) : (t.after n).seconds = t.seconds + n := by
  induction n with
  | zero => rfl
  | succ n ih => rw [after, Function.iterate_succ_apply', seconds_next, ← after, ih, Nat.add_assoc]

theorem second_after (t : DateTime) (n : Nat) : (t.after n).second = (t.second + n) % 60 := by
  induction n with
  | zero => exact (Nat.mod_eq_of_lt t.second_lt).symm
  | succ n ih =>
    rw [after, Function.iterate_succ_apply', second_next, ← after, ih]
    omega

/-- Less than a minute apart, two times with the same second are the same time. -/
theorem after_eq (t : DateTime) {n k : Nat} (hn : n ≤ k) (hk : k < n + 60)
    (h : (t.after n).second = (t.after k).second) : n = k := by
  rw [second_after, second_after] at h
  omega

end DateTime

end Calendar
