import Mathlib.Logic.Function.Iterate
import Mathlib.Tactic.IntervalCases

/-!
# The Gregorian calendar

A date and the next one, by the rule of leap years and the lengths of the
months. A date's day number counts in centuries, years and months that begin in
March, so that the leap day is the last of its year; quotients give them back.
-/

namespace MudouHttp.Lib

def Leap (year : Nat) : Prop := year % 4 = 0 ∧ (year % 100 ≠ 0 ∨ year % 400 = 0)

instance : Decidable (Leap year) := inferInstanceAs (Decidable (_ ∧ _))

def daysInMonth (year month : Nat) : Nat :=
  if month = 2 then if Leap year then 29 else 28
  else if month = 4 ∨ month = 6 ∨ month = 9 ∨ month = 11 then 30 else 31

theorem daysInMonth_pos (year month : Nat) : 1 ≤ daysInMonth year month := by
  unfold daysInMonth
  split <;> split <;> decide

theorem daysInMonth_le (year month : Nat) : daysInMonth year month ≤ 31 := by
  unfold daysInMonth
  split <;> split <;> decide

theorem daysInMonth_february (year : Nat) : daysInMonth year 2 ≤ 29 := by
  rw [daysInMonth, if_pos rfl]
  split <;> decide

-- ---------------------------------------------------------------------------
-- Years that begin in March
-- ---------------------------------------------------------------------------

/-- The first day of a year that begins in March: every fourth year has a day
more, but of the centuries only every fourth has it. -/
def yearStart (year : Nat) : Nat :=
  36524 * (year / 100) + year / 100 / 4 + (365 * (year % 100) + year % 100 / 4)

theorem leap_century {year : Nat} (h : (year + 4800) % 100 = 0) :
    Leap year ↔ (year + 4800) / 100 % 4 = 0 := by
  unfold Leap
  omega

theorem leap_within {year : Nat} (h : (year + 4800) % 100 ≠ 0) :
    Leap year ↔ (year + 4800) % 100 % 4 = 0 := by
  unfold Leap
  omega

/-- The year before ends with February. -/
theorem yearStart_next (year : Nat) :
    yearStart (year + 4800) = yearStart (year + 4800 - 1) + 337 + daysInMonth year 2 := by
  rw [daysInMonth, if_pos rfl, yearStart, yearStart]
  by_cases hd : (year + 4800) % 100 = 0
  · have hcentury : (year + 4800 - 1) / 100 = (year + 4800) / 100 - 1 := by omega
    have hyear : (year + 4800 - 1) % 100 = 99 := by omega
    have hpos : 1 ≤ (year + 4800) / 100 := by omega
    simp only [hcentury, hyear, hd, leap_century hd]
    generalize (year + 4800) / 100 = b at hpos
    split <;> omega
  · have hcentury : (year + 4800 - 1) / 100 = (year + 4800) / 100 := by omega
    have hyear : (year + 4800 - 1) % 100 = (year + 4800) % 100 - 1 := by omega
    simp only [hcentury, hyear, leap_within hd]
    generalize (year + 4800) % 100 = d at hd
    generalize (year + 4800) / 100 = b
    split <;> omega

/-- The century and the year in it, from a day of the year. -/
theorem yearStart_div {n year : Nat} (hle : yearStart year ≤ n) (hlt : n < yearStart (year + 1)) :
    (4 * n + 3) / 146097 = year / 100 ∧
      (4 * (n - (36524 * (year / 100) + year / 100 / 4)) + 3) / 1461 = year % 100 := by
  have hnext : (year + 1) / 100 = year / 100 ∧ (year + 1) % 100 = year % 100 + 1 ∧
        year % 100 < 99 ∨
      (year + 1) / 100 = year / 100 + 1 ∧ (year + 1) % 100 = 0 ∧ year % 100 = 99 := by omega
  unfold yearStart at hlt hle
  generalize year / 100 = b at hlt hle hnext ⊢
  generalize year % 100 = d at hlt hle hnext ⊢
  have hlow : 36524 * b + b / 4 ≤ n := by omega
  rcases hnext with ⟨hb, hd, hlast⟩ | ⟨hb, hd, rfl⟩
  · rw [hb, hd] at hlt
    clear hb hd
    exact ⟨by omega, by omega⟩
  · rw [hb, hd] at hlt
    clear hb hd
    exact ⟨by omega, by omega⟩

-- ---------------------------------------------------------------------------
-- Dates
-- ---------------------------------------------------------------------------

structure Date where
  year : Nat
  month : Nat
  day : Nat
  month_ok : 1 ≤ month ∧ month ≤ 12
  day_ok : 1 ≤ day ∧ day ≤ daysInMonth year month

namespace Date

def next (x : Date) : Date :=
  if h : x.day < daysInMonth x.year x.month then
    { x with day := x.day + 1, day_ok := ⟨Nat.le_add_left _ _, h⟩ }
  else if h : x.month < 12 then
    { year := x.year, month := x.month + 1, day := 1, month_ok := ⟨Nat.le_add_left _ _, h⟩
      day_ok := ⟨Nat.le_refl _, daysInMonth_pos _ _⟩ }
  else
    { year := x.year + 1, month := 1, day := 1, month_ok := by decide
      day_ok := ⟨Nat.le_refl _, daysInMonth_pos _ _⟩ }

/-- The year that begins in March, from one 4800 years before year 0. -/
def marchYear (x : Date) : Nat := x.year + 4800 - (if x.month ≤ 2 then 1 else 0)

/-- March is 0. -/
def marchMonth (x : Date) : Nat := if x.month ≤ 2 then x.month + 9 else x.month - 3

/-- The day of its year that begins in March, from 0. -/
def yearDay (x : Date) : Nat := (153 * x.marchMonth + 2) / 5 + x.day - 1

def number (x : Date) : Nat := yearStart x.marchYear + x.yearDay

theorem number_next (x : Date) : x.next.number = x.number + 1 := by
  obtain ⟨year, month, day, ⟨hlow, hhigh⟩, hfirst, hlast⟩ := x
  unfold next
  split
  · simp only [number, yearDay, marchYear, marchMonth]
    omega
  · rename_i hday
    obtain rfl : day = daysInMonth year month := Nat.le_antisymm hlast (Nat.not_lt.mp hday)
    have hmarch := yearStart_next year
    split
    · rename_i hmonth
      simp only [number, yearDay, marchYear, marchMonth]
      simp only at hmonth
      -- only February's length is not that of its number
      interval_cases month <;> simp [daysInMonth] at hmarch ⊢
      omega
    · rename_i hmonth
      obtain rfl : month = 12 := Nat.le_antisymm hhigh (Nat.not_lt.mp hmonth)
      have hyear : year + 1 + 4800 - 1 = year + 4800 := by omega
      simp only [number, yearDay, marchYear, marchMonth]
      simp [daysInMonth, hyear]

theorem number_iterate (x : Date) (days : Nat) : (next^[days] x).number = x.number + days := by
  induction days with
  | zero => rfl
  | succ days ih => rw [Function.iterate_succ_apply', number_next, ih, Nat.add_assoc]

-- ---------------------------------------------------------------------------
-- The date of a number
-- ---------------------------------------------------------------------------

/-- A month ends where the next one begins, and February with its year. -/
theorem day_le (x : Date) : x.marchMonth < 12 ∧
    (153 * x.marchMonth + 2) / 5 + x.day ≤ (153 * (x.marchMonth + 1) + 2) / 5 ∧
      (x.marchMonth = 11 → x.day ≤ daysInMonth x.year 2) := by
  obtain ⟨year, month, day, ⟨hlow, hhigh⟩, hfirst, hlast⟩ := x
  have hfeb := daysInMonth_february year
  have hshort : daysInMonth year 4 = 30 ∧ daysInMonth year 6 = 30 ∧ daysInMonth year 9 = 30 ∧
      daysInMonth year 11 = 30 := ⟨rfl, rfl, rfl, rfl⟩
  have hmonth := daysInMonth_le year month
  simp only [marchMonth]
  interval_cases month <;> simp <;> omega

/-- Months of 31 and 30 days in turn, five from March and five from August. -/
theorem marchMonth_eq (x : Date) : (5 * x.yearDay + 2) / 153 = x.marchMonth := by
  have hday := x.day_le.2.1
  have hfirst := x.day_ok.1
  unfold yearDay
  generalize x.marchMonth = m at hday ⊢
  omega

/-- The calendar year in which a year that begins in March ends. -/
theorem marchYear_ends (x : Date) :
    ∃ year, year + 4800 = x.marchYear + 1 ∧ (x.marchMonth = 11 → x.year = year) := by
  have hmonth := x.month_ok
  unfold marchYear marchMonth
  split
  · exact ⟨x.year, by omega, fun _ => rfl⟩
  · exact ⟨x.year + 1, by omega, fun h => by omega⟩

theorem number_lt (x : Date) : x.number < yearStart (x.marchYear + 1) := by
  obtain ⟨hmonth, hday, hfeb⟩ := x.day_le
  obtain ⟨year, hyear, hends⟩ := x.marchYear_ends
  have hfirst := x.day_ok.1
  have hstart := yearStart_next year
  rw [hyear, Nat.add_sub_cancel] at hstart
  rw [number, yearDay, hstart]
  by_cases h : x.marchMonth = 11
  · have hlast := hfeb h
    rw [hends h] at hlast
    rw [h]
    omega
  · have hpos := daysInMonth_pos year 2
    omega

theorem marchYear_eq (x : Date) :
    (4 * x.number + 3) / 146097 = x.marchYear / 100 ∧
    (4 * (x.number - (36524 * (x.marchYear / 100) + x.marchYear / 100 / 4)) + 3) / 1461 =
      x.marchYear % 100 :=
  yearStart_div (Nat.le_add_right _ _) x.number_lt

end Date

end MudouHttp.Lib
