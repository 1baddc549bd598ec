import MudouHttp.Cxx.Text
import MudouHttp.Lib.Calendar

/-!
# The clock of the log

`GetNow` of `logger/xlog_format.cpp` and `Getnow` of `logger/user_format.cpp`
turn the seconds since 1970 into a date by a closed formula in `int`. In the
time zone they use it is the calendar's date and the time of day
(`getNow_ok`).
-/

namespace MudouHttp

structure Tm where
  sec : Int
  min : Int
  hour : Int
  mday : Int
  mon : Int
  year : Int

def logDate (mday : Int) : Except Fault (Int × Int × Int) := do
  let a ← intAdd mday 2472632
  let b ← intDiv (← intAdd (← intMul a 4) 3) 146097
  let c ← intAdd (← intDiv (← intMul (← intNeg b) 146097) 4) a
  let d ← intDiv (← intAdd (← intMul c 4) 3) 1461
  let e ← intMul (← intNeg d) 1461
  let e ← intAdd (← intDiv e 4) c
  let m ← intDiv (← intAdd (← intMul 5 e) 2) 153
  let mday ← intAdd (← intAdd (← intDiv (← intNeg (← intAdd (← intMul 153 m) 2)) 5) e) 1
  let mon ← intAdd (← intAdd (← intMul (← intDiv (← intNeg m) 10) 12) m) 2
  let year ← intAdd (← intSub (← intAdd (← intMul b 100) d) 6700) (← intDiv m 10)
  pure (mday, mon, year)

/-- The arithmetic of both functions. A `time_t` has 64 bits; its minutes are
stored in an `int`. -/
def logTm (unixSec timeZone : Int) : Except Fault Tm := do
  let sec := unixSec.tmod 60
  let i := Int.bmod (unixSec.tdiv 60) (2 ^ 32)
  let min ← intRem i 60
  let i ← intDiv i 60
  let hour ← intRem (← intAdd i timeZone) 24
  let mday ← intDiv (← intAdd i timeZone) 24
  let (mday, mon, year) ← logDate mday
  pure { sec := sec, min := min, hour := hour, mday := mday, mon := mon, year := year }

/-- `tm` of `GetNow`. -/
def XLogFormat.getNow (unixSec timeZone : Int) : Except Fault Tm := logTm unixSec timeZone

/-- `tm` of `Getnow`. -/
def UserFormat.getnow (unixSec timeZone : Int) : Except Fault Tm := logTm unixSec timeZone

-- ---------------------------------------------------------------------------
-- The date
-- ---------------------------------------------------------------------------

open Lib (Date)

theorem january_ok : 1 ≤ 1 ∧ 1 ≤ 12 :=
  ⟨Nat.le_refl _, by decide⟩

def epoch : Date :=
  { year := 1970, month := 1, day := 1, month_ok := january_ok, day_ok := by decide }

theorem epoch_number : epoch.number = 2472632 := by decide

/-- The formula, where its quotients are known and small. -/
theorem logDate_run {n b c d e m : Nat} (hn : n < 2 ^ 23) (hb : b < 2 ^ 8) (hc : c < 2 ^ 16)
    (hd : d < 2 ^ 7) (he : e < 2 ^ 9) (hm : m < 2 ^ 4)
    (hcentury : intDiv ((n : Int) * 4 + 3) 146097 = .ok b)
    (hrest : (-((b : Int) * 146097 / 4) + n : Int) = c)
    (hyear : intDiv ((c : Int) * 4 + 3) 1461 = .ok d)
    (hday : (-((d : Int) * 1461 / 4) + c : Int) = e)
    (hmonth : intDiv (5 * (e : Int) + 2) 153 = .ok m) :
    logDate ((n : Int) - 2472632) =
      .ok (-((153 * m + 2) / 5) + e + 1, -(m / 10) * 12 + m + 2, b * 100 + d - 6700 + m / 10) := by
  have hten : intDiv (m : Int) 10 = .ok (m / 10 : Int) := intDiv_ok (by omega) (by omega) (by omega)
  simp (disch := omega) only [logDate, Int.sub_add_cancel, intMul, intAdd, intSub, intNeg, intOf_ok,
    hcentury, Int.neg_mul, intDiv_neg_ok, hrest, hyear, hday, hmonth, hten, ok_bind]
  rfl

/-- The quotients, where they are the parts of a number of days. -/
theorem logDate_parts {n b d e m : Nat} (h : n < 2 ^ 23)
    (hn : n = 36524 * b + b / 4 + (365 * d + d / 4) + e) (hb : (4 * n + 3) / 146097 = b)
    (hd : (4 * (n - (36524 * b + b / 4)) + 3) / 1461 = d) (hm : (5 * e + 2) / 153 = m) :
    logDate ((n : Int) - 2472632) =
      .ok (-((153 * m + 2) / 5) + e + 1, -(m / 10) * 12 + m + 2, b * 100 + d - 6700 + m / 10) := by
  have hb' : b < 2 ^ 8 := by omega
  have hc' : 365 * d + d / 4 + e < 2 ^ 16 := by omega
  have hd' : d < 2 ^ 7 := by omega
  have he' : e < 2 ^ 9 := by omega
  refine logDate_run h hb' hc' hd' he' (by omega) ?_ (by omega) ?_ (by omega) ?_
  · rw [intDiv_ok (by omega) (by omega) (by omega)]
    exact congrArg _ (by omega)
  · rw [intDiv_ok (by omega) (by omega) (by omega)]
    exact congrArg _ (by omega)
  · rw [intDiv_ok (by omega) (by omega) (by omega)]
    exact congrArg _ (by omega)

theorem logDate_ok {days : Nat} (h : days < 2 ^ 22) (hx : Date.next^[days] epoch = x) :
    logDate days = .ok ((x.day : Int), (x.month : Int) - 1, (x.year : Int) - 1900) := by
  have hnumber : x.number = 2472632 + days := by
    rw [← hx, Date.number_iterate, epoch_number]
  have hdays : (days : Int) = (x.number : Int) - 2472632 := by omega
  obtain ⟨hcentury, hyear⟩ := x.marchYear_eq
  have hparts := @logDate_parts x.number _ _ _ _ (by omega) rfl hcentury hyear x.marchMonth_eq
  have hday : x.yearDay = (153 * x.marchMonth + 2) / 5 + x.day - 1 := rfl
  have hfirst := x.day_ok.1
  obtain ⟨hlow, hhigh⟩ := x.month_ok
  have hmonth : (-(x.marchMonth / 10 : Int) * 12 + x.marchMonth + 2 : Int) = x.month - 1 := by
    unfold Date.marchMonth
    split <;> omega
  have hmarch : x.year + 4800 = x.marchYear + x.marchMonth / 10 := by
    unfold Date.marchYear Date.marchMonth
    split <;> omega
  rw [hdays, hparts, hmonth]
  congr 2
  · omega
  · congr 1
    omega

-- ---------------------------------------------------------------------------
-- Date and time of day
-- ---------------------------------------------------------------------------

def Tm.IsDate (tm : Tm) (date : Date) : Prop :=
  tm.year + 1900 = date.year ∧ tm.mon + 1 = date.month ∧ tm.mday = date.day

def Tm.Shows (tm : Tm) (seconds : Nat) : Prop :=
  tm.IsDate (Date.next^[seconds / 86400] epoch) ∧
    tm.hour = seconds / 3600 % 24 ∧ tm.min = seconds / 60 % 60 ∧ tm.sec = seconds % 60

theorem logTm_ok {unixSec : Nat} (h : unixSec < 60 * (2 ^ 31 - 1)) :
    ∃ tm, logTm unixSec 8 = .ok tm ∧ tm.Shows (unixSec + 28800) := by
  have hsec : (unixSec : Int).tmod 60 = unixSec % 60 := Int.tmod_eq_emod_of_nonneg (by omega)
  have hminutes : Int.bmod ((unixSec : Int).tdiv 60) (2 ^ 32) = unixSec / 60 := by
    rw [Int.tdiv_eq_ediv_of_nonneg (by omega), Int.bmod_eq_of_le (by omega) (by omega)]
  have hmin := @intRem_ok (unixSec / 60) 60 (by omega) (by omega) (by omega)
  have hhours := @intDiv_ok (unixSec / 60) 60 (by omega) (by omega) (by omega)
  have hzone := @intAdd_ok (unixSec / 60 / 60) 8 (by omega) (by omega) (by omega)
  have hhour := @intRem_ok (unixSec / 60 / 60 + 8) 24 (by omega) (by omega) (by omega)
  have hmday := @intDiv_ok (unixSec / 60 / 60 + 8) 24 (by omega) (by omega) (by omega)
  have hdays : ((unixSec / 60 / 60 + 8) / 24 : Int) = ((unixSec + 28800) / 86400 : Nat) := by omega
  have hdate := @logDate_ok _ ((unixSec + 28800) / 86400) (by omega) rfl
  unfold Tm.Shows
  generalize Date.next^[(unixSec + 28800) / 86400] epoch = date at hdate ⊢
  have hrun : logTm unixSec 8 = .ok
      { sec := unixSec % 60, min := unixSec / 60 % 60, hour := (unixSec / 60 / 60 + 8) % 24
        mday := date.day, mon := (date.month : Int) - 1, year := (date.year : Int) - 1900 } := by
    simp only [logTm, hsec, hminutes, hmin, hhours, hzone, hhour, hmday, hdays, hdate, ok_bind]
    rfl
  refine ⟨_, hrun, ⟨Int.sub_add_cancel _ _, Int.sub_add_cancel _ _, rfl⟩, ?_, ?_, ?_⟩
  · show ((unixSec / 60 / 60 + 8) % 24 : Int) = _
    omega
  · show (unixSec / 60 % 60 : Int) = _
    omega
  · show (unixSec % 60 : Int) = _
    omega

/-- Both clocks show the calendar's date in the time zone eight hours ahead, and
no `int` overflows. -/
theorem getNow_ok {unixSec : Nat} (h : unixSec < 60 * (2 ^ 31 - 1)) :
    ∃ tm, XLogFormat.getNow unixSec 8 = .ok tm ∧ UserFormat.getnow unixSec 8 = .ok tm ∧
      tm.Shows (unixSec + 28800) := by
  obtain ⟨tm, hrun, hshows⟩ := logTm_ok h
  exact ⟨tm, hrun, hrun, hshows⟩

theorem getNow_ok_example : ∃ tm, XLogFormat.getNow 1000000000 8 = .ok tm ∧
    UserFormat.getnow 1000000000 8 = .ok tm ∧ tm.Shows 1000028800 :=
  getNow_ok (by decide)

end MudouHttp
