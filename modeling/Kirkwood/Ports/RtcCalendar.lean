import Kirkwood.Verified.DayCount
import Kirkwood.Ports.DevRtc

/-!
# The calendar of the real-time clock

`sec2rtc` and `rtc2sec` of `devrtc.c` share one rule for the lengths of the years,
`yrsize`.  Against each other they are exact; against the Gregorian calendar they are
exact until the rule makes a leap year of 2100.

## Main results

* `rtc2sec_sec2rtc`: the fields of any number of seconds are in range, and give the
  seconds back;
* `gregorian_iff`: they are the Gregorian date exactly before March 1, 2100.
-/

namespace Kirkwood.Ports.RtcCalendar

open Kirkwood.Verified.CInt
open Kirkwood.Verified.Calendar
open Kirkwood.Verified.DayCount
open Kirkwood.Verified.Outcome
open Kirkwood.Ports.DevRtc

/-! ## Range -/

/-- The fields of a time of day, and of a day of a month as `yrsize` has it. -/
structure InRange (rtc : Rtc) : Prop where
  sec : 0 ≤ rtc.sec ∧ rtc.sec < 60
  min : 0 ≤ rtc.min ∧ rtc.min < 60
  hour : 0 ≤ rtc.hour ∧ rtc.hour < 24
  mon : 1 ≤ rtc.mon ∧ rtc.mon ≤ 12
  mday : 1 ≤ rtc.mday ∧ ∃ days, elem (yrsize rtc.year) rtc.mon.toNat = .ok days ∧
    rtc.mday ≤ days

/-- A date of the calendar, with a time of day. -/
theorem inRange_of_isDate {day year mon mday : Nat} (h : IsDate day (1970 + year) mon mday)
    (N : Nat) :
    InRange { sec := (N % 60 : Nat), min := (N / 60 % 60 : Nat),
              hour := (N / 3600 % 24 : Nat), mday := mday, mon := mon,
              year := (1970 + year : Nat) } := by
  have hmon := h.month
  have hin := h.inmonth
  obtain ⟨days, hdays, hstart⟩ := elem_month (y := 1970 + year) (i := mon - 1) (by omega)
  rw [Nat.sub_add_cancel hmon.1] at hdays hstart
  refine ⟨?_, ?_, ?_, ?_, ?_, days, ?_, ?_⟩
  · dsimp only
    omega
  · dsimp only
    omega
  · dsimp only
    omega
  · dsimp only
    omega
  · dsimp only
    omega
  · exact hdays
  · dsimp only
    omega

/-- `rtc2sec` gives back the seconds that `sec2rtc` breaks into fields; both loops end,
and no month behind the twelfth is looked up. -/
theorem rtc2sec_sec2rtc (secs : BitVec 32) :
    ∃ rtc, sec2rtc secs = .ok rtc ∧ InRange rtc ∧ rtc2sec rtc = .ok (secs.toNat : Int) := by
  obtain ⟨year, mon, mday, hset, hdate⟩ := sec2rtc_date secs
  obtain ⟨_, _, _, _, _, hsecs⟩ := date_bounds secs.isLt hdate
  have hday := hdate.inmonth.1
  refine ⟨_, hset, inRange_of_isDate hdate secs.toNat, ?_⟩
  have hsum : 86400 * ((yearStart year : Int) + monthStart (1970 + year) (mon - 1) +
      ((mday : Int) - 1)) + 3600 * (secs.toNat / 3600 % 24 : Nat) +
      60 * (secs.toNat / 60 % 60 : Nat) + (secs.toNat % 60 : Nat) = (secs.toNat : Int) := by
    omega
  rw [rtc2sec_eq year mon hdate.month, hsum, ulong_eq (Int.natCast_nonneg _)]
  exact_mod_cast secs.isLt

/-! ## The Gregorian calendar -/

/-- The fields of the Gregorian date and time of `secs`. -/
def utc (secs : Nat) : Rtc :=
  let t := count gregorian (secs / 86400)
  { sec := (secs % 60 : Nat), min := (secs / 60 % 60 : Nat),
    hour := (secs / 3600 % 24 : Nat), mday := t.day, mon := t.month, year := t.year }

/-- The seconds since January 1, 1970 at the start of March 1, 2100. -/
def March2100 : Nat := 86400 * 47541

/-- The date that `sec2rtc` finds is the count of days by its own leap years. -/
theorem sec2rtc_count (secs : BitVec 32) :
    sec2rtc secs = .ok {
      sec := (secs.toNat % 60 : Nat), min := (secs.toNat / 60 % 60 : Nat),
      hour := (secs.toNat / 3600 % 24 : Nat),
      mday := (count fourth (secs.toNat / 86400)).day,
      mon := (count fourth (secs.toNat / 86400)).month,
      year := (count fourth (secs.toNat / 86400)).year } := by
  obtain ⟨year, mon, mday, hset, hdate⟩ := sec2rtc_date secs
  obtain ⟨hyear, hmon, hday⟩ := hdate.unique (isDate_count (secs.toNat / 86400))
  rw [hset, ← hyear, ← hmon, ← hday]

/-- From March 1, 2100 on the dates are a day behind. -/
theorem ne_utc_of_late {secs : BitVec 32} (h : March2100 ≤ secs.toNat) :
    sec2rtc secs ≠ .ok (utc secs.toNat) := by
  have hmax := secs.isLt
  unfold March2100 at h
  obtain ⟨k, hk⟩ := Nat.exists_eq_add_of_le (show 47541 ≤ secs.toNat / 86400 by omega)
  have hnext := count_gregorian_late k (by omega)
  rw [show 47542 + k = 47541 + k + 1 by omega, count] at hnext
  rw [sec2rtc_count]
  intro heq
  have hfields := (Except.ok.inj heq).symm
  unfold utc at hfields
  rw [hk] at hfields
  apply next_ne fourth (count fourth (47541 + k))
  rw [← hnext]
  exact Date.ext (Int.ofNat.inj (congrArg Rtc.year hfields))
    (Int.ofNat.inj (congrArg Rtc.mon hfields)) (Int.ofNat.inj (congrArg Rtc.mday hfields))

/-- `sec2rtc` yields the Gregorian date exactly before March 1, 2100. -/
theorem gregorian_iff (secs : BitVec 32) :
    sec2rtc secs = .ok (utc secs.toNat) ↔ secs.toNat < March2100 := by
  constructor
  · intro h
    by_contra hlate
    exact ne_utc_of_late (Nat.le_of_not_lt hlate) h
  · intro hearly
    unfold March2100 at hearly
    rw [sec2rtc_count, utc, count_gregorian_early (by omega)]

/-- The first second of that day. -/
theorem march_is_february :
    sec2rtc 4107542400#32 =
      .ok { sec := 0, min := 0, hour := 0, mday := 29, mon := 2, year := 2100 } ∧
    utc 4107542400 = { sec := 0, min := 0, hour := 0, mday := 1, mon := 3, year := 2100 } ∧
    ¬ ∀ secs : BitVec 32, sec2rtc secs = .ok (utc secs.toNat) := by
  refine ⟨?_, ?_, fun h => @ne_utc_of_late 4107542400#32 (by decide) (h _)⟩
  · have hday : (4107542400#32).toNat / 86400 = 47541 := by decide
    rw [sec2rtc_count, hday, count, count_fourth_2100]
    decide
  · have hday : 4107542400 / 86400 = 47541 := by decide
    rw [utc, hday, count_gregorian_2100]
    decide

end Kirkwood.Ports.RtcCalendar
