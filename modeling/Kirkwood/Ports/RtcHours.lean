import Kirkwood.Ports.RtcCalendar

/-!
# The clock in 12-hour form

The hour register of the clock counts to 12 or to 24, by its bit 22; in the first form
bit 21 says whether it is afternoon.  `rtctime` means to cut these bits off with
`BITS(16, 20) - 1`, which keeps every bit that the digits have, and adds 12 to all
afternoon hours.

## Main results

* `rtctime_holds`: what `rtctime` gives for registers that hold a time;
* `hours_disagree`: the two forms of a time are never read as the same time.
-/

namespace Kirkwood.Ports.RtcHours

open Kirkwood.Verified
open Kirkwood.Verified.CInt
open Kirkwood.Verified.Calendar
open Kirkwood.Verified.DayCount
open Kirkwood.Verified.Outcome
open Kirkwood.Ports.DevRtc

/-! ## Registers that hold a time -/

/-- A second of the years 2000 to 2099: a day, by its number, and a time of day. -/
structure Moment where
  day : Nat
  hour : Nat
  min : Nat
  sec : Nat
  century : 10957 ≤ day ∧ day < 47482
  hour_lt : hour < 24
  min_lt : min < 60
  sec_lt : sec < 60

def Moment.date (t : Moment) : Date := count gregorian t.day

/-- The seconds since January 1, 1970. -/
def Moment.seconds (t : Moment) : Int :=
  86400 * t.day + 3600 * t.hour + 60 * t.min + t.sec

/-- A number below 100 in binary-coded digits. -/
def bcd (n : Nat) : BitVec 32 := BitVec.ofNat 32 (n / 10 * 16 + n % 10)

/-- The byte of the hours, in 24-hour form. -/
def hour24 (hour : Nat) : BitVec 32 := bcd hour

/-- The byte of the hours, in 12-hour form: noon and midnight are 12. -/
def hour12 (hour : Nat) : BitVec 32 :=
  bcd (if hour % 12 = 0 then 12 else hour % 12) ||| (if 12 ≤ hour then 1 <<< 5 else 0) |||
    1 <<< 6

/-- The registers hold a time, with `hour` in the byte of the hours.  The byte behind
them has the day of the week. -/
structure Holds (r : RtcReg) (t : Moment) (hour : BitVec 32) : Prop where
  sec : (r.time >>> 0) &&& 0xff = bcd t.sec
  min : (r.time >>> 8) &&& 0xff = bcd t.min
  hour : (r.time >>> 16) &&& 0xff = hour
  mday : (r.date >>> 0) &&& 0xff = bcd t.date.day
  mon : (r.date >>> 8) &&& 0xff = bcd t.date.month
  year : (r.date >>> 16) &&& 0xff = bcd (t.date.year - 2000)

/-- The registers of a time in its two forms are read as that time. -/
def SameTime (t : Moment) (r12 r24 : RtcReg) : Prop :=
  rtctime r12 = .ok t.seconds ∧ rtctime r24 = .ok t.seconds

/-! ## What is read -/

/-- The hour that `rtctime` makes of the byte of the hours. -/
def hourread (b : BitVec 32) : Int :=
  if b.getLsbD 6 then
    bcd2dec (b &&& (BITS 16 20 - 1)) + (if b.getLsbD 5 then 12 else 0)
  else bcd2dec (b &&& (BITS 16 21 - 1))

private theorem sec_read : ∀ n : Fin 60,
    bcd2dec (bcd n &&& (BITS 0 6 - 1)) = (n.val : Int) - n.val % 2 := by
  decide +kernel

private theorem min_read : ∀ n : Fin 60, bcd2dec (bcd n &&& (BITS 8 14 - 1)) = n.val := by
  decide +kernel

private theorem mday_read : ∀ n : Fin 32,
    bcd2dec (bcd n &&& (BITS 0 5 - 1)) = (n.val : Int) - n.val % 2 := by
  decide +kernel

private theorem mon_read : ∀ n : Fin 13, bcd2dec (bcd n &&& (BITS 8 12 - 1)) = n.val := by
  decide +kernel

private theorem year_read : ∀ n : Fin 100,
    bcd2dec (bcd n &&& (BITS 16 23 - 1)) = n.val := by
  decide +kernel

private theorem hour24_read : ∀ n : Fin 24, hourread (hour24 n) = n.val := by
  decide +kernel

/-- The 12-hour bit stays in the tens, and so does the afternoon bit. -/
private theorem hour12_read : ∀ n : Fin 24,
    hourread (hour12 n) = n.val + (if n.val % 12 = 0 then 52 else 40) +
      (if 12 ≤ n.val then 20 else 0) := by
  decide +kernel

private theorem bcd_low (n : Nat) (hn : n < 100) : bcd n &&& 0xff = bcd n := by
  have hall : ∀ n : Fin 100, bcd n &&& 0xff = bcd n := by decide +kernel
  exact hall ⟨n, hn⟩

/-- A flag of the time register, as a bit of the byte of the hours. -/
private theorem flag_iff {t b : BitVec 32} (h : (t >>> 16) &&& 0xff = b) {i : Nat}
    (hi : i < 8) : t &&& BitVec.twoPow 32 (16 + i) ≠ 0 ↔ b.getLsbD i = true := by
  have hbit : b.getLsbD i = t.getLsbD (16 + i) := by
    have hmask : (0xff : BitVec 32).getLsbD i = true := by
      have hall : ∀ i : Fin 8, (0xff : BitVec 32).getLsbD i.val = true := by decide
      exact hall ⟨i, hi⟩
    rw [← h, BitVec.getLsbD_and, BitVec.getLsbD_ushiftRight, hmask, Bool.and_true]
  have hne : BitVec.twoPow 32 (16 + i) ≠ 0 := by
    intro hzero
    have hself := BitVec.getLsbD_twoPow (w := 32) (16 + i) (16 + i)
    rw [hzero] at hself
    simp at hself
    omega
  rw [hbit, BitVec.and_twoPow]
  by_cases hset : t.getLsbD (16 + i) = true
  · rw [if_pos hset]
    exact iff_of_true hne hset
  · rw [if_neg hset]
    exact iff_of_false (not_not.2 rfl) hset

theorem hour_eq {r : RtcReg} {b : BitVec 32} (h : (r.time >>> 16) &&& 0xff = b)
    (hb : b &&& 0xff = b) : (getrtc r).hour = hourread b := by
  have hlow : (r.time >>> 16) &&& 0xff = b &&& 0xff := h.trans hb.symm
  have h12 : r.time &&& RTCHour12 ≠ 0 ↔ b.getLsbD 6 = true :=
    flag_iff h (show 6 < 8 by decide)
  have hpm : r.time &&& RTCHourPM ≠ 0 ↔ b.getLsbD 5 = true :=
    flag_iff h (show 5 < 8 by decide)
  unfold hourread
  simp only [getrtc, h12, hpm, bcd2dec_masked hlow]

/-- A day of the century has a date with a year from 2000 to 2099. -/
theorem date_range (t : Moment) : ∃ k mon mday, t.date = ⟨1970 + k, mon, mday⟩ ∧
    IsDate t.day (1970 + k) mon mday ∧ 30 ≤ k ∧ k < 130 := by
  obtain ⟨hfrom, hto⟩ := t.century
  have hdate := isDate_count t.day
  have hfourth : t.date = count fourth t.day := count_gregorian_early (by omega)
  have hyear := hdate.year
  have hday := hdate.day
  have hin := hdate.inmonth
  have hlen := monthStart_le_year (count fourth t.day).year hdate.month.2
  rw [yearStart_eq] at hyear
  rw [yearStart_eq] at hday
  obtain ⟨k, hk⟩ := Nat.exists_eq_add_of_le hdate.epoch
  refine ⟨k, (count fourth t.day).month, (count fourth t.day).day, ?_, ?_, ?_, ?_⟩
  · rw [hfourth, ← hk]
  · rw [← hk]
    exact hdate
  · omega
  · omega

/-- What `rtctime` gives: the second and the day of the month without their lowest bit. -/
theorem rtctime_holds {r : RtcReg} {t : Moment} {b : BitVec 32} (h : Holds r t b)
    (hb : b &&& 0xff = b) :
    rtctime r = .ok (ulong (86400 * ((t.day : Int) - t.date.day % 2) + 3600 * hourread b +
      60 * t.min + ((t.sec : Int) - t.sec % 2))) := by
  obtain ⟨k, mon, mday, hdate, hisdate, hlo, hhi⟩ := date_range t
  have hmon := hisdate.month
  have hmday := hisdate.day_le
  have hday := hisdate.day
  have hfirst := hisdate.inmonth.1
  have hlow {x : BitVec 32} {n : Nat} (hx : x &&& 0xff = bcd n) (hn : n < 100) :
      x &&& 0xff = bcd n &&& 0xff := hx.trans (bcd_low n hn).symm
  have hyear : t.date.year = 1970 + k := by rw [hdate]
  have hmonth : t.date.month = mon := by rw [hdate]
  have hdom : t.date.day = mday := by rw [hdate]
  have hyear100 : t.date.year - 2000 < 100 := by omega
  have hmon13 : t.date.month < 13 := by omega
  have hdom32 : t.date.day < 32 := by omega
  have hback : ((t.date.year - 2000 : Nat) : Int) + 2000 = (1970 + k : Nat) := by omega
  have hget : getrtc r = ⟨(t.sec : Int) - t.sec % 2, t.min, hourread b,
      (t.date.day : Int) - t.date.day % 2, t.date.month, (1970 + k : Nat)⟩ := by
    have hsec := sec_read ⟨t.sec, t.sec_lt⟩
    have hmin := min_read ⟨t.min, t.min_lt⟩
    have hmday := mday_read ⟨t.date.day, hdom32⟩
    have hmon := mon_read ⟨t.date.month, hmon13⟩
    have hyr := year_read ⟨t.date.year - 2000, hyear100⟩
    rw [← bcd2dec_masked (hlow h.sec (Nat.lt_trans t.sec_lt (by decide)))] at hsec
    rw [← bcd2dec_masked (hlow h.min (Nat.lt_trans t.min_lt (by decide)))] at hmin
    rw [← bcd2dec_masked (hlow h.mday (Nat.lt_trans hdom32 (by decide)))] at hmday
    rw [← bcd2dec_masked (hlow h.mon (Nat.lt_trans hmon13 (by decide)))] at hmon
    rw [← bcd2dec_masked (hlow h.year hyear100)] at hyr
    have hhour := hour_eq h.hour hb
    unfold getrtc at hhour ⊢
    rw [hsec, hmin, hmday, hmon, hyr, hback, ← hhour]
  rw [rtctime, hget, hdate, rtc2sec_eq k mon hisdate.month]
  rw [Nat.add_sub_cancel_left] at hday
  have hsum : (yearStart k : Int) + monthStart (1970 + k) (mon - 1) +
      ((mday : Int) - mday % 2 - 1) = t.day - mday % 2 := by
    omega
  rw [hsum]

/-- The 12-hour form is read 40 to 72 hours after the 24-hour form. -/
theorem rtctime_apart {t : Moment} {r12 r24 : RtcReg} (h12 : Holds r12 t (hour12 t.hour))
    (h24 : Holds r24 t (hour24 t.hour)) : rtctime r12 ≠ rtctime r24 := by
  have hlow : ∀ n : Fin 24, hour12 n &&& 0xff = hour12 n ∧
    hour24 n &&& 0xff = hour24 n := by
    decide +kernel
  have hread := hour12_read ⟨t.hour, t.hour_lt⟩
  have hread' := hour24_read ⟨t.hour, t.hour_lt⟩
  rw [rtctime_holds h12 (hlow ⟨t.hour, t.hour_lt⟩).1, hread,
    rtctime_holds h24 (hlow ⟨t.hour, t.hour_lt⟩).2, hread']
  intro hsame
  replace hsame := Except.ok.inj hsame
  unfold ulong at hsame
  dsimp only at hsame
  split at hsame
  · split at hsame
    · omega
    · omega
  · split at hsame
    · omega
    · omega

/-- No time of the century is read as the same time in its two forms. -/
theorem hours_disagree {t : Moment} {r12 r24 : RtcReg} (h12 : Holds r12 t (hour12 t.hour))
    (h24 : Holds r24 t (hour24 t.hour)) : ¬ SameTime t r12 r24 :=
  fun h => rtctime_apart h12 h24 (h.1.trans h.2.symm)

/-! ## Midnight -/

/-- The start of January 2, 2000. -/
def midnight : Moment where
  day := 10958
  hour := 0
  min := 0
  sec := 0
  century := by decide
  hour_lt := by decide
  min_lt := by decide
  sec_lt := by decide

/-- It is 12 am. -/
def midnight12 : RtcReg := ⟨0x520000, 0x000102⟩

def midnight24 : RtcReg := ⟨0x000000, 0x000102⟩

theorem midnight_date : midnight.date = ⟨2000, 1, 2⟩ := by
  have hcount : count gregorian 10958 = count fourth 10958 :=
    count_gregorian_early (by decide)
  rw [Moment.date, midnight, hcount]
  apply count_eq_of_isDate
  have hstart := yearStart_eq 30
  have hnext := yearStart_eq 31
  refine ⟨by decide, ?_, by decide, by decide, ?_⟩
  · rw [show 2000 - 1970 + 1 = 31 from rfl, hnext]
    decide
  · rw [show 2000 - 1970 = 30 from rfl, hstart]
    rfl

theorem midnight12_holds : Holds midnight12 midnight (hour12 midnight.hour) where
  sec := by decide
  min := by decide
  hour := by decide
  mday := by rw [midnight_date]; decide
  mon := by rw [midnight_date]; decide
  year := by rw [midnight_date]; decide

theorem midnight24_holds : Holds midnight24 midnight (hour24 midnight.hour) where
  sec := by decide
  min := by decide
  hour := by decide
  mday := by rw [midnight_date]; decide
  mon := by rw [midnight_date]; decide
  year := by rw [midnight_date]; decide

theorem midnight_disagrees : ¬ SameTime midnight midnight12 midnight24 :=
  hours_disagree midnight12_holds midnight24_holds

/-- In 12-hour form midnight is read 52 hours late. -/
theorem midnight_late :
    (rtctime midnight24).toOption = some midnight.seconds ∧
      (rtctime midnight12).toOption = some (midnight.seconds + 52 * 3600) ∧
      ¬ ∀ t r12 r24, Holds r12 t (hour12 t.hour) → Holds r24 t (hour24 t.hour) →
        SameTime t r12 r24 := by
  refine ⟨by decide +kernel, by decide +kernel, fun h => ?_⟩
  have hsame := h midnight midnight12 midnight24 midnight12_holds midnight24_holds
  exact rtctime_apart midnight12_holds midnight24_holds (hsame.1.trans hsame.2.symm)

end Kirkwood.Ports.RtcHours
