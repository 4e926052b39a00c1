import Mathlib.Data.Int.GCD
import Kirkwood.Verified.CInt
import Kirkwood.Verified.Calendar
import Kirkwood.Verified.Mask
import Kirkwood.Verified.Outcome

/-!
# The real-time clock

`devrtc.c` sets the clock from a number of seconds since 1970, which `sec2rtc`
breaks into a date and `setrtc` packs as binary-coded digits into two registers;
`rtctime` unpacks the registers and `rtc2sec` counts the seconds again.

The fields are masked on the way back with `BITS(a, b) - 1`, where `BITS(a, b)`
is already a mask: bit 0 of the seconds and of the day of the month is lost.  A
year is packed as its offset from 2000, so that the years before become years
after 2100.

## Main results

* `sec2rtc_date`: `sec2rtc` gives the date of the day and the time within it;
* `rtctime_setrtc`: what the registers give back;
* `clock_reads_iff`: the seconds read are the seconds written exactly when the
  year is 2000 or later and the second and the day of the month are even;
* `billion_reads_a_day_less`: a clock set on an odd day.
-/

namespace Kirkwood.Ports.DevRtc

open Kirkwood.Verified
open Kirkwood.Verified.CInt
open Kirkwood.Verified.Calendar
open Kirkwood.Verified.Outcome

/-! ## The code -/

/-- `Rtc`; no function reads or sets its `wday`. -/
structure Rtc where
  sec : Int
  min : Int
  hour : Int
  mday : Int
  mon : Int
  year : Int
deriving DecidableEq, Repr

/-- `RTCREG->time` and `RTCREG->date`. -/
structure RtcReg where
  time : BitVec 32
  date : BitVec 32
deriving DecidableEq, Repr

/-- `BITS(a, b)` of mem.h. -/
def BITS (a b : Nat) : BitVec 32 := (1 <<< (b + 1)) - (1 <<< a)

def bcd2dec (bcd : BitVec 32) : Int :=
  ((bcd >>> 4) &&& 0x0F).toNat * 10 + (bcd &&& 0x0F).toNat

/-- `dec2bcd`: division and remainder round to zero. -/
def dec2bcd (dec : Int) : BitVec 32 :=
  (BitVec.ofInt 32 (dec.tdiv 10) <<< 4) ||| BitVec.ofInt 32 (dec.tmod 10)

def RTCHourPM : BitVec 32 := 1 <<< 21
def RTCHour12 : BitVec 32 := 1 <<< 22

def SEC2MIN : Int := 60
def SEC2HOUR : Int := 60 * SEC2MIN
def SEC2DAY : Int := 24 * SEC2HOUR

def dmsize : List Int := [365, 31, 28, 31, 30, 31, 30, 31, 31, 30, 31, 30, 31]
def ldmsize : List Int := [366, 31, 29, 31, 30, 31, 30, 31, 31, 30, 31, 30, 31]

/-- `yrsize`. -/
def yrsize (yr : Int) : List Int := if yr.tmod 4 = 0 then ldmsize else dmsize

/-- An element of `d2m`. -/
def elem (d2m : List Int) (i : Nat) : Except Exn Int :=
  match d2m[i]? with
  | some n => .ok n
  | none => .error .fault

/-- The loop of `rtc2sec` over years, with `n` to go. -/
def addyears : Nat → Int → Int → Except Exn Int
  | 0, _, secs => .ok secs
  | n + 1, i, secs => do
    let days ← elem (yrsize i) 0
    addyears n (i + 1) (ulong (secs + days * SEC2DAY))

/-- The loop of `rtc2sec` over months, with `n` to go. -/
def addmonths (d2m : List Int) : Nat → Nat → Int → Except Exn Int
  | 0, _, secs => .ok secs
  | n + 1, i, secs => do
    let days ← elem d2m i
    addmonths d2m n (i + 1) (ulong (secs + days * SEC2DAY))

/-- `rtc2sec`. -/
def rtc2sec (rtc : Rtc) : Except Exn Int := do
  let secs ← addyears (rtc.year - 1970).toNat 1970 0
  let secs ← addmonths (yrsize rtc.year) (rtc.mon - 1).toNat 1 secs
  let secs := ulong (secs + (rtc.mday - 1) * SEC2DAY)
  let secs := ulong (secs + rtc.hour * SEC2HOUR)
  let secs := ulong (secs + rtc.min * SEC2MIN)
  return ulong (secs + rtc.sec)

/-- `for(d = 1970; day >= *yrsize(d); d++)` -/
def yearsup : Nat → Int → Int → Except Exn (Int × Int)
  | 0, _, _ => .error .hang
  | fuel + 1, d, day => do
    let days ← elem (yrsize d) 0
    if day ≥ days then yearsup fuel (d + 1) (day - days) else .ok (d, day)

/-- `for (d = 1970; day < 0; d--)` -/
def yearsdown : Nat → Int → Int → Except Exn (Int × Int)
  | 0, _, _ => .error .hang
  | fuel + 1, d, day =>
    if day < 0 then do
      let days ← elem (yrsize (d - 1)) 0
      yearsdown fuel (d - 1) (day + days)
    else .ok (d, day)

/-- `for(d = 1; day >= d2m[d]; d++)`, on the elements of `d2m` from `d` on. -/
def monthsup : List Int → Int → Int → Except Exn (Int × Int)
  | [], _, _ => .error .fault
  | days :: d2m, d, day =>
    if day ≥ days then monthsup d2m (d + 1) (day - days) else .ok (d, day)

/-- `sec2rtc`, from where the seconds are broken into days. -/
def day2rtc (hms day : Int) : Except Exn Rtc := do
  let d := hms.tdiv 60
  -- a turn of either loop takes more than a day off, so the fuel is enough
  let (year, rest) ← if day ≥ 0 then yearsup (day.natAbs + 1) 1970 day
    else yearsdown (day.natAbs + 1) 1970 day
  let (mon, rest) ← monthsup ((yrsize year).drop 1) 1 rest
  return { sec := hms.tmod 60, min := d.tmod 60, hour := d.tdiv 60,
           mday := rest + 1, mon := mon, year := year }

/-- `sec2rtc`. -/
def sec2rtc (secs : BitVec 32) : Except Exn Rtc :=
  let hms := long ((secs.toNat : Int) % SEC2DAY)
  let day := long ((secs.toNat : Int) / SEC2DAY)
  if hms < 0 then day2rtc (hms + SEC2DAY) (day - 1) else day2rtc hms day

/-- `setrtc`. -/
def setrtc (rtc : Rtc) : RtcReg where
  time := (dec2bcd (rtc.hour.tdiv 10) <<< 20) ||| (dec2bcd (rtc.hour.tmod 10) <<< 16) |||
    (dec2bcd rtc.min <<< 8) ||| (dec2bcd rtc.sec <<< 0)
  date := (dec2bcd (rtc.year - 2000) <<< 16) ||| (dec2bcd rtc.mon <<< 8) |||
    (dec2bcd rtc.mday <<< 0)

/-- The fields that `rtctime` unpacks. -/
def getrtc (r : RtcReg) : Rtc where
  sec := bcd2dec ((r.time >>> 0) &&& (BITS 0 6 - 1))
  min := bcd2dec ((r.time >>> 8) &&& (BITS 8 14 - 1))
  hour :=
    if r.time &&& RTCHour12 ≠ 0 then
      bcd2dec ((r.time >>> 16) &&& (BITS 16 20 - 1)) +
        (if r.time &&& RTCHourPM ≠ 0 then 12 else 0)
    else bcd2dec ((r.time >>> 16) &&& (BITS 16 21 - 1))
  mday := bcd2dec ((r.date >>> 0) &&& (BITS 0 5 - 1))
  mon := bcd2dec ((r.date >>> 8) &&& (BITS 8 12 - 1))
  year := bcd2dec ((r.date >>> 16) &&& (BITS 16 23 - 1)) + 2000

/-- `rtctime`. -/
def rtctime (r : RtcReg) : Except Exn Int := rtc2sec (getrtc r)

def isdigit (c : UInt8) : Bool := 48 ≤ c && c ≤ 57

/-- The value of a digit of `strtoul`; 36 stands for no digit. -/
def digit (c : UInt8) : Nat :=
  if isdigit c then c.toNat - 48
  else if 97 ≤ c ∧ c ≤ 122 then c.toNat - 97 + 10
  else if 65 ≤ c ∧ c ≤ 90 then c.toNat - 65 + 10
  else 36

/-- The digits of base `base` at the start of `s`, as a number. -/
def digits (base : Nat) : List UInt8 → Nat → Nat
  | [], n => n
  | c :: s, n => if digit c < base then digits base s (n * base + digit c) else n

/-- `strtoul(s, 0, 0)`, on a string that does not start with white space or a
sign; too large a number is the largest one. -/
def strtoul (s : List UInt8) : BitVec 32 :=
  let n := match s with
    | 48 :: x :: s => if x = 120 ∨ x = 88 then digits 16 s 0 else digits 8 (x :: s) 0
    | s => digits 10 s 0
  BitVec.ofNat 32 (min n (2 ^ 32 - 1))

def Qrtc : Nat := 1
def Ebadarg : String := "Ebadarg"
def Egreg : String := "Egreg"

/-- The number that `rtcwrite` takes from the first `n` bytes of `buf`: the string
they make, from its first digit on. -/
def writesecs (buf : List UInt8) (n : Int) : BitVec 32 :=
  strtoul (((buf.take n.toNat).takeWhile (· ≠ 0)).dropWhile fun c => !isdigit c)

/-- `rtcwrite`, on a channel with the path: what it returns, and the registers
afterwards.  `sizeof(sbuf)` is 32, and a negative `n` is large beside it. -/
def rtcwrite (path : Nat) (buf : List UInt8) (n off : Int) (r : RtcReg) :
    Except Exn Int × RtcReg :=
  if path ≠ Qrtc then (.error (.error Egreg), r)
  else if ulong off ≠ 0 ∨ ulong n ≥ 32 - 1 then (.error (.error Ebadarg), r)
  else
    match sec2rtc (writesecs buf n) with
    | .ok rtc => (.ok n, setrtc rtc)
    | .error e => (.error e, r)

/-! ## The registers -/

/-- Only the low byte counts. -/
theorem bcd2dec_congr {x y : BitVec 32} (h : x &&& 0xff = y &&& 0xff) :
    bcd2dec x = bcd2dec y := by
  have hhi : ∀ z : BitVec 32, (z >>> 4) &&& (0x0F : BitVec 32) =
      ((z &&& 0xff) >>> 4) &&& (0x0F : BitVec 32) := by
    intro z
    have hmask : (0xff : BitVec 32) >>> 4 = 0x0F := by decide
    rw [BitVec.ushiftRight_and_distrib, hmask, BitVec.and_assoc, BitVec.and_self]
  have hlo : ∀ z : BitVec 32, z &&& 0x0F = (z &&& 0xff) &&& 0x0F := by
    intro z
    have hmask : (0xff : BitVec 32) &&& 0x0F = 0x0F := by decide
    rw [BitVec.and_assoc, hmask]
  rw [bcd2dec, bcd2dec, hhi x, hlo x, hhi y, hlo y, h]

/-- A masked field, read from a word with the field's byte. -/
theorem bcd2dec_masked {x b m : BitVec 32} (h : x &&& 0xff = b &&& 0xff) :
    bcd2dec (x &&& m) = bcd2dec (b &&& m) := by
  apply bcd2dec_congr
  rw [BitVec.and_assoc, BitVec.and_comm m, ← BitVec.and_assoc, h, BitVec.and_assoc,
    BitVec.and_comm 0xff, ← BitVec.and_assoc]

/-- The byte of the hours: tens at bit 4. -/
def hourbyte (hour : Int) : BitVec 32 :=
  dec2bcd (hour.tdiv 10) <<< 4 ||| dec2bcd (hour.tmod 10)

theorem setrtc_time (rtc : Rtc) : (setrtc rtc).time =
    Mask.packed (hourbyte rtc.hour) (dec2bcd rtc.min) (dec2bcd rtc.sec) := by
  rw [setrtc, Mask.packed, hourbyte, BitVec.shiftLeft_or_distrib,
    ← BitVec.shiftLeft_add]

theorem setrtc_date (rtc : Rtc) : (setrtc rtc).date =
    Mask.packed (dec2bcd (rtc.year - 2000)) (dec2bcd rtc.mon) (dec2bcd rtc.mday) :=
  rfl

/-- The fields of a time of day and of a date in a month; the year counts from
1970. -/
structure Fits (sec min hour mday mon year : Nat) : Prop where
  sec : sec < 60
  min : min < 60
  hour : hour < 24
  mday : mday < 32
  mon : mon < 13
  year : year < 137

private theorem bcd_sec : ∀ n : Fin 60, dec2bcd (n.val : Int) >>> 8 = 0#32 ∧
    bcd2dec (dec2bcd (n.val : Int) &&& (BITS 0 6 - 1)) = (n.val : Int) - n.val % 2 := by
  decide +kernel

private theorem bcd_min : ∀ n : Fin 60, dec2bcd (n.val : Int) >>> 8 = 0#32 ∧
    bcd2dec (dec2bcd (n.val : Int) &&& (BITS 8 14 - 1)) = n.val := by
  decide +kernel

private theorem bcd_hour : ∀ n : Fin 24, (hourbyte (n.val : Int)).getLsbD 6 = false ∧
    bcd2dec (hourbyte (n.val : Int) &&& (BITS 16 21 - 1)) = n.val := by
  decide +kernel

private theorem bcd_mday : ∀ n : Fin 32, dec2bcd (n.val : Int) >>> 8 = 0#32 ∧
    bcd2dec (dec2bcd (n.val : Int) &&& (BITS 0 5 - 1)) = (n.val : Int) - n.val % 2 := by
  decide +kernel

private theorem bcd_mon : ∀ n : Fin 13, dec2bcd (n.val : Int) >>> 8 = 0#32 ∧
    bcd2dec (dec2bcd (n.val : Int) &&& (BITS 8 12 - 1)) = n.val := by
  decide +kernel

/-- The year of the 137 that are written, as it is read. -/
def yearread (year : Nat) : Nat :=
  (bcd2dec (dec2bcd ((1970 + year : Nat) - 2000 : Int) &&& (BITS 16 23 - 1))).toNat + 2000

/-- From 2000 on the year comes back, and the years before come back as years
after 2129. -/
private theorem bcd_year : ∀ n : Fin 137,
    bcd2dec (dec2bcd ((1970 + n.val : Nat) - 2000 : Int) &&& (BITS 16 23 - 1)) + 2000 =
      (yearread n.val : Int) ∧
    (30 ≤ n.val → yearread n.val = 1970 + n.val) ∧
    (n.val < 30 → 2130 ≤ yearread n.val ∧ yearread n.val ≤ 2165) := by
  decide +kernel

/-- A year from 2000 on is read as it was written. -/
private theorem yearread_late {year : Nat} (h30 : 30 ≤ year) (h : year < 137) :
    yearread year = 1970 + year :=
  (bcd_year ⟨year, h⟩).2.1 h30

/-- A year before 2000 is read as a later one. -/
private theorem yearread_early {year : Nat} (h : year < 30) :
    2130 ≤ yearread year ∧ yearread year ≤ 2165 :=
  (bcd_year ⟨year, by omega⟩).2.2 h

private theorem hour12_clear {t b : BitVec 32} (h : (t >>> 16) &&& 0xff = b &&& 0xff)
    (hb : b.getLsbD 6 = false) : t &&& RTCHour12 = 0 := by
  have hbit : t.getLsbD 22 = false := by
    have h6 := congrArg (fun x : BitVec 32 => x.getLsbD 6) h
    simp only [BitVec.getLsbD_and, BitVec.getLsbD_ushiftRight, hb, Bool.false_and] at h6
    simpa using h6
  apply BitVec.eq_of_getLsbD_eq
  intro i hi
  rw [BitVec.getLsbD_and]
  have hmask : RTCHour12.getLsbD i = decide (i = 22) := by
    have hall : ∀ i : Fin 32, RTCHour12.getLsbD i = decide (i.val = 22) := by
      decide
    exact hall ⟨i, hi⟩
  rw [hmask]
  by_cases h22 : i = 22
  · rw [h22, hbit]
    rfl
  · simp [h22]

/-- What the registers give back: the second and the day of the month without
their lowest bit, and the year as `yearread`. -/
theorem getrtc_setrtc {sec min hour mday mon year : Nat}
    (h : Fits sec min hour mday mon year) :
    getrtc (setrtc { sec := sec, min := min, hour := hour, mday := mday, mon := mon,
                     year := (1970 + year : Nat) }) =
      { sec := (sec : Int) - sec % 2, min := min, hour := hour,
        mday := (mday : Int) - mday % 2, mon := mon, year := yearread year } := by
  obtain ⟨hsec8, hsec⟩ := bcd_sec ⟨sec, h.sec⟩
  obtain ⟨hmin8, hmin⟩ := bcd_min ⟨min, h.min⟩
  obtain ⟨hhour6, hhour⟩ := bcd_hour ⟨hour, h.hour⟩
  obtain ⟨hmday8, hmday⟩ := bcd_mday ⟨mday, h.mday⟩
  obtain ⟨hmon8, hmon⟩ := bcd_mon ⟨mon, h.mon⟩
  obtain ⟨hyear, _⟩ := bcd_year ⟨year, h.year⟩
  have htop := Mask.packed_byte2 (hourbyte hour) _ _ hmin8 hsec8
  rw [getrtc, setrtc_time, setrtc_date, if_neg (not_not.2 (hour12_clear htop hhour6)),
    bcd2dec_masked (Mask.packed_byte0 _ _ _),
    bcd2dec_masked (Mask.packed_byte1 _ _ _ hsec8),
    bcd2dec_masked htop, bcd2dec_masked (Mask.packed_byte0 _ _ _),
    bcd2dec_masked (Mask.packed_byte1 _ _ _ hmday8),
    bcd2dec_masked (Mask.packed_byte2 _ _ _ hmon8 hmday8), hsec, hmin, hhour, hmday, hmon,
    hyear]

/-! ## From seconds to a date -/

/-- `*yrsize(d)` is the length of the year, the other elements those of its
months. -/
theorem yrsize_eq (y : Nat) :
    yrsize (y : Int) = (yearLength y :: months y).map Nat.cast := by
  have hmod : (y : Int).tmod 4 = (y % 4 : Nat) := rfl
  unfold yrsize yearLength months Leap
  rw [hmod]
  by_cases h : y % 4 = 0
  · simp only [h, if_true]
    rfl
  · have hne : ((y % 4 : Nat) : Int) ≠ 0 := Int.natCast_ne_zero.2 h
    simp only [h, hne, if_false]
    rfl

theorem elem_year (y : Nat) : elem (yrsize (y : Int)) 0 = .ok (yearLength y : Int) := by
  rw [yrsize_eq]
  rfl

private theorem yearLength_pos (y : Nat) : 0 < yearLength y := by
  unfold yearLength
  split
  · decide
  · decide

/-- The loop over years finds the year of a day that is `day` days after the start
of year `1970 + k`. -/
theorem yearsup_ok (fuel k day : Nat) (hfuel : day < fuel) :
    ∃ j rest : Nat,
      yearsup fuel (1970 + k : Nat) day = .ok ((1970 + j : Nat), (rest : Int)) ∧
      yearStart j + rest = yearStart k + day ∧ rest < yearLength (1970 + j) := by
  induction fuel generalizing k day with
  | zero => omega
  | succ fuel ih =>
      rw [yearsup, elem_year, ok_bind]
      by_cases hday : yearLength (1970 + k) ≤ day
      · have hpos := yearLength_pos (1970 + k)
        obtain ⟨j, rest, hj, hsum, hrest⟩ :=
          ih (k + 1) (day - yearLength (1970 + k)) (by omega)
        refine ⟨j, rest, ?_, ?_, hrest⟩
        · have hge : (day : Int) ≥ yearLength (1970 + k) := by omega
          have hsub : (day : Int) - yearLength (1970 + k) =
              (day - yearLength (1970 + k) : Nat) := by omega
          have hnext : ((1970 + k : Nat) : Int) + 1 = (1970 + (k + 1) : Nat) := by omega
          rw [if_pos hge, hsub, hnext]
          exact hj
        · rw [hsum, yearStart]
          omega
      · have hlt : ¬ (day : Int) ≥ yearLength (1970 + k) := by omega
        exact ⟨k, day, if_neg hlt, rfl, by omega⟩

/-- The loop over months finds the one that `day` lies in. -/
theorem monthsup_ok (l : List Nat) (m day : Nat) (h : day < l.sum) :
    ∃ j rest : Nat, monthsup (l.map Nat.cast) m day = .ok ((m + j : Nat), (rest : Int)) ∧
      j < l.length ∧ (l.take j).sum + rest = day ∧ day < (l.take (j + 1)).sum := by
  induction l generalizing m day with
  | nil => simp at h
  | cons days l ih =>
      rw [List.map_cons, monthsup]
      rw [List.sum_cons] at h
      by_cases hday : days ≤ day
      · obtain ⟨j, rest, hj, hlen, hsum, hrest⟩ := ih (m + 1) (day - days) (by omega)
        refine ⟨j + 1, rest, ?_, by rw [List.length_cons]; omega, ?_, ?_⟩
        · have hge : (day : Int) ≥ days := by omega
          have hsub : (day : Int) - days = (day - days : Nat) := by omega
          have hnext : (m : Int) + 1 = (m + 1 : Nat) := by omega
          have hout : m + (j + 1) = m + 1 + j := by omega
          rw [if_pos hge, hsub, hnext, hout]
          exact hj
        · rw [List.take_succ_cons, List.sum_cons]
          omega
        · rw [List.take_succ_cons, List.sum_cons]
          omega
      · have hlt : ¬ (day : Int) ≥ days := by omega
        refine ⟨0, day, if_neg hlt, Nat.succ_pos _, ?_, ?_⟩
        · rw [List.take_zero, List.sum_nil, Nat.zero_add]
        · rw [List.take_succ_cons, List.take_zero, List.sum_cons, List.sum_nil]
          omega

private theorem sec2day : SEC2DAY = 86400 := by
  decide

private theorem long_nat {n : Nat} (h : n < 2 ^ 31) : long (n : Int) = n :=
  long_eq (by omega) (by omega)

/-- Seconds as a day and the time within it. -/
private theorem split_day {N : Nat} (h : N < 2 ^ 32) :
    long ((N : Int) % SEC2DAY) = (N % 86400 : Nat) ∧
      long ((N : Int) / SEC2DAY) = (N / 86400 : Nat) := by
  rw [sec2day]
  constructor
  · have hcast : (N : Int) % 86400 = (N % 86400 : Nat) := by omega
    rw [hcast, long_nat (by omega)]
  · have hcast : (N : Int) / 86400 = (N / 86400 : Nat) := by omega
    rw [hcast, long_nat (by omega)]

/-- The time within a day as hours, minutes and seconds. -/
private theorem split_time (N : Nat) :
    ((N % 86400 : Nat) : Int).tmod 60 = (N % 60 : Nat) ∧
      (((N % 86400 : Nat) : Int).tdiv 60).tmod 60 = (N / 60 % 60 : Nat) ∧
      (((N % 86400 : Nat) : Int).tdiv 60).tdiv 60 = (N / 3600 % 24 : Nat) := by
  have hdiv : ∀ n : Nat, (n : Int).tdiv 60 = (n / 60 : Nat) :=
    fun n => (Int.ofNat_tdiv n 60).symm
  have hmod : ∀ n : Nat, (n : Int).tmod 60 = (n % 60 : Nat) :=
    fun n => (Int.ofNat_tmod n 60).symm
  rw [hdiv, hmod, hmod, hdiv]
  refine ⟨?_, ?_, ?_⟩
  · congr 1
    omega
  · congr 1
    omega
  · congr 1
    omega

/-- What `sec2rtc` makes of a day and a time, from what its two loops find. -/
private theorem day2rtc_eq {hms day : Nat} {year rest mon d : Int}
    (hyears : yearsup (day + 1) 1970 day = .ok (year, rest))
    (hmonths : monthsup ((yrsize year).drop 1) 1 rest = .ok (mon, d)) :
    day2rtc hms day = .ok {
      sec := (hms : Int).tmod 60, min := ((hms : Int).tdiv 60).tmod 60,
      hour := ((hms : Int).tdiv 60).tdiv 60, mday := d + 1, mon := mon,
      year := year } := by
  have hnonneg : (day : Int) ≥ 0 := Int.natCast_nonneg day
  unfold day2rtc
  simp only [hnonneg, if_true, Int.natAbs_natCast, hyears, ok_bind, hmonths]
  rfl

/-- `sec2rtc`, from what its two loops find. -/
private theorem sec2rtc_eq {secs : BitVec 32} {year rest mon d : Int}
    (hyears : yearsup (secs.toNat / 86400 + 1) 1970 (secs.toNat / 86400 : Nat) =
      .ok (year, rest))
    (hmonths : monthsup ((yrsize year).drop 1) 1 rest = .ok (mon, d)) :
    sec2rtc secs = .ok {
      sec := (secs.toNat % 60 : Nat), min := (secs.toNat / 60 % 60 : Nat),
      hour := (secs.toNat / 3600 % 24 : Nat), mday := d + 1, mon := mon,
      year := year } := by
  obtain ⟨hhms, hday⟩ := split_day secs.isLt
  obtain ⟨hsec, hmin, hhour⟩ := split_time secs.toNat
  have hpos : ¬ ((secs.toNat % 86400 : Nat) : Int) < 0 := by omega
  rw [sec2rtc]
  simp only [hhms, hday, hpos, if_false]
  rw [day2rtc_eq hyears hmonths, hsec, hmin, hhour]

/-- The date that `sec2rtc` gives is the date of the day, and the time the time
within it. -/
theorem sec2rtc_date (secs : BitVec 32) : ∃ year mon mday : Nat,
    sec2rtc secs = .ok {
      sec := (secs.toNat % 60 : Nat), min := (secs.toNat / 60 % 60 : Nat),
      hour := (secs.toNat / 3600 % 24 : Nat), mday := mday, mon := mon,
      year := (1970 + year : Nat) } ∧
    IsDate (secs.toNat / 86400) (1970 + year) mon mday := by
  obtain ⟨day, hday⟩ : ∃ day, day = secs.toNat / 86400 := ⟨_, rfl⟩
  obtain ⟨j, rest, hyears, hsum, hrest⟩ := yearsup_ok (day + 1) 0 day (Nat.lt_succ_self _)
  have hmonths : rest < (months (1970 + j)).sum := by
    have htwelve := monthStart_twelve (1970 + j)
    rw [monthStart] at htwelve
    rw [← htwelve] at hrest
    exact hrest
  obtain ⟨i, d, hmons, hi, htake, hnext⟩ := monthsup_ok (months (1970 + j)) 1 rest hmonths
  have hepoch : ((1970 + 0 : Nat) : Int) = 1970 := rfl
  have hjan : ((1 : Nat) : Int) = 1 := rfl
  have hdrop : (yrsize ((1970 + j : Nat) : Int)).drop 1 =
      (months (1970 + j)).map Nat.cast := by
    rw [yrsize_eq]
    rfl
  rw [hepoch, hday] at hyears
  rw [hjan, ← hdrop] at hmons
  refine ⟨j, 1 + i, d + 1, sec2rtc_eq hyears hmons, ?_⟩
  rw [← hday]
  have hstart : monthStart (1970 + j) (1 + i - 1) = ((months (1970 + j)).take i).sum := by
    rw [Nat.add_sub_cancel_left]
    rfl
  have hend : monthStart (1970 + j) (1 + i) = ((months (1970 + j)).take (i + 1)).sum := by
    rw [Nat.add_comm 1 i]
    rfl
  have hyear : 1970 + j - 1970 = j := by omega
  have hlen : (months (1970 + j)).length = 12 := rfl
  have hzero : yearStart 0 = 0 := rfl
  exact {
    epoch := by omega
    year := by
      rw [hyear, yearStart]
      omega
    month := by omega
    inmonth := by
      rw [hstart, hend]
      omega
    day := by
      rw [hyear, hstart]
      omega }

/-! ## From a date to seconds -/

private theorem ulong_add (x y : Int) : ulong (ulong x + y) = ulong (x + y) :=
  Int.emod_add_emod ..

theorem addyears_ok (n k : Nat) (x : Int) :
    addyears n (1970 + k : Nat) (ulong x) =
      .ok (ulong (x + ((yearStart (k + n) : Int) - yearStart k) * SEC2DAY)) := by
  induction n generalizing k x with
  | zero =>
      rw [addyears, Nat.add_zero, Int.sub_self, Int.zero_mul, Int.add_zero]
  | succ n ih =>
      have hnext : ((1970 + k : Nat) : Int) + 1 = (1970 + (k + 1) : Nat) := by omega
      have hsum : ((yearStart (k + (n + 1)) : Int) - yearStart k) =
          yearLength (1970 + k) + ((yearStart (k + 1 + n) : Int) - yearStart (k + 1)) := by
        have hstart : yearStart (k + 1) = yearStart k + yearLength (1970 + k) := rfl
        have hidx : k + (n + 1) = k + 1 + n := by omega
        rw [hidx, hstart]
        omega
      rw [addyears, elem_year, ok_bind, ulong_add, hnext, ih, hsum, Int.add_mul,
        Int.add_assoc]

theorem elem_month {y i : Nat} (hi : i < 12) : ∃ days : Nat,
    elem (yrsize (y : Int)) (i + 1) = .ok (days : Int) ∧
      monthStart y (i + 1) = monthStart y i + days := by
  obtain ⟨days, _, hget, hstart⟩ := monthStart_succ y hi
  refine ⟨days, ?_, hstart⟩
  rw [elem, yrsize_eq, List.getElem?_map, List.getElem?_cons_succ, hget]
  rfl

theorem addmonths_ok (y n i : Nat) (x : Int) (h : i + n ≤ 12) :
    addmonths (yrsize (y : Int)) n (i + 1) (ulong x) =
      .ok (ulong (x + ((monthStart y (i + n) : Int) - monthStart y i) * SEC2DAY)) := by
  induction n generalizing i x with
  | zero =>
      rw [addmonths, Nat.add_zero, Int.sub_self, Int.zero_mul, Int.add_zero]
  | succ n ih =>
      obtain ⟨days, helem, hstart⟩ := elem_month (y := y) (i := i) (by omega)
      have hsum : ((monthStart y (i + (n + 1)) : Int) - monthStart y i) =
          days + ((monthStart y (i + 1 + n) : Int) - monthStart y (i + 1)) := by
        have hidx : i + (n + 1) = i + 1 + n := by omega
        rw [hidx, hstart]
        omega
      rw [addmonths, helem, ok_bind, ulong_add, ih (i + 1) _ (by omega), hsum, Int.add_mul,
        Int.add_assoc]

/-- The seconds of a date in the calendar, and a time. -/
theorem rtc2sec_eq (year mon : Nat) (hmon : 1 ≤ mon ∧ mon ≤ 12)
    (mday hour min sec : Int) :
    rtc2sec { sec := sec, min := min, hour := hour, mday := mday, mon := mon,
              year := (1970 + year : Nat) } =
      .ok (ulong (86400 * ((yearStart year : Int) +
        monthStart (1970 + year) (mon - 1) + (mday - 1)) +
        3600 * hour + 60 * min + sec)) := by
  have hyears : (((1970 + year : Nat) : Int) - 1970).toNat = year := by omega
  have hmonths : ((mon : Int) - 1).toNat = mon - 1 := by omega
  have hstart := addyears_ok year 0 0
  have hepoch : ((1970 + 0 : Nat) : Int) = 1970 := rfl
  have hzero : ulong 0 = 0 := rfl
  have hjan : (yearStart 0 : Int) = 0 := rfl
  rw [hepoch, hzero, hjan, Nat.zero_add, Int.zero_add, Int.sub_zero] at hstart
  have hmonth := addmonths_ok (1970 + year) (mon - 1) 0 ((yearStart year : Int) * SEC2DAY)
    (by omega)
  have hfirst : (monthStart (1970 + year) 0 : Int) = 0 := rfl
  rw [hfirst, Nat.zero_add, Nat.zero_add, Int.sub_zero] at hmonth
  unfold rtc2sec
  simp only [hyears, hmonths, hstart, hmonth, ok_bind, pure, Except.pure]
  simp only [ulong_add]
  congr 2
  unfold SEC2DAY SEC2HOUR SEC2MIN
  omega

/-! ## There and back -/

/-- Seconds 946684800 start the year 2000. -/
def Represented (secs : BitVec 32) : Prop :=
  946684800 ≤ secs.toNat ∧ secs.toNat % 2 = 0 ∧
    ∃ y m d, IsDate (secs.toNat / 86400) y m d ∧ d % 2 = 0

/-- The date of a day that an `ulong` of seconds reaches. -/
theorem date_bounds {N year mon mday : Nat} (hN : N < 2 ^ 32)
    (h : IsDate (N / 86400) (1970 + year) mon mday) :
    year < 137 ∧ (30 ≤ year ↔ 946684800 ≤ N) ∧ mon < 13 ∧ mday < 32 ∧
      monthStart (1970 + year) (mon - 1) ≤ 366 ∧
      N = 86400 * (yearStart year + monthStart (1970 + year) (mon - 1) + (mday - 1)) +
        3600 * (N / 3600 % 24) + 60 * (N / 60 % 60) + N % 60 := by
  have hidx : 1970 + year - 1970 = year := by omega
  have hyear := h.year
  have hday := h.day
  have hmonth := h.month
  have hin := h.inmonth
  rw [hidx] at hyear hday
  rw [yearStart_eq] at hyear
  have hstart := yearStart_eq year
  have hlen := monthStart_le_year (1970 + year) (show mon - 1 ≤ 12 by omega)
  have hmday := h.day_le
  refine ⟨?_, ?_, ?_, ?_, ?_, ?_⟩
  · omega
  · omega
  · omega
  · omega
  · omega
  · omega

/-- What `rtctime` gives for the registers that `setrtc` stores. -/
theorem rtctime_setrtc (secs : BitVec 32) : ∃ rtc year mon mday,
    sec2rtc secs = .ok rtc ∧ IsDate (secs.toNat / 86400) (1970 + year) mon mday ∧
      rtctime (setrtc rtc) = .ok (ulong (86400 * ((yearStart (yearread year - 1970) : Int) +
        monthStart (yearread year) (mon - 1) + ((mday : Int) - mday % 2 - 1)) +
        3600 * (secs.toNat / 3600 % 24 : Nat) + 60 * (secs.toNat / 60 % 60 : Nat) +
        ((secs.toNat % 60 : Nat) - secs.toNat % 2))) := by
  obtain ⟨year, mon, mday, hset, hdate⟩ := sec2rtc_date secs
  obtain ⟨hyear, _, hmon, hmday, _⟩ := date_bounds secs.isLt hdate
  refine ⟨_, year, mon, mday, hset, hdate, ?_⟩
  have hfits : Fits (secs.toNat % 60) (secs.toNat / 60 % 60) (secs.toNat / 3600 % 24)
      mday mon year := {
    sec := Nat.mod_lt _ (by decide)
    min := Nat.mod_lt _ (by decide)
    hour := Nat.mod_lt _ (by decide)
    mday := hmday
    mon := hmon
    year := hyear }
  have hread : 1970 ≤ yearread year := by
    by_cases h : 30 ≤ year
    · rw [yearread_late h hyear]
      exact Nat.le_add_right _ _
    · exact Nat.le_trans (by decide) (yearread_early (Nat.lt_of_not_le h)).1
  obtain ⟨k, hk⟩ := Nat.exists_eq_add_of_le hread
  have hparity : ((secs.toNat % 60 : Nat) : Int) % 2 = (secs.toNat : Int) % 2 := by omega
  rw [rtctime, getrtc_setrtc hfits, hk, rtc2sec_eq k mon hdate.month, hparity,
    Nat.add_sub_cancel_left]

/-- The seconds read from 2000 on: less a day where the day of the month is odd,
and a second where the second is. -/
private theorem late_eq_iff {N A mday t : Nat} (hN : N < 2 ^ 32) (hmday : 1 ≤ mday)
    (hA : 10957 ≤ A) (h : N = 86400 * (A + (mday - 1)) + t + N % 60) :
    ulong (86400 * ((A : Int) + ((mday : Int) - mday % 2 - 1)) + t +
        ((N % 60 : Nat) - N % 2)) = N ↔ N % 2 = 0 ∧ mday % 2 = 0 := by
  obtain ⟨e, he, hparity⟩ : ∃ e : Nat, (mday : Int) % 2 = e ∧ (e = mday % 2 ∧ e < 2) :=
    ⟨mday % 2, by omega⟩
  obtain ⟨f, hf, hodd⟩ : ∃ f : Nat, (N : Int) % 2 = f ∧ (f = N % 2 ∧ f < 2) :=
    ⟨N % 2, by omega⟩
  have hread : 86400 * ((A : Int) + ((mday : Int) - mday % 2 - 1)) + t +
      ((N % 60 : Nat) - N % 2) = N - 86400 * e - f := by
    rw [he, hf]
    omega
  rw [hread, ulong_eq (by omega) (by omega), ← hparity.1, ← hodd.1]
  omega

/-- What a day has of the multiples of 2^32; it is 675 times 2^7 seconds. -/
private theorem days_eq {D f q : Int} (h : 86400 * D - f = 2 ^ 32 * q)
    (hf : f = 0 ∨ f = 1) : 675 * D = 2 ^ 25 * q := by
  rcases hf with rfl | rfl
  · apply Int.eq_of_mul_eq_mul_left (by decide : (128 : Int) ≠ 0)
    rw [← Int.mul_assoc, ← Int.mul_assoc]
    rw [Int.sub_zero] at h
    exact h
  · have hodd : 2 * (43200 * D) - 1 = 2 * (2 ^ 31 * q) := by
      rw [← Int.mul_assoc, ← Int.mul_assoc]
      exact h
    generalize 43200 * D = x at hodd
    generalize 2 ^ 31 * q = y at hodd
    omega

private theorem shift_ne {N D f : Int} (hlo : 0 < D) (hhi : D < 2 ^ 25)
    (hf : f = 0 ∨ f = 1) : (N + 86400 * D - f) % 2 ^ 32 ≠ N := by
  intro h
  have hdiv := Int.emod_add_mul_ediv (N + 86400 * D - f) (2 ^ 32)
  rw [h] at hdiv
  generalize (N + 86400 * D - f) / 2 ^ 32 = q at hdiv
  have hdays : 675 * D = 2 ^ 25 * q := days_eq (by omega) hf
  have hdvd : (2 ^ 25 : Int) ∣ D := by
    apply Int.dvd_of_dvd_mul_right_of_gcd_one (Dvd.intro q hdays.symm)
    decide
  exact absurd (Int.le_of_dvd hlo hdvd) (Int.not_le.2 hhi)

/-- No shift by a whole number of days, fewer than 2^25, gives the same seconds
again. -/
private theorem early_ne {N A B mday t : Nat} (hmday : 1 ≤ mday)
    (hlo : A + 1 < B) (hhi : B < A + 2 ^ 25)
    (h : N = 86400 * (A + (mday - 1)) + t + N % 60) :
    ulong (86400 * ((B : Int) + ((mday : Int) - mday % 2 - 1)) + t +
        ((N % 60 : Nat) - N % 2)) ≠ N := by
  obtain ⟨e, he, hparity⟩ : ∃ e : Nat, (mday : Int) % 2 = e ∧ e < 2 :=
    ⟨mday % 2, by omega⟩
  obtain ⟨f, hf, hodd⟩ : ∃ f : Nat, (N : Int) % 2 = f ∧ f < 2 := ⟨N % 2, by omega⟩
  have hread : 86400 * ((B : Int) + ((mday : Int) - mday % 2 - 1)) + t +
      ((N % 60 : Nat) - N % 2) = N + 86400 * ((B : Int) - A - e) - f := by
    rw [he, hf]
    omega
  rw [hread]
  exact shift_ne (by omega) (by omega) (by omega)

/-- The seconds that `rtctime` reads are those that `sec2rtc` and `setrtc` wrote
exactly when these can be represented; and a write that `rtcwrite` accepts, with
the number it parses, is such a write. -/
theorem clock_reads_iff (secs : BitVec 32) :
    (∃ rtc, sec2rtc secs = .ok rtc ∧
      (rtctime (setrtc rtc) = .ok (secs.toNat : Int) ↔ Represented secs)) ∧
    ∀ path buf n off r k r', rtcwrite path buf n off r = (.ok k, r') →
      writesecs buf n = secs →
      (rtctime r' = .ok (secs.toNat : Int) ↔ Represented secs) := by
  have hall : ∃ rtc, sec2rtc secs = .ok rtc ∧
      (rtctime (setrtc rtc) = .ok (secs.toNat : Int) ↔ Represented secs) := by
    obtain ⟨rtc, year, mon, mday, hset, hdate, hread⟩ := rtctime_setrtc secs
    obtain ⟨hyear, hmillennium, hmon, _, hmonth, hsecs⟩ := date_bounds secs.isLt hdate
    refine ⟨rtc, hset, ?_⟩
    rw [hread, Except.ok.injEq]
    by_cases h30 : 30 ≤ year
    · rw [yearread_late h30 hyear, Nat.add_sub_cancel_left]
      have hA : 10957 ≤ yearStart year + monthStart (1970 + year) (mon - 1) := by
        have hstart := yearStart_le h30
        exact Nat.le_add_right_of_le hstart
      have hiff := late_eq_iff secs.isLt hdate.inmonth.1 hA
        (t := 3600 * (secs.toNat / 3600 % 24) + 60 * (secs.toNat / 60 % 60)) (by omega)
      rw [Int.natCast_add, Int.natCast_add, Int.natCast_mul, Int.natCast_mul,
        ← Int.add_assoc] at hiff
      refine hiff.trans ⟨fun h => ⟨hmillennium.1 h30, h.1, _, _, _, hdate, h.2⟩, ?_⟩
      rintro ⟨_, heven, y, m, d, hdate', hd⟩
      rw [(hdate.unique hdate').2.2]
      exact ⟨heven, hd⟩
    · obtain ⟨hfrom, hto⟩ := yearread_early (Nat.lt_of_not_le h30)
      obtain ⟨k, hk⟩ : ∃ k, yearread year = 1970 + k ∧ 160 ≤ k ∧ k ≤ 195 :=
        ⟨yearread year - 1970, by omega⟩
      rw [hk.1, Nat.add_sub_cancel_left]
      have hstart := yearStart_eq year
      have hstart' := yearStart_eq k
      have hmonth' := monthStart_le_year (1970 + k) (show mon - 1 ≤ 12 by omega)
      have hlo : yearStart year + monthStart (1970 + year) (mon - 1) + 1 <
          yearStart k + monthStart (1970 + k) (mon - 1) := by
        omega
      have hhi : yearStart k + monthStart (1970 + k) (mon - 1) <
          yearStart year + monthStart (1970 + year) (mon - 1) + 2 ^ 25 := by
        omega
      have hne := early_ne (N := secs.toNat) hdate.inmonth.1 hlo hhi
        (t := 3600 * (secs.toNat / 3600 % 24) + 60 * (secs.toNat / 60 % 60)) (by omega)
      rw [Int.natCast_add, Int.natCast_add, Int.natCast_mul, Int.natCast_mul,
        ← Int.add_assoc] at hne
      refine iff_of_false hne fun h => h30 (hmillennium.2 h.1)
  refine ⟨hall, ?_⟩
  rintro path buf n off r k r' h rfl
  obtain ⟨rtc, hset, hread⟩ := hall
  unfold rtcwrite at h
  split at h
  · cases h
  · split at h
    · cases h
    · rw [hset] at h
      cases h
      exact hread

/-- The digits of 1000000000, a second of September 9, 2001. -/
def billion : List UInt8 := [49, 48, 48, 48, 48, 48, 48, 48, 48, 48]

/-- The clock is set to it and reads September 8. -/
theorem billion_reads_a_day_less :
    (rtcwrite Qrtc billion 10 0 ⟨0, 0⟩).1.toOption = some 10 ∧
      writesecs billion 10 = 1000000000 ∧
      (rtctime (rtcwrite Qrtc billion 10 0 ⟨0, 0⟩).2).toOption =
        some (1000000000 - 86400) ∧
      ¬ (rtctime (rtcwrite Qrtc billion 10 0 ⟨0, 0⟩).2 =
        .ok ((writesecs billion 10).toNat : Int)) := by
  have hread : (rtctime (rtcwrite Qrtc billion 10 0 ⟨0, 0⟩).2).toOption =
      some (1000000000 - 86400) := by
    decide +kernel
  refine ⟨by decide +kernel, by decide +kernel, hread, fun h => ?_⟩
  rw [h] at hread
  exact absurd hread (by decide +kernel)

end Kirkwood.Ports.DevRtc
