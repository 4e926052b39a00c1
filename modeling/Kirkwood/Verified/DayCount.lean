import Kirkwood.Verified.Calendar

/-!
# Dates by counting days

A calendar is a rule for leap years.  From January 1, 1970 each day is the day after
the one before; the date of day `n` is what `n` days of counting give.

## Main results

* `isDate_count`: with a leap day every fourth year, counting gives the date that the
  sums of `Calendar` give;
* `count_gregorian_early`, `count_gregorian_late`: the Gregorian calendar agrees with
  it up to February 28, 2100, and is a day ahead for the next century.
-/

namespace Kirkwood.Verified.DayCount

open Kirkwood.Verified.Calendar

@[ext] structure Date where
  year : Nat
  month : Nat
  day : Nat
deriving DecidableEq, Repr

/-- The leap years of the calendar of `Calendar`. -/
def fourth (y : Nat) : Bool := y % 4 = 0

/-- The Gregorian leap years. -/
def gregorian (y : Nat) : Bool := y % 4 = 0 ∧ (y % 100 ≠ 0 ∨ y % 400 = 0)

def daysIn (leap : Nat → Bool) (y : Nat) : Nat → Nat
  | 2 => if leap y then 29 else 28
  | 4 | 6 | 9 | 11 => 30
  | _ => 31

/-- The day after. -/
def Date.next (leap : Nat → Bool) (t : Date) : Date :=
  if t.day < daysIn leap t.year t.month then { t with day := t.day + 1 }
  else if t.month < 12 then ⟨t.year, t.month + 1, 1⟩
  else ⟨t.year + 1, 1, 1⟩

/-- The date of day `n`, January 1, 1970 being day 0. -/
def count (leap : Nat → Bool) : Nat → Date
  | 0 => ⟨1970, 1, 1⟩
  | n + 1 => (count leap n).next leap

theorem daysIn_ge (leap : Nat → Bool) (y m : Nat) : 28 ≤ daysIn leap y m := by
  unfold daysIn
  split
  · split
    · decide
    · decide
  · decide
  · decide
  · decide
  · decide
  · decide

/-! ## Counting and sums -/

theorem months_getElem? (y : Nat) : ∀ {i : Nat}, i < 12 →
    (months y)[i]? = some (daysIn fourth y (i + 1))
  | 0, _ | 2, _ | 3, _ | 4, _ | 5, _ | 6, _ | 7, _ | 8, _ | 9, _ | 10, _ | 11, _ => rfl
  | 1, _ => by
      by_cases h : y % 4 = 0
      · simp [months, daysIn, fourth, Leap, h]
      · simp [months, daysIn, fourth, Leap, h]
  | _ + 12, h => absurd h (by omega)

theorem monthStart_daysIn (y : Nat) {m : Nat} (hm : 1 ≤ m ∧ m ≤ 12) :
    monthStart y m = monthStart y (m - 1) + daysIn fourth y m := by
  have hlt : m - 1 < 12 := by omega
  obtain ⟨days, -, hdays, hstart⟩ := monthStart_succ y hlt
  rw [months_getElem? y hlt, Nat.sub_add_cancel hm.1] at hdays
  rw [Nat.sub_add_cancel hm.1] at hstart
  rw [hstart, Option.some.inj hdays]

/-- The next day of the same month. -/
theorem IsDate.next_day {n y m d : Nat} (h : IsDate n y m d)
    (hlast : d < daysIn fourth y m) : IsDate (n + 1) y m (d + 1) := by
  have hin := h.inmonth
  have hday := h.day
  have hstart := monthStart_daysIn y h.month
  have hyear : monthStart y m ≤ yearLength y := by
    rw [← monthStart_twelve]
    exact monthStart_le y h.month.2
  have hnext : yearStart (y - 1970 + 1) = yearStart (y - 1970) + yearLength y := by
    rw [yearStart, Nat.add_sub_cancel' h.epoch]
  refine ⟨h.epoch, ?_, h.month, ⟨?_, ?_⟩, ?_⟩
  · omega
  · omega
  · omega
  · omega

/-- The first day of the next month. -/
theorem IsDate.next_month {n y m d : Nat} (h : IsDate n y m d)
    (hlast : daysIn fourth y m ≤ d) (hm : m < 12) : IsDate (n + 1) y (m + 1) 1 := by
  have hin := h.inmonth
  have hday := h.day
  have hstart := monthStart_daysIn y h.month
  have hafter := monthStart_daysIn y (m := m + 1) ⟨by omega, hm⟩
  have hyear : monthStart y (m + 1) ≤ yearLength y := by
    rw [← monthStart_twelve]
    exact monthStart_le y hm
  have hnext : yearStart (y - 1970 + 1) = yearStart (y - 1970) + yearLength y := by
    rw [yearStart, Nat.add_sub_cancel' h.epoch]
  have hpos : 28 ≤ daysIn fourth y (m + 1) := daysIn_ge fourth y (m + 1)
  rw [Nat.add_sub_cancel] at hafter
  refine ⟨h.epoch, ?_, ⟨by omega, hm⟩, ⟨?_, ?_⟩, ?_⟩
  · omega
  · omega
  · rw [Nat.add_sub_cancel]
    omega
  · rw [Nat.add_sub_cancel]
    omega

/-- The first day of the next year. -/
theorem IsDate.next_year {n y d : Nat} (h : IsDate n y 12 d)
    (hlast : daysIn fourth y 12 ≤ d) : IsDate (n + 1) (y + 1) 1 1 := by
  have hin := h.inmonth
  have hday := h.day
  have hstart := monthStart_daysIn y h.month
  rw [monthStart_twelve] at hstart hin
  have hepoch := h.epoch
  have hnext : yearStart (y - 1970 + 1) = yearStart (y - 1970) + yearLength y := by
    rw [yearStart, Nat.add_sub_cancel' h.epoch]
  have hidx : y + 1 - 1970 = y - 1970 + 1 := by omega
  have hlen : 365 ≤ yearLength (y + 1) := by
    unfold yearLength
    split
    · omega
    · omega
  have hafter : yearStart (y - 1970 + 1 + 1) =
      yearStart (y - 1970 + 1) + yearLength (y + 1) := by
    rw [yearStart, show 1970 + (y - 1970 + 1) = y + 1 by omega]
  have hjan : monthStart (y + 1) 1 = 31 := rfl
  have hfirst : monthStart (y + 1) (1 - 1) = 0 := rfl
  refine ⟨by omega, ?_, by decide, ⟨Nat.le_refl 1, ?_⟩, ?_⟩
  · rw [hidx, hafter]
    omega
  · rw [hjan, hfirst]
    decide
  · rw [hidx, hfirst]
    omega

theorem IsDate.next {n : Nat} {t : Date} (h : IsDate n t.year t.month t.day) :
    IsDate (n + 1) (t.next fourth).year (t.next fourth).month (t.next fourth).day := by
  unfold Date.next
  by_cases hlast : t.day < daysIn fourth t.year t.month
  · rw [if_pos hlast]
    exact IsDate.next_day h hlast
  · rw [if_neg hlast]
    by_cases hm : t.month < 12
    · rw [if_pos hm]
      exact IsDate.next_month h (Nat.le_of_not_lt hlast) hm
    · rw [if_neg hm]
      have hdec : t.month = 12 := Nat.le_antisymm h.month.2 (Nat.le_of_not_lt hm)
      rw [hdec] at h hlast
      exact IsDate.next_year h (Nat.le_of_not_lt hlast)

/-- Counting gives the date of the sums. -/
theorem isDate_count (n : Nat) :
    IsDate n (count fourth n).year (count fourth n).month (count fourth n).day := by
  induction n with
  | zero =>
      exact ⟨by decide, by decide, by decide, by decide, by decide⟩
  | succ n ih => exact IsDate.next ih

theorem count_eq_of_isDate {n y m d : Nat} (h : IsDate n y m d) :
    count fourth n = ⟨y, m, d⟩ := by
  obtain ⟨hyear, hmonth, hday⟩ := (isDate_count n).unique h
  exact Date.ext hyear hmonth hday

/-! ## The Gregorian calendar -/

theorem next_ne (leap : Nat → Bool) (t : Date) : t.next leap ≠ t := by
  intro h
  unfold Date.next at h
  by_cases hlast : t.day < daysIn leap t.year t.month
  · rw [if_pos hlast] at h
    exact absurd (congrArg Date.day h) (Nat.succ_ne_self t.day)
  · rw [if_neg hlast] at h
    by_cases hm : t.month < 12
    · rw [if_pos hm] at h
      exact absurd (congrArg Date.month h) (Nat.succ_ne_self t.month)
    · rw [if_neg hm] at h
      exact absurd (congrArg Date.year h) (Nat.succ_ne_self t.year)

/-- Day 47540 is February 28, 2100. -/
theorem count_fourth_2100 : count fourth 47540 = ⟨2100, 2, 28⟩ := by
  have hdate : IsDate 47540 2100 2 28 := by
    have hstart := yearStart_eq 130
    have hnext := yearStart_eq 131
    have hjan : monthStart 2100 (2 - 1) = 31 := rfl
    have hfeb : monthStart 2100 2 = 60 := rfl
    refine ⟨by omega, ?_, by omega, ⟨by omega, ?_⟩, ?_⟩
    · rw [show 2100 - 1970 + 1 = 131 from rfl, hnext]
      omega
    · rw [hjan, hfeb]
      omega
    · rw [show 2100 - 1970 = 130 from rfl, hstart, hjan]
  exact count_eq_of_isDate hdate

/-- The calendars part on a February 28 of three centuries in four. -/
theorem next_gregorian {t : Date}
    (h : t.month = 2 → 28 ≤ t.day → t.year % 100 ≠ 0 ∨ t.year % 400 = 0) :
    t.next gregorian = t.next fourth := by
  by_cases hearly : t.day < 28
  · have hlen := daysIn_ge gregorian t.year t.month
    have hlen' := daysIn_ge fourth t.year t.month
    rw [Date.next, Date.next, if_pos (by omega), if_pos (by omega)]
  · have hsame : daysIn gregorian t.year t.month = daysIn fourth t.year t.month := by
      unfold daysIn
      split
      · next hfeb =>
          have hleap : gregorian t.year = fourth t.year := by
            simp [gregorian, fourth, h hfeb (Nat.le_of_not_lt hearly)]
          rw [hleap]
      all_goals rfl
    rw [Date.next, Date.next, hsame]

/-- A day of the years from 1970 on, by its year, with day 47482 the first of 2100. -/
private theorem year_bounds {n y m d : Nat} (h : IsDate n y m d) :
    (y < 2100 ↔ n < 47482) ∧ (y < 2200 ↔ n < 84007) ∧
      (y = 2100 → m = 2 → n + 1 = 47482 + 31 + d ∧ 1 ≤ d ∧ d ≤ 29) := by
  have hepoch := h.epoch
  have hyear := h.year
  have hin := h.inmonth
  have hday := h.day
  rw [yearStart_eq] at hyear
  rw [yearStart_eq] at hday
  refine ⟨by omega, by omega, ?_⟩
  rintro rfl rfl
  have hjan : monthStart 2100 (2 - 1) = 31 := rfl
  have hfeb : monthStart 2100 2 = 60 := rfl
  rw [hjan] at hin hday
  rw [hfeb] at hin
  omega

/-- Up to February 28, 2100, the calendars agree. -/
theorem count_gregorian_early {n : Nat} (hn : n ≤ 47540) :
    count gregorian n = count fourth n := by
  induction n with
  | zero => rfl
  | succ n ih =>
      rw [count, count, ih (Nat.le_of_succ_le hn)]
      apply next_gregorian
      obtain ⟨hcentury, hnext, hfeb⟩ := year_bounds (isDate_count n)
      have hepoch := (isDate_count n).epoch
      intro hmonth hday
      by_cases h2100 : (count fourth n).year = 2100
      · have := hfeb h2100 hmonth
        omega
      · omega

/-- The day after is March 1 in one and February 29 in the other. -/
theorem count_gregorian_2100 : count gregorian 47541 = ⟨2100, 3, 1⟩ := by
  rw [count, count_gregorian_early (Nat.le_refl _), count_fourth_2100]
  decide

/-- For the next century one is a day ahead of the other. -/
theorem count_gregorian_late (k : Nat) (hk : 47542 + k < 84007) :
    count gregorian (47541 + k) = count fourth (47542 + k) := by
  induction k with
  | zero =>
      rw [Nat.add_zero, Nat.add_zero, count_gregorian_2100, count, count, count_fourth_2100]
      decide
  | succ k ih =>
      rw [← Nat.add_assoc, ← Nat.add_assoc, count, count, ih (by omega)]
      apply next_gregorian
      obtain ⟨hcentury, hnext, hfeb⟩ := year_bounds (isDate_count (47542 + k))
      intro hmonth hday
      by_cases h2100 : (count fourth (47542 + k)).year = 2100
      · have := hfeb h2100 hmonth
        omega
      · omega

end Kirkwood.Verified.DayCount
