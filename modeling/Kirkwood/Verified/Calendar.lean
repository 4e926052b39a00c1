import Mathlib.Algebra.Order.Ring.Nat
import Mathlib.Data.List.Basic

/-!
# A calendar with a leap day every fourth year

Days are counted from January 1, 1970.  `IsDate day y m d` says that the day
numbered `day` is day `d` of month `m` of year `y`, by sums of the lengths of the
years and months before it.  The centuries are leap years, as most real-time
clocks have them.

## Main results

* `yearStart_eq` — the first day of a year in closed form;
* `IsDate.unique` — a day has one date.
-/

namespace Kirkwood.Verified.Calendar

/-- `y` has a February 29. -/
def Leap (y : Nat) : Prop := y % 4 = 0

instance (y : Nat) : Decidable (Leap y) := inferInstanceAs (Decidable (y % 4 = 0))

def yearLength (y : Nat) : Nat := if Leap y then 366 else 365

/-- The days of the months of year `y`, January first. -/
def months (y : Nat) : List Nat :=
  [31, if Leap y then 29 else 28, 31, 30, 31, 30, 31, 31, 30, 31, 30, 31]

/-- The day on which year `1970 + n` starts. -/
def yearStart : Nat → Nat
  | 0 => 0
  | n + 1 => yearStart n + yearLength (1970 + n)

/-- The day of year `y` on which month `m + 1` starts. -/
def monthStart (y m : Nat) : Nat := ((months y).take m).sum

/-- Day number `day` is day `d` of month `m` of year `y`. -/
structure IsDate (day y m d : Nat) : Prop where
  epoch : 1970 ≤ y
  year : day < yearStart (y - 1970 + 1)
  month : 1 ≤ m ∧ m ≤ 12
  inmonth : 1 ≤ d ∧ monthStart y (m - 1) + d ≤ monthStart y m
  day : day = yearStart (y - 1970) + monthStart y (m - 1) + (d - 1)

/-! ## Years -/

/-- Each fourth year adds a day, 1972 first. -/
theorem yearStart_eq (n : Nat) : yearStart n = 365 * n + (n + 1) / 4 := by
  induction n with
  | zero => rfl
  | succ n ih =>
      rw [yearStart, ih, yearLength]
      by_cases h : Leap (1970 + n)
      · rw [if_pos h]
        unfold Leap at h
        omega
      · rw [if_neg h]
        unfold Leap at h
        omega

theorem yearStart_le {n k : Nat} (h : n ≤ k) : yearStart n ≤ yearStart k := by
  rw [yearStart_eq, yearStart_eq]
  omega

/-! ## Months -/

theorem monthStart_le (y : Nat) {m k : Nat} (h : m ≤ k) :
    monthStart y m ≤ monthStart y k := by
  unfold monthStart
  obtain ⟨j, rfl⟩ := Nat.exists_eq_add_of_le h
  rw [List.take_add, List.sum_append]
  exact Nat.le_add_right _ _

/-- A month has at most 31 days, and the next one starts behind them. -/
theorem monthStart_succ (y : Nat) {i : Nat} (hi : i < 12) : ∃ days ≤ 31,
    (months y)[i]? = some days ∧ monthStart y (i + 1) = monthStart y i + days := by
  have hlt : i < (months y).length := hi
  have hall : ∀ days ∈ months y, days ≤ 31 := by
    unfold months
    split
    · decide
    · decide
  refine ⟨(months y)[i], hall _ (List.getElem_mem hlt), List.getElem?_eq_getElem hlt, ?_⟩
  rw [monthStart, monthStart, List.take_succ_eq_append_getElem hlt, List.sum_append,
    List.sum_singleton]

/-- The months fill the year. -/
theorem monthStart_twelve (y : Nat) : monthStart y 12 = yearLength y := by
  unfold monthStart months yearLength
  split
  · rfl
  · rfl

theorem monthStart_le_year (y : Nat) {m : Nat} (h : m ≤ 12) : monthStart y m ≤ 366 := by
  have hlen : yearLength y ≤ 366 := by
    unfold yearLength
    split
    · decide
    · decide
  calc monthStart y m ≤ monthStart y 12 := monthStart_le y h
    _ = yearLength y := monthStart_twelve y
    _ ≤ 366 := hlen

/-! ## Dates -/

theorem IsDate.day_le {day y m d : Nat} (h : IsDate day y m d) : d ≤ 31 := by
  have hmonth := h.month
  obtain ⟨days, hdays, _, hnext⟩ := monthStart_succ y (show m - 1 < 12 by omega)
  have hidx : m - 1 + 1 = m := by omega
  rw [hidx] at hnext
  have hin := h.inmonth
  omega

/-- A day has one date. -/
theorem IsDate.unique {day y m d y' m' d' : Nat} (h : IsDate day y m d)
    (h' : IsDate day y' m' d') : y = y' ∧ m = m' ∧ d = d' := by
  have hyear : ∀ {y m d y' m' d'}, IsDate day y m d → IsDate day y' m' d' → ¬ y < y' := by
    intro y m d y' m' d' h h' hlt
    have hle := yearStart_le (show y - 1970 + 1 ≤ y' - 1970 by have := h.epoch; omega)
    have := h.year
    have := h'.day
    omega
  obtain rfl : y = y' := by
    have := hyear h h'
    have := hyear h' h
    omega
  have hmonth : ∀ {m d m' d'}, IsDate day y m d → IsDate day y m' d' → ¬ m < m' := by
    intro m d m' d' h h' hlt
    have hle := monthStart_le y (show m ≤ m' - 1 by omega)
    have := h.inmonth
    have := h'.inmonth
    have := h.day
    have := h'.day
    omega
  obtain rfl : m = m' := by
    have := hmonth h h'
    have := hmonth h' h
    omega
  have := h.inmonth
  have := h'.inmonth
  have := h.day
  have := h'.day
  exact ⟨rfl, rfl, by omega⟩

end Kirkwood.Verified.Calendar
