import Mathlib.Algebra.Order.Floor.Ring
import Mathlib.Algebra.Order.Field.Power
import Mathlib.Tactic.Linarith
import Mathlib.Tactic.Positivity
import Mathlib.Tactic.Ring
import Mathlib.Tactic.NormNum

/-!
# Rounding to nearest, ties to even

`RoundsTo p x y`: `y` is the positive number `x`, rounded to `p` significant bits.  The last
one counts `2 ^ k`, for the one `k` with `2 ^ p * 2 ^ k ≤ 2 * x < 2 * 2 ^ p * 2 ^ k`; there
is no bound on `k`.

## Main results

* `RoundsAt.eq_of_near`, `RoundsAt.le_of_le`, `RoundsAt.ge_of_ge`, `RoundsAt.tie`,
  `RoundsTo.power_le`: where the rounded number lies;
* `rne_roundsAt`: the rounding of natural numbers by a division;
* `floor_add_half_iff`: adding one half, rounding and truncating gives a nearest integer,
  with two kinds of exceptions.
-/

namespace Kirkwood.Verified.Rounding

variable {K : Type*} [Field K] [LinearOrder K] [IsStrictOrderedRing K]

/-! ## Multiples of a power of two -/

/-- `x` is a multiple of `2 ^ k`. -/
def Multiple (k : ℤ) (x : K) : Prop := ∃ a : ℤ, x = a * 2 ^ k

/-- `x` has at most `p` significant bits. -/
def Representable (p : ℕ) (x : K) : Prop := ∃ (n : ℕ) (j : ℤ), n < 2 ^ p ∧ x = n * 2 ^ j

/-- `c` counts the multiples of `2 ^ k` up to the one that `x` is rounded to. -/
structure RoundsAt (p : ℕ) (k c : ℤ) (x : K) : Prop where
  lower : 2 ^ p * 2 ^ k ≤ 2 * x
  upper : x < 2 ^ p * 2 ^ k
  near : |x - c * 2 ^ k| ≤ 2 ^ k / 2
  even : |x - c * 2 ^ k| = 2 ^ k / 2 → Even c

def RoundsTo (p : ℕ) (x y : K) : Prop := ∃ k c : ℤ, RoundsAt p k c x ∧ y = c * 2 ^ k

theorem unit_pos (k : ℤ) : (0 : K) < 2 ^ k := zpow_pos two_pos k

/-- The unit before. -/
theorem unit_succ (k : ℤ) : (2 : K) ^ (k + 1) = 2 * 2 ^ k := by
  rw [zpow_add_one₀ two_ne_zero, mul_comm]

theorem unit_le {j k : ℤ} (h : j ≤ k) : (2 : K) ^ j ≤ 2 ^ k :=
  zpow_le_zpow_right₀ one_le_two h

theorem unit_lt_iff {j k : ℤ} : (2 : K) ^ j < 2 ^ k ↔ j < k :=
  zpow_lt_zpow_iff_right₀ one_lt_two

theorem unit_le_half {k : ℤ} (h : k ≤ -1) : (2 : K) ^ k ≤ 1 / 2 := by
  rw [one_div, ← zpow_neg_one]
  exact unit_le h

theorem exp_nonneg {k : ℤ} (h : (1 / 2 : K) < 2 ^ k) : 0 ≤ k := by
  rw [one_div, ← zpow_neg_one, unit_lt_iff] at h
  omega

theorem mul_unit_le {a b : ℤ} (h : a ≤ b) (k : ℤ) : (a : K) * 2 ^ k ≤ b * 2 ^ k :=
  mul_le_mul_of_nonneg_right (Int.cast_le.2 h) (unit_pos k).le

section
variable {x y : K} {j k : ℤ}

/-- A multiple of a power is one of each power before it. -/
theorem Multiple.mono (h : Multiple j x) (hk : k ≤ j) : Multiple k x := by
  obtain ⟨a, rfl⟩ := h
  refine ⟨a * 2 ^ (j - k).toNat, ?_⟩
  have hsplit : (2 : K) ^ j = 2 ^ (j - k).toNat * 2 ^ k := by
    rw [← zpow_natCast, ← zpow_add₀ two_ne_zero, Int.toNat_sub_of_le hk]
    congr 1
    omega
  push_cast
  rw [hsplit, mul_assoc]

omit [LinearOrder K] [IsStrictOrderedRing K] in
theorem Multiple.add (hx : Multiple k x) (hy : Multiple k y) : Multiple k (x + y) := by
  obtain ⟨a, rfl⟩ := hx
  obtain ⟨b, rfl⟩ := hy
  exact ⟨a + b, by push_cast; ring⟩

theorem multiple_int (hk : k ≤ 0) (n : ℤ) : Multiple k (n : K) :=
  Multiple.mono (j := 0) ⟨n, by rw [zpow_zero, mul_one]⟩ hk

theorem multiple_half (hk : k ≤ -1) : Multiple k (1 / 2 : K) :=
  Multiple.mono (j := -1) ⟨1, by norm_num⟩ hk

/-- A number of `p` bits is a multiple of the unit of its range, and of those before. -/
theorem Representable.multiple {p : ℕ} (h : Representable p x)
    (hle : 2 ^ p * 2 ^ k ≤ 2 * x) : Multiple k x := by
  obtain ⟨n, j, hn, rfl⟩ := h
  have hlt : (n : K) < 2 ^ p := by exact_mod_cast hn
  refine Multiple.mono (j := j) ⟨n, by push_cast; rfl⟩ ?_
  by_contra hj
  have hunit : 2 * (2 : K) ^ j ≤ 2 ^ k := by
    rw [← unit_succ]
    exact unit_le (by omega)
  have hbits : (n : K) * 2 ^ j < 2 ^ p * 2 ^ j := mul_lt_mul_of_pos_right hlt (unit_pos j)
  have hall : (2 : K) ^ p * (2 * 2 ^ j) ≤ 2 ^ p * 2 ^ k :=
    mul_le_mul_of_nonneg_left hunit (by positivity)
  linarith

end

/-! ## Where the rounded number lies -/

section
variable {p : ℕ} {k c a : ℤ} {x : K}

/-- A multiple that is nearer than half a unit. -/
theorem RoundsAt.eq_of_near (h : RoundsAt p k c x) (ha : |x - a * 2 ^ k| < 2 ^ k / 2) :
    c = a := by
  have hunit : (0 : K) < 2 ^ k := unit_pos k
  have hnear := abs_le.1 h.near
  have hother := abs_lt.1 ha
  have hlt : |((c - a : ℤ) : K)| * 2 ^ k < 1 * 2 ^ k := by
    rw [← abs_of_pos hunit, ← abs_mul, abs_of_pos hunit, one_mul, abs_lt]
    push_cast
    constructor <;> linarith
  have hone : |((c - a : ℤ) : K)| < 1 := lt_of_mul_lt_mul_right hlt hunit.le
  have hint : |c - a| < 1 := by exact_mod_cast hone
  rw [Int.abs_lt_one_iff] at hint
  omega

theorem RoundsAt.eq_of_eq (h : RoundsAt p k c x) (ha : x = a * 2 ^ k) : c = a := by
  apply h.eq_of_near
  rw [ha, sub_self, abs_zero]
  exact half_pos (unit_pos k)

/-- Rounding does not cross a multiple. -/
theorem RoundsAt.le_of_le (h : RoundsAt p k c x) (ha : a * 2 ^ k ≤ x) : a ≤ c := by
  have hunit : (0 : K) < 2 ^ k := unit_pos k
  by_contra hlt
  have hstep := mul_unit_le (K := K) (by omega : c + 1 ≤ a) k
  have hnear := (abs_le.1 h.near).2
  push_cast at hstep
  linarith

theorem RoundsAt.ge_of_ge (h : RoundsAt p k c x) (ha : x ≤ a * 2 ^ k) : c ≤ a := by
  have hunit : (0 : K) < 2 ^ k := unit_pos k
  by_contra hlt
  have hstep := mul_unit_le (K := K) (by omega : a + 1 ≤ c) k
  have hnear := (abs_le.1 h.near).1
  push_cast at hstep
  linarith

/-- Nor does it cross a power of two. -/
theorem RoundsTo.power_le {j : ℤ} {y : K} (hp : 0 < p) (h : RoundsTo p x y)
    (hj : 2 ^ j ≤ x) : 2 ^ j ≤ y := by
  obtain ⟨k, c, hround, rfl⟩ := h
  have hpow : (2 : K) ^ p = 2 * 2 ^ (p - 1) := by
    rw [← pow_succ', Nat.sub_add_cancel hp]
  have hlower := hround.lower
  rw [hpow, mul_assoc] at hlower
  have hc : (2 : ℤ) ^ (p - 1) ≤ c := hround.le_of_le (by push_cast; linarith)
  have hexp : j ≤ ((p - 1 : ℕ) : ℤ) + k := by
    have hlt := hj.trans_lt hround.upper
    rw [← zpow_natCast, ← zpow_add₀ two_ne_zero, unit_lt_iff] at hlt
    omega
  calc (2 : K) ^ j ≤ 2 ^ (((p - 1 : ℕ) : ℤ) + k) := unit_le hexp
    _ = ((2 ^ (p - 1) : ℤ) : K) * 2 ^ k := by
      rw [zpow_add₀ two_ne_zero, zpow_natCast]
      push_cast
      rfl
    _ ≤ c * 2 ^ k := mul_unit_le hc k

/-- Half way between two multiples, the even one is taken. -/
theorem RoundsAt.tie (h : RoundsAt p k c x) (ha : x = a * 2 ^ k + 2 ^ k / 2) :
    Even c ∧ (c = a ∨ c = a + 1) := by
  have hunit : (0 : K) < 2 ^ k := unit_pos k
  have hlow : a ≤ c := h.le_of_le (by rw [ha]; linarith)
  have hhigh : c ≤ a + 1 := by
    apply h.ge_of_ge
    push_cast
    linarith
  refine ⟨h.even ?_, by omega⟩
  obtain rfl | rfl : c = a ∨ c = a + 1 := by omega
  · rw [ha, add_sub_cancel_left]
    exact abs_of_pos (half_pos hunit)
  · rw [ha, abs_sub_comm]
    push_cast
    rw [show ((a : K) + 1) * 2 ^ k - (a * 2 ^ k + 2 ^ k / 2) = 2 ^ k / 2 by ring]
    exact abs_of_pos (half_pos hunit)

end

/-! ## By a division -/

/-- `a` over `2 ^ q`, to nearest, ties to even. -/
def rne (a q : ℕ) : ℕ :=
  if 2 ^ q < 2 * (a % 2 ^ q) ∨ 2 * (a % 2 ^ q) = 2 ^ q ∧ Odd (a / 2 ^ q) then
    a / 2 ^ q + 1
  else a / 2 ^ q

theorem rne_cases (a q : ℕ) :
    (rne a q = a / 2 ^ q ∧ 2 * (a % 2 ^ q) ≤ 2 ^ q ∧
      (2 * (a % 2 ^ q) = 2 ^ q → Even (a / 2 ^ q))) ∨
    (rne a q = a / 2 ^ q + 1 ∧ 2 ^ q ≤ 2 * (a % 2 ^ q) ∧
      (2 * (a % 2 ^ q) = 2 ^ q → Odd (a / 2 ^ q))) := by
  unfold rne
  split
  · next hup =>
      refine Or.inr ⟨rfl, ?_, fun htie => ?_⟩
      · rcases hup with hlt | htie
        · exact hlt.le
        · exact htie.1.ge
      · rcases hup with hlt | hodd
        · exact absurd htie hlt.ne'
        · exact hodd.2
  · next hdown =>
      rw [not_or] at hdown
      refine Or.inl ⟨rfl, not_lt.1 hdown.1, fun htie => ?_⟩
      exact Nat.not_odd_iff_even.1 fun hodd => hdown.2 ⟨htie, hodd⟩

theorem rne_near (a q : ℕ) :
    2 * |(a : ℤ) - rne a q * (2 ^ q : ℕ)| ≤ (2 ^ q : ℕ) ∧
      (2 * |(a : ℤ) - rne a q * (2 ^ q : ℕ)| = (2 ^ q : ℕ) → Even (rne a q)) := by
  have hdiv := Nat.div_add_mod a (2 ^ q)
  have hmod := Nat.mod_lt a (Nat.two_pow_pos q)
  have hcases := rne_cases a q
  generalize 2 ^ q = b at hdiv hmod hcases ⊢
  generalize a / b = f at hdiv hcases
  generalize a % b = r at hdiv hmod hcases
  have ha : (a : ℤ) = f * b + r := by
    rw [← hdiv]
    push_cast
    ring
  rcases hcases with ⟨hdown, hle, heven⟩ | ⟨hup, hle, hodd⟩
  · rw [hdown, ha, add_sub_cancel_left, Nat.abs_cast]
    exact ⟨by exact_mod_cast hle, fun htie => heven (by exact_mod_cast htie)⟩
  · have hdist : (a : ℤ) - (f + 1 : ℕ) * b = -(b - r : ℕ) := by
      rw [ha, Nat.cast_sub hmod.le]
      push_cast
      ring
    rw [hup, hdist, abs_neg, Nat.abs_cast]
    refine ⟨by omega, fun htie => ?_⟩
    exact (hodd (by omega)).add_one

/-- The rounding of the multiples of a power of two. -/
theorem rne_roundsAt {p a q : ℕ} (t : ℤ) (hlower : 2 ^ p * 2 ^ q ≤ 2 * a)
    (hupper : a < 2 ^ p * 2 ^ q) : RoundsAt p (q + t) (rne a q) ((a : K) * 2 ^ t) := by
  have hunit : (0 : K) < 2 ^ t := unit_pos t
  have hscale : (2 : K) ^ ((q : ℤ) + t) = (2 ^ q : ℕ) * 2 ^ t := by
    rw [zpow_add₀ two_ne_zero, zpow_natCast]
    push_cast
    rfl
  -- the distance, in units of `2 ^ t`
  have hdist : (a : K) * 2 ^ t - ((rne a q : ℕ) : ℤ) * 2 ^ ((q : ℤ) + t) =
      ((a : ℤ) - rne a q * (2 ^ q : ℕ) : ℤ) * 2 ^ t := by
    rw [hscale]
    push_cast
    ring
  have habs : |(a : K) * 2 ^ t - ((rne a q : ℕ) : ℤ) * 2 ^ ((q : ℤ) + t)| =
      (|(a : ℤ) - rne a q * (2 ^ q : ℕ)| : ℤ) * 2 ^ t := by
    rw [hdist, abs_mul, abs_of_pos hunit, Int.cast_abs]
  have hhalf : (2 : K) ^ ((q : ℤ) + t) / 2 = (2 ^ q : ℕ) / 2 * 2 ^ t := by
    rw [hscale]
    ring
  obtain ⟨hnear, heven⟩ := rne_near a q
  exact
    { lower := by
        rw [hscale, ← mul_assoc, ← mul_assoc]
        refine mul_le_mul_of_nonneg_right ?_ hunit.le
        exact_mod_cast hlower
      upper := by
        rw [hscale, ← mul_assoc]
        refine mul_lt_mul_of_pos_right ?_ hunit
        exact_mod_cast hupper
      near := by
        rw [habs, hhalf]
        refine mul_le_mul_of_nonneg_right ?_ hunit.le
        rw [le_div_iff₀' two_pos]
        exact_mod_cast hnear
      even := by
        rw [habs, hhalf]
        intro htie
        have hsame := mul_right_cancel₀ hunit.ne' htie
        rw [eq_div_iff two_ne_zero, mul_comm] at hsame
        exact (Int.even_coe_nat _).2 (heven (by exact_mod_cast hsame)) }

/-! ## One half added, and the fraction cut off -/

section
variable {p : ℕ} {k c : ℤ} {x y : K}

/-- The end of the range of a unit. -/
theorem range_eq (p : ℕ) (k : ℤ) : (2 : K) ^ p * 2 ^ k = 2 ^ (p + k) := by
  rw [zpow_add₀ two_ne_zero, zpow_natCast]

theorem Representable.nonneg (hx : Representable p x) : 0 ≤ x := by
  obtain ⟨n, j, -, rfl⟩ := hx
  exact mul_nonneg n.cast_nonneg (unit_pos j).le

theorem two_le_range (hp : 0 < p) : (2 : K) ≤ 2 ^ p :=
  le_self_pow₀ one_le_two hp.ne'

theorem gap_pos (p : ℕ) : (0 : K) < 1 / 2 ^ (p + 1) := by positivity

/-- With the range up to one, half a unit is the gap below one half. -/
theorem gap_eq (h : (p : ℤ) + k = 0) : (1 : K) / 2 ^ (p + 1) = 2 ^ k / 2 := by
  have hone : (2 : K) ^ p * 2 ^ k = 1 := by rw [range_eq, h, zpow_zero]
  rw [div_eq_div_iff (by positivity) two_ne_zero, pow_succ]
  linarith

/-- Numbers too large for a bit of one half: the half is lost. -/
theorem large_eq (hx : Representable p x) (h : RoundsAt p k c (x + 1 / 2)) (hk : 1 ≤ k) :
    c * 2 ^ k = x ∧ 2 ^ p ≤ x := by
  have hnonneg := hx.nonneg
  have hone : (1 : K) ≤ 2 ^ (k - 1) := by
    rw [← zpow_zero (2 : K)]
    exact unit_le (by omega)
  have hunit : (2 : K) ^ k = 2 * 2 ^ (k - 1) := by rw [← unit_succ, sub_add_cancel]
  have hlower := h.lower
  have hrange : (1 : K) ≤ 2 ^ p := one_le_pow₀ one_le_two
  have hprod : (1 : K) ≤ 2 ^ p * 2 ^ (k - 1) := one_le_mul_of_one_le_of_one_le hrange hone
  -- `x` is a multiple of the unit before, and one half is less than that
  obtain ⟨b, hb⟩ : Multiple (k - 1) x := hx.multiple (by rw [hunit] at hlower; linarith)
  have hbig : 2 ^ p ≤ b := by
    by_contra hlt
    have hstep := mul_unit_le (K := K) (by omega : b + 1 ≤ 2 ^ p) (k - 1)
    rw [hunit, hb] at hlower
    push_cast at hstep
    linarith
  have hall : (2 : K) ^ p * 2 ^ (k - 1) ≤ x := by
    rw [hb]
    exact mul_le_mul_of_nonneg_right (by exact_mod_cast hbig) (by linarith)
  obtain ⟨a, ha⟩ : Multiple k x := hx.multiple (by rw [hunit]; linarith)
  have hnear : |x + 1 / 2 - a * 2 ^ k| < 2 ^ k / 2 := by
    rw [← ha, add_sub_cancel_left, abs_of_pos one_half_pos, hunit]
    linarith
  refine ⟨by rw [h.eq_of_near hnear, ← ha], ?_⟩
  calc (2 : K) ^ p = 2 ^ p * 1 := (mul_one _).symm
    _ ≤ 2 ^ p * 2 ^ (k - 1) := mul_le_mul_of_nonneg_left hone (by linarith)
    _ ≤ x := hall

/-- Numbers with the unit one: they have no more than one half behind the point, and with
nothing there the sum is a tie. -/
theorem unit_near_iff (hp : 0 < p) (hx : Representable p x)
    (h : RoundsAt p 0 c (x + 1 / 2)) :
    |(c : K) - x| ≤ 1 / 2 ↔ ¬ ∃ n : ℤ, x = n ∧ Odd n := by
  have hlower := h.lower
  have hrange := two_le_range (K := K) hp
  rw [zpow_zero, mul_one] at hlower
  obtain ⟨b, hb⟩ : Multiple (-1) x := hx.multiple (by norm_num; linarith)
  rw [zpow_neg_one] at hb
  obtain ⟨n, rfl | rfl⟩ := Int.even_or_odd' b
  · have hn : x = n := by
      rw [hb]
      push_cast
      ring
    obtain ⟨hceven, hc⟩ := h.tie (a := n) (by rw [hn, zpow_zero, mul_one])
    rw [hn, ← Int.cast_sub]
    constructor
    · rintro hnear ⟨m, hm, hodd⟩
      obtain rfl : n = m := by exact_mod_cast hm
      obtain rfl : c = n + 1 := by
        rcases hc with rfl | hc
        · exact absurd hodd (Int.not_odd_iff_even.2 hceven)
        · exact hc
      norm_num at hnear
    · intro hodd
      obtain rfl : c = n := by
        rcases hc with hc | rfl
        · exact hc
        · refine absurd ⟨n, rfl, ?_⟩ hodd
          exact Int.not_even_iff_odd.1 fun heven => (Int.even_add_one.1 hceven) heven
      norm_num
  · have hn : x = n + 1 / 2 := by
      rw [hb]
      push_cast
      ring
    obtain rfl : c = n + 1 := h.eq_of_eq (by
      rw [hn, zpow_zero]
      push_cast
      ring)
    rw [hn]
    push_cast
    constructor
    · rintro - ⟨m, hm, -⟩
      have hdouble : (2 * n + 1 : ℤ) = 2 * m := by
        have hcast : ((2 * n + 1 : ℤ) : K) = (2 * m : ℤ) := by
          push_cast
          linarith
        exact_mod_cast hcast
      omega
    · intro _
      rw [show (n : K) + 1 - (n + 1 / 2) = 1 / 2 by ring, abs_of_pos one_half_pos]

/-- The number just below one half: the sum is a tie, and it becomes one. -/
theorem below_half (hp : 0 < p) (hx : x = 1 / 2 - 1 / 2 ^ (p + 1))
    (h : RoundsAt p k c (x + 1 / 2)) : (c : K) * 2 ^ k = 1 := by
  have hrange := two_le_range (K := K) hp
  have hgap : (1 : K) / 2 ^ (p + 1) ≤ 1 / 4 := by
    apply one_div_le_one_div_of_le (by norm_num)
    rw [pow_succ]
    linarith
  have hpos := gap_pos (K := K) p
  have hlower := h.lower
  have hupper := h.upper
  rw [range_eq] at hlower hupper
  have hk : (p : ℤ) + k = 0 := by
    have hlt : (2 : K) ^ (p + k) < 2 ^ (1 : ℤ) := by
      rw [zpow_one]
      linarith
    have hlow : 0 ≤ (p : ℤ) + k := exp_nonneg (K := K) (by linarith)
    rw [unit_lt_iff] at hlt
    omega
  have hone : (2 : K) ^ p * 2 ^ k = 1 := by rw [range_eq, hk, zpow_zero]
  have hunit : (1 : K) / 2 ^ (p + 1) = 2 ^ k / 2 := gap_eq hk
  obtain ⟨heven, hc⟩ := h.tie (a := 2 ^ p - 1) (by
    push_cast
    rw [hx, hunit]
    linarith)
  have hodd : ¬ Even ((2 : ℤ) ^ p - 1) := by
    rw [Int.even_sub_one, not_not]
    exact (even_two.pow_of_ne_zero hp.ne')
  rcases hc with rfl | rfl
  · exact absurd heven hodd
  · push_cast
    rw [sub_add_cancel, hone]

/-- A sum that is rounded up to the next integer is one below one.  Where it is larger, the
number is a multiple of the unit, and the sum is not rounded. -/
theorem range_one (hx : Representable p x) (h : RoundsAt p k c (x + 1 / 2)) (hk : k ≤ -1)
    {n : ℤ} (hnext : x + 1 / 2 < n + 1) (hy : c * 2 ^ k = (n + 1 : K)) :
    (p : ℤ) + k = 0 ∧ 2 * x < 1 := by
  have hhalf : (2 : K) ^ k ≤ 1 / 2 := unit_le_half hk
  have hnonneg := hx.nonneg
  have hnear := (abs_le.1 h.near).1
  have hlower := h.lower
  have hupper := h.upper
  have hfew : 2 * x < 2 ^ p * 2 ^ k := by
    by_contra hle
    obtain ⟨a, ha⟩ := (hx.multiple (not_lt.1 hle)).add (multiple_half hk)
    rw [h.eq_of_eq ha, ← ha] at hy
    linarith
  rw [range_eq] at hlower hupper hfew
  have hlow : 0 ≤ (p : ℤ) + k := exp_nonneg (K := K) (by linarith)
  have hzero : (p : ℤ) + k = 0 := by
    by_contra hne
    -- half of the range is an integer, and `n` is no less
    have hpow : (2 : K) ^ (p + k) = 2 * (2 ^ (p + k - 1).toNat : ℤ) := by
      have hexp : (p : ℤ) + k = ((p + k - 1).toNat : ℤ) + 1 := by omega
      rw [hexp, unit_succ, zpow_natCast, Int.add_sub_cancel, Int.toNat_natCast]
      push_cast
      rfl
    rw [hpow] at hlower hfew
    have hlt : (2 ^ (p + k - 1).toNat : ℤ) < n + 1 := by
      have hcast : ((2 ^ (p + k - 1).toNat : ℤ) : K) < (n + 1 : ℤ) := by
        push_cast at hlower ⊢
        linarith
      exact_mod_cast hcast
    have hle : ((2 ^ (p + k - 1).toNat : ℤ) : K) ≤ n :=
      Int.cast_le.2 (Int.lt_add_one_iff.1 hlt)
    linarith
  rw [hzero, zpow_zero] at hfew
  exact ⟨hzero, hfew⟩

/-- Of the numbers with a bit of one half, no other sum reaches the next integer. -/
theorem reaches_next (hx : Representable p x) (h : RoundsAt p k c (x + 1 / 2))
    (hk : k ≤ -1) {n : ℤ} (hnext : x + 1 / 2 < n + 1) (hy : c * 2 ^ k = (n + 1 : K)) :
    x = 1 / 2 - 1 / 2 ^ (p + 1) := by
  obtain ⟨hzero, hfew⟩ := range_one hx h hk hnext hy
  have hunit : (0 : K) < 2 ^ k := unit_pos k
  have hhalf : (2 : K) ^ k ≤ 1 / 2 := unit_le_half hk
  have hnonneg := hx.nonneg
  have hnear := (abs_le.1 h.near).1
  have hone : (2 : K) ^ p * 2 ^ k = 1 := by rw [range_eq, hzero, zpow_zero]
  have hprev : (2 : K) ^ (k - 1) = 2 ^ k / 2 := by
    rw [← sub_add_cancel k 1, unit_succ, add_sub_cancel_right]
    ring
  have hn0 : n = 0 := by
    have hlow : ((-1 : ℤ) : K) < n := by
      push_cast
      linarith
    have hhigh : (n : K) < (1 : ℤ) := by
      push_cast
      linarith
    have hlow' := Int.cast_lt.1 hlow
    have hhigh' := Int.cast_lt.1 hhigh
    omega
  rw [hn0, Int.cast_zero, zero_add] at hy
  rw [hy] at hnear
  -- `x` counts half units, and it is the last of them below one half
  obtain ⟨b, hb⟩ : Multiple (k - 1) x := hx.multiple (by rw [hprev]; linarith)
  have hblow : (2 : ℤ) ^ p - 1 ≤ b := by
    by_contra hlt
    have hstep := mul_unit_le (K := K) (by omega : b + 1 ≤ (2 : ℤ) ^ p - 1) (k - 1)
    push_cast at hstep
    rw [hprev] at hb hstep
    linarith
  have hbhigh : b ≤ (2 : ℤ) ^ p - 1 := by
    by_contra hlt
    have hstep := mul_unit_le (K := K) (by omega : (2 : ℤ) ^ p ≤ b) (k - 1)
    push_cast at hstep
    rw [hprev] at hb hstep
    linarith
  rw [hb, gap_eq hzero, hprev, le_antisymm hbhigh hblow]
  push_cast
  linarith

/-- Numbers with a bit of one half. -/
theorem small_near_iff [FloorRing K] (hp : 0 < p) (hx : Representable p x)
    (h : RoundsAt p k c (x + 1 / 2)) (hk : k ≤ -1) (hy : y = c * 2 ^ k) :
    |(⌊y⌋ : K) - x| ≤ 1 / 2 ↔ x ≠ 1 / 2 - 1 / 2 ^ (p + 1) := by
  have hfloor := Int.floor_le (x + 1 / 2)
  have hnext := Int.lt_floor_add_one (x + 1 / 2)
  generalize ⌊x + 1 / 2⌋ = n at hfloor hnext
  have hlow : (n : K) ≤ y := by
    obtain ⟨a, ha⟩ := multiple_int (K := K) (by omega : k ≤ 0) n
    rw [ha, hy]
    exact mul_unit_le (h.le_of_le (by rwa [← ha])) k
  have hhigh : y ≤ n + 1 := by
    obtain ⟨a, ha⟩ := multiple_int (K := K) (by omega : k ≤ 0) (n + 1)
    rw [Int.cast_add, Int.cast_one] at ha
    rw [ha, hy]
    exact mul_unit_le (h.ge_of_ge (by rw [← ha]; exact hnext.le)) k
  rcases hhigh.lt_or_eq with hlt | heq
  · have hy' : ⌊y⌋ = n := Int.floor_eq_iff.2 ⟨hlow, hlt⟩
    rw [hy', abs_le]
    refine ⟨fun _ hbad => ?_, fun _ => ⟨by linarith, by linarith⟩⟩
    have hone := below_half hp hbad h
    have hgap := gap_pos (K := K) p
    have hn : n < 1 := by
      have hcast : (n : K) < (1 : ℤ) := by
        rw [Int.cast_one]
        linarith
      exact Int.cast_lt.1 hcast
    have hn' : 1 < n + 1 := by
      have hcast : ((1 : ℤ) : K) < (n + 1 : ℤ) := by
        push_cast
        linarith
      exact Int.cast_lt.1 hcast
    omega
  · have hy' : ⌊y⌋ = n + 1 := by
      rw [heq]
      exact_mod_cast Int.floor_intCast (n + 1)
    have hbad := reaches_next hx h hk hnext (hy.symm.trans heq)
    rw [hy', abs_le]
    refine iff_of_false (fun hnear => ?_) fun hne => hne hbad
    have hle := hnear.2
    push_cast at hle
    linarith

/-- One half added to a number of `p` bits, rounded, and the fraction cut off: that is a
nearest integer but for the number just below one half, which becomes one, and the odd
integers of `p` bits, which become the next integer. -/
theorem floor_add_half_iff [FloorRing K] (hp : 0 < p) (hx : Representable p x)
    (hy : RoundsTo p (x + 1 / 2) y) :
    |(⌊y⌋ : K) - x| ≤ 1 / 2 ↔ x ≠ 1 / 2 - 1 / 2 ^ (p + 1) ∧
      ¬ ∃ n : ℤ, x = n ∧ Odd n ∧ 2 ^ p ≤ 2 * n ∧ n < 2 ^ p := by
  obtain ⟨k, c, h, hc⟩ := hy
  have hrange := two_le_range (K := K) hp
  have hgap := gap_pos (K := K) p
  have hlower := h.lower
  have hupper := h.upper
  obtain hk | rfl | hk : k ≤ -1 ∨ k = 0 ∨ 1 ≤ k := by omega
  · rw [small_near_iff hp hx h hk hc]
    refine ⟨fun hne => ⟨hne, ?_⟩, fun hne => hne.1⟩
    rintro ⟨n, hn, -, hbig, -⟩
    have hhalf : (2 : K) ^ p * 2 ^ k ≤ 2 ^ p * (1 / 2) :=
      mul_le_mul_of_nonneg_left (unit_le_half hk) (by linarith)
    have hcast : ((2 ^ p : ℤ) : K) ≤ (2 * n : ℤ) := Int.cast_le.2 hbig
    push_cast at hcast
    linarith
  · rw [zpow_zero, mul_one] at hlower hupper hc
    rw [hc, Int.floor_intCast, unit_near_iff hp hx h]
    constructor
    · refine fun hodd => ⟨by linarith, ?_⟩
      rintro ⟨n, hn, hn', -⟩
      exact hodd ⟨n, hn, hn'⟩
    · rintro ⟨-, hodd⟩ ⟨n, hn, hn'⟩
      refine hodd ⟨n, hn, hn', ?_, ?_⟩
      · have hcast : ((2 ^ p : ℤ) : K) ≤ (2 * n + 1 : ℤ) := by
          push_cast
          linarith
        have hle := Int.cast_le.1 hcast
        have heven : (2 : ℤ) ∣ 2 ^ p := dvd_pow_self 2 hp.ne'
        omega
      · have hcast : ((n : ℤ) : K) < (2 ^ p : ℤ) := by
          push_cast
          linarith
        exact Int.cast_lt.1 hcast
  · obtain ⟨hsame, hbig⟩ := large_eq hx h hk
    obtain ⟨a, ha⟩ : Multiple 0 x := by
      refine Multiple.mono (j := k) ⟨c, hsame.symm⟩ (by omega)
    rw [zpow_zero, mul_one] at ha
    rw [hc, hsame, ha, Int.floor_intCast, sub_self, abs_zero, ← ha]
    refine iff_of_true one_half_pos.le ⟨by linarith, ?_⟩
    rintro ⟨n, hn, -, -, hlt⟩
    have hcast : ((n : ℤ) : K) < (2 ^ p : ℤ) := Int.cast_lt.2 hlt
    push_cast at hcast
    linarith

end

end Kirkwood.Verified.Rounding
