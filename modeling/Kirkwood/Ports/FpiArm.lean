import Mathlib.Data.Rat.Floor
import Kirkwood.Verified.CInt
import Kirkwood.Verified.Mask
import Kirkwood.Verified.Rounding

/-!
# `RNDF` of the floating-point emulator

`frnd` adds one half of the operand's sign, rounds the sum and clears its fraction.  The sum
has 53 bits like the operand, and where it does not fit it is rounded before the fraction is
cut off: for the number just below one half it becomes one, and odd integers of 53 bits
become even.

`fpiadd`, `fpisub` and `fpiround` are not in the repository; `Sums` is what is assumed of
them.

## Main results

* `frnd_eq_floor`: `frnd` is the floor of the rounded sum;
* `frnd_nearest_iff`: the operands that are rounded to a nearest integer.
-/

namespace Kirkwood.Ports.FpiArm

open Kirkwood.Verified.CInt
open Kirkwood.Verified.Mask
open Kirkwood.Verified.Rounding

/-! ## fpi.h -/

def FractBits : Nat := 28
def CarryBit : BitVec 32 := 0x10000000
def HiddenBit : BitVec 32 := 0x08000000
def GuardMask : BitVec 32 := 0x07
def ExpBias : Int := 1023
def ExpInfinity : Int := 2047

/-- The sign, a `short` and two `long`s with 28 bits each, the three lowest of them
guards. -/
structure Internal where
  s : Bool
  e : Int
  l : BitVec 32
  h : BitVec 32
  deriving DecidableEq, Repr

def IsWeird (n : Internal) : Prop := n.e ≥ ExpInfinity

instance (n : Internal) : Decidable (IsWeird n) := inferInstanceAs (Decidable (_ ≤ _))

def SetZero (n : Internal) : Internal := { n with e := 1, h := 0, l := 0 }

/-- `fpi.c` -/
structure Fpi where
  fpiadd : Internal → Internal → Internal
  fpisub : Internal → Internal → Internal
  fpiround : Internal → Internal

/-! ## fpiarm.c -/

/-- `fpconst`, indexed by `op & 7`. -/
def fpconst (op : BitVec 3) : Internal :=
  match op.toNat with
  | 0 => ⟨false, 0x1, 0x00000000, 0x00000000⟩
  | 1 => ⟨false, 0x3FF, 0x00000000, 0x08000000⟩
  | 2 => ⟨false, 0x400, 0x00000000, 0x08000000⟩
  | 3 => ⟨false, 0x400, 0x00000000, 0x0C000000⟩
  | 4 => ⟨false, 0x401, 0x00000000, 0x08000000⟩
  | 5 => ⟨false, 0x401, 0x00000000, 0x0A000000⟩
  | 6 => ⟨false, 0x3FE, 0x00000000, 0x08000000⟩
  | _ => ⟨false, 0x402, 0x00000000, 0x0A000000⟩

section
variable (fpi : Fpi)

def fadd (m n : Internal) : Internal :=
  (if m.s = n.s then fpi.fpiadd else fpi.fpisub) m n

def fsub (m n : Internal) : Internal :=
  let m := { m with s := !m.s }
  (if m.s = n.s then fpi.fpiadd else fpi.fpisub) m n

/-- `frnd`, from `e = (d->e - ExpBias) + 1` -/
def chop (d : Internal) : Internal :=
  let e := short (d.e - ExpBias + 1)
  if e ≤ 0 then SetZero d
  else if e > FractBits then
    if e < 2 * FractBits then
      { d with l := d.l &&& ~~~(1#32 <<< (2 * FractBits - e).toNat - 1#32) }
    else d
  else
    let d := { d with l := 0 }
    if e < FractBits then
      { d with h := d.h &&& ~~~(1#32 <<< (FractBits - e).toNat - 1#32) }
    else d

/-- The result is what is left in `*d`. -/
def frnd (m : Internal) : Internal :=
  let d := (if m.s then fsub fpi else fadd fpi) (fpconst 6) m
  if IsWeird d then d else chop (fpi.fpiround d)

end

/-! ## Values -/

/-- The 56 bits of the two words. -/
def significand (n : Internal) : Nat := n.h.toNat * 2 ^ 28 + n.l.toNat

/-- The magnitude: the hidden bit counts `2 ^ (e - ExpBias)`. -/
def mag (n : Internal) : ℚ := significand n * 2 ^ (n.e - 1078)

def value (n : Internal) : ℚ := if n.s then -mag n else mag n

/-- A finite number: no bits but those of the significand, and the hidden bit is set unless
the exponent is the smallest one. -/
structure Finite (n : Internal) : Prop where
  small : ¬ IsWeird n
  high : n.h < CarryBit
  low : n.l < CarryBit
  guard : n.l &&& GuardMask = 0
  normal : HiddenBit ≤ n.h ∨ n.e = 1

section
variable {n : Internal}

theorem Finite.high_lt (hn : Finite n) : n.h.toNat < 2 ^ 28 := BitVec.lt_def.1 hn.high

theorem Finite.low_lt (hn : Finite n) : n.l.toNat < 2 ^ 28 := BitVec.lt_def.1 hn.low

theorem Finite.significand_lt (hn : Finite n) : significand n < 2 ^ 56 := by
  have hhigh := hn.high_lt
  have hlow := hn.low_lt
  unfold significand
  omega

theorem Finite.significand_mod (hn : Finite n) : significand n % 8 = 0 := by
  have hguard := (and_low_eq_zero n.l (k := 3) (by decide)).1 hn.guard
  unfold significand
  omega

/-- Only the smallest exponent goes without the hidden bit. -/
theorem Finite.significand_ge (hn : Finite n) (he : n.e ≠ 1) : 2 ^ 55 ≤ significand n := by
  have hhidden : (2 : Nat) ^ 27 ≤ n.h.toNat := BitVec.le_def.1 (hn.normal.resolve_right he)
  unfold significand
  omega

/-- The 53 bits above the guards. -/
theorem Finite.representable (hn : Finite n) : Representable 53 (mag n) := by
  have hmod := hn.significand_mod
  have hlt := hn.significand_lt
  refine ⟨significand n / 8, n.e - 1075, by omega, ?_⟩
  have hdiv : significand n = significand n / 8 * 2 ^ 3 := by omega
  have hexp : n.e - 1075 = 3 + (n.e - 1078) := by ring
  unfold mag
  rw [hexp, zpow_add₀ two_ne_zero, ← mul_assoc]
  congr 1
  exact_mod_cast hdiv

theorem mag_nonneg (n : Internal) : 0 ≤ mag n :=
  mul_nonneg (Nat.cast_nonneg _) (unit_pos _).le

end

/-! ## The fraction is cut off -/

/-- The hidden bit is set, or the number is the zero of `SetZero`. -/
structure Canonical (n : Internal) : Prop where
  high : n.h.toNat < 2 ^ 28
  low : n.l.toNat < 2 ^ 28
  normal : 2 ^ 27 ≤ n.h.toNat ∨ (n.e = 1 ∧ significand n = 0)

section
variable {n m : Internal}

theorem Canonical.significand_range (hn : Canonical n) (hne : significand n ≠ 0) :
    2 ^ 55 ≤ significand n ∧ significand n < 2 ^ 56 := by
  have hhigh := hn.high
  have hlow := hn.low
  rcases hn.normal with hhidden | ⟨-, hzero⟩
  · unfold significand
    omega
  · exact absurd hzero hne

theorem mag_eq_zero : mag n = 0 ↔ significand n = 0 := by
  unfold mag
  rw [mul_eq_zero, or_iff_left (unit_pos _).ne', Nat.cast_eq_zero]

/-- The exponents of numbers in order are in order. -/
theorem Canonical.exp_le (hn : Canonical n) (hm : Canonical m) (hzero : significand n ≠ 0)
    (hle : mag n ≤ mag m) (hne : significand m ≠ 0) : n.e ≤ m.e := by
  by_contra hlt
  have hlow : (2 : ℚ) ^ 55 ≤ significand n := by
    exact_mod_cast (hn.significand_range hzero).1
  have hhigh : (significand m : ℚ) < 2 ^ 56 := by
    exact_mod_cast (hm.significand_range hne).2
  have hunit : 2 * (2 : ℚ) ^ (m.e - 1078) ≤ 2 ^ (n.e - 1078) := by
    rw [← unit_succ]
    exact unit_le (by omega)
  have hcontra : mag m < mag n :=
    calc mag m < 2 ^ 56 * 2 ^ (m.e - 1078) := mul_lt_mul_of_pos_right hhigh (unit_pos _)
      _ = 2 ^ 55 * (2 * 2 ^ (m.e - 1078)) := by ring
      _ ≤ 2 ^ 55 * 2 ^ (n.e - 1078) := mul_le_mul_of_nonneg_left hunit (by norm_num)
      _ ≤ mag n := mul_le_mul_of_nonneg_right hlow (unit_pos _).le
  exact absurd hle (not_le.2 hcontra)

theorem Canonical.eq_of_significand (hn : Canonical n) (hm : Canonical m) (hs : n.s = m.s)
    (he : n.e = m.e) (hsig : significand n = significand m) : n = m := by
  have hlow := hn.low
  have hlow' := hm.low
  unfold significand at hsig
  have hh : n.h = m.h := BitVec.eq_of_toNat_eq (by omega)
  have hl : n.l = m.l := BitVec.eq_of_toNat_eq (by omega)
  cases n
  cases m
  cases hs
  cases he
  cases hh
  cases hl
  rfl

/-- A number has one such form. -/
theorem Canonical.eq_of_mag (hn : Canonical n) (hm : Canonical m) (hs : n.s = m.s)
    (hmag : mag n = mag m) : n = m := by
  have hiff : significand n = 0 ↔ significand m = 0 := by
    rw [← mag_eq_zero, ← mag_eq_zero, hmag]
  by_cases hzero : significand n = 0
  · have hzero' := hiff.1 hzero
    have he : n.e = 1 := by
      rcases hn.normal with hhidden | ⟨he, -⟩
      · unfold significand at hzero
        omega
      · exact he
    have he' : m.e = 1 := by
      rcases hm.normal with hhidden | ⟨he', -⟩
      · unfold significand at hzero'
        omega
      · exact he'
    exact hn.eq_of_significand hm hs (he.trans he'.symm) (hzero.trans hzero'.symm)
  · have hne := fun h => hzero (hiff.2 h)
    have he := le_antisymm (hn.exp_le hm hzero hmag.le hne) (hm.exp_le hn hne hmag.ge hzero)
    refine hn.eq_of_significand hm hs he ?_
    unfold mag at hmag
    rw [he] at hmag
    exact_mod_cast mul_right_cancel₀ (unit_pos (m.e - 1078)).ne' hmag

end

/-! ### The masks -/

/-- What the masks leave of the significand, its last `q` bits cleared. -/
structure Cleared (q : Nat) (n d : Internal) : Prop where
  s : d.s = n.s
  e : d.e = n.e
  high : d.h.toNat ≤ n.h.toNat
  low : d.l.toNat ≤ n.l.toNat
  significand : significand d = significand n / 2 ^ q * 2 ^ q

section
variable {n d : Internal} {q k : Nat}

/-- A part of the low word. -/
theorem cleared_low (hl : d.l.toNat = n.l.toNat / 2 ^ q * 2 ^ q) (hq : q ≤ 28)
    (hs : d.s = n.s) (he : d.e = n.e) (hh : d.h = n.h) : Cleared q n d where
  s := hs
  e := he
  high := hh ▸ Nat.le_refl _
  low := hl ▸ Nat.div_mul_le_self ..
  significand := by
    have hpow : (2 : Nat) ^ 28 = 2 ^ (28 - q) * 2 ^ q := by
      rw [← Nat.pow_add, Nat.sub_add_cancel hq]
    have hdiv : (n.h.toNat * 2 ^ (28 - q) * 2 ^ q + n.l.toNat) / 2 ^ q =
        n.h.toNat * 2 ^ (28 - q) + n.l.toNat / 2 ^ q := by
      rw [Nat.add_comm, Nat.add_mul_div_right _ _ (Nat.two_pow_pos q), Nat.add_comm]
    unfold FpiArm.significand
    rw [hh, hl, hpow, ← Nat.mul_assoc, hdiv, Nat.add_mul]

/-- The low word, and a part of the high one. -/
theorem cleared_high (hn : n.l.toNat < 2 ^ 28) (hl : d.l = 0)
    (hh : d.h.toNat = n.h.toNat / 2 ^ q * 2 ^ q) (hs : d.s = n.s) (he : d.e = n.e) :
    Cleared (28 + q) n d where
  s := hs
  e := he
  high := hh ▸ Nat.div_mul_le_self ..
  low := hl ▸ Nat.zero_le _
  significand := by
    have hdiv : (n.h.toNat * 2 ^ 28 + n.l.toNat) / 2 ^ 28 = n.h.toNat := by omega
    have hzero : d.l.toNat = 0 := by
      rw [hl]
      rfl
    unfold FpiArm.significand
    rw [hzero, hh, Nat.pow_add, ← Nat.div_div_eq_div_mul, hdiv, Nat.mul_comm (2 ^ 28),
      ← Nat.mul_assoc, Nat.add_zero]

theorem short_exp (he : n.e = 1022 + k) (hk : k ≤ 1024) :
    short (n.e - ExpBias + 1) = k := by
  rw [he, ExpBias, short_eq (by omega) (by omega)]
  omega

theorem chop_zero (he : n.e = 1022) : chop n = SetZero n := by
  unfold chop
  rw [short_exp (k := 0) he (by decide)]
  rfl

/-- With `k` bits before the point, the other ones are cleared. -/
theorem chop_cleared (hn : Finite n) (he : n.e = 1022 + k) (hk : 0 < k) (hk' : k ≤ 56) :
    Cleared (56 - k) n (chop n) := by
  unfold chop FractBits
  rw [short_exp he (by omega)]
  simp only []
  rw [if_neg (by omega)]
  by_cases hlow : 28 < k
  · rw [if_pos (by omega)]
    by_cases hpart : k < 56
    · rw [if_pos (by omega), show (2 * (28 : Nat) - (k : Int)).toNat = 56 - k by omega]
      exact cleared_low (toNat_clear_low n.l (by omega)) (by omega) rfl rfl rfl
    · obtain rfl : k = 56 := by omega
      rw [if_neg (by omega)]
      exact cleared_low (q := 0) (by omega) (by omega) rfl rfl rfl
  · rw [if_neg (by omega)]
    have hsplit : 56 - k = 28 + (28 - k) := by omega
    rw [hsplit]
    by_cases hpart : k < 28
    · rw [if_pos (by omega), show ((28 : Nat) - (k : Int)).toNat = 28 - k by omega]
      exact cleared_high hn.low_lt rfl (toNat_clear_low n.h (by omega)) rfl rfl
    · obtain rfl : k = 28 := by omega
      rw [if_neg (by omega)]
      refine cleared_high (q := 0) hn.low_lt rfl ?_ rfl rfl
      rw [Nat.pow_zero, Nat.div_one, Nat.mul_one]

/-- With more there is no fraction. -/
theorem chop_large (he : n.e = 1022 + k) (hk : 56 < k) (hk' : k ≤ 1024) : chop n = n := by
  unfold chop FractBits
  rw [short_exp he hk']
  simp only []
  rw [if_neg (by omega), if_pos (by omega), if_neg (by omega)]

/-- The magnitude as a fraction. -/
theorem mag_eq_div (hq : n.e - 1078 = -q) :
    mag n = (significand n : ℚ) / (2 ^ q : Nat) := by
  unfold mag
  rw [hq, zpow_neg, zpow_natCast, div_eq_mul_inv]
  push_cast
  rfl

theorem floor_mag (hq : n.e - 1078 = -q) : ⌊mag n⌋ = (significand n / 2 ^ q : Nat) := by
  rw [mag_eq_div hq, Rat.floor_natCast_div_natCast]
  exact_mod_cast rfl

/-- With so many bits behind the point it is below one. -/
theorem Finite.floor_zero (hn : Finite n) (hq : n.e - 1078 = -q) (hlow : 56 ≤ q) :
    ⌊mag n⌋ = 0 := by
  have hpow : 2 ^ 56 ≤ 2 ^ q := Nat.pow_le_pow_right (by decide) hlow
  rw [floor_mag hq, Nat.div_eq_of_lt (Nat.lt_of_lt_of_le hn.significand_lt hpow)]
  rfl

theorem mag_of_significand {c : Nat} (hq : n.e - 1078 = -q)
    (hsig : significand n = c * 2 ^ q) : mag n = c := by
  have hpos : ((2 ^ q : Nat) : ℚ) ≠ 0 := Nat.cast_ne_zero.2 (Nat.two_pow_pos q).ne'
  rw [mag_eq_div hq, hsig, Nat.cast_mul, mul_div_cancel_right₀ _ hpos]

theorem Finite.canonical (hn : Finite n) (he : n.e ≠ 1) : Canonical n where
  high := hn.high_lt
  low := hn.low_lt
  normal := Or.inl (BitVec.le_def.1 (hn.normal.resolve_right he))

theorem Cleared.canonical (h : Cleared q n d) (hn : Finite n) (he : n.e ≠ 1)
    (hq : q ≤ 55) : Canonical d := by
  have hhigh := Nat.lt_of_le_of_lt h.high hn.high_lt
  have hlow := Nat.lt_of_le_of_lt h.low hn.low_lt
  refine ⟨hhigh, hlow, Or.inl ?_⟩
  have hpow : (2 : Nat) ^ 55 = 2 ^ (55 - q) * 2 ^ q := by
    rw [← Nat.pow_add, Nat.sub_add_cancel hq]
  have hdiv : 2 ^ (55 - q) ≤ FpiArm.significand n / 2 ^ q := by
    rw [Nat.le_div_iff_mul_le (Nat.two_pow_pos q), ← hpow]
    exact hn.significand_ge he
  have hsig : 2 ^ 55 ≤ FpiArm.significand d := by
    rw [h.significand, hpow]
    exact Nat.mul_le_mul_right _ hdiv
  unfold FpiArm.significand at hsig
  omega

theorem setZero_significand (n : Internal) : significand (SetZero n) = 0 := by
  have hzero : (0 : BitVec 32).toNat = 0 := by decide
  show (0 : BitVec 32).toNat * 2 ^ 28 + (0 : BitVec 32).toNat = 0
  rw [hzero, Nat.zero_mul]

theorem setZero_canonical (n : Internal) : Canonical (SetZero n) where
  high := by
    show (0 : BitVec 32).toNat < 2 ^ 28
    decide
  low := by
    show (0 : BitVec 32).toNat < 2 ^ 28
    decide
  normal := Or.inr ⟨rfl, setZero_significand n⟩

/-- From one half on the end of `frnd` takes the floor. -/
theorem chop_floor (hn : Finite n) (he : 1022 ≤ n.e) :
    Canonical (chop n) ∧ (chop n).s = n.s ∧ mag (chop n) = ⌊mag n⌋ := by
  have hsmall : n.e < 2047 := not_le.1 hn.small
  obtain ⟨k, hk⟩ : ∃ k : Nat, n.e = 1022 + k := ⟨(n.e - 1022).toNat, by omega⟩
  obtain rfl | hpos := Nat.eq_zero_or_pos k
  · rw [chop_zero (by omega), hn.floor_zero (q := 56) (by omega) (by decide)]
    exact ⟨setZero_canonical n, rfl, mag_eq_zero.2 (setZero_significand n)⟩
  by_cases hpoint : k ≤ 56
  · have hclear := chop_cleared hn hk hpos hpoint
    have hexp : n.e - 1078 = -(56 - k : Nat) := by omega
    refine ⟨hclear.canonical hn (by omega) (by omega), hclear.s, ?_⟩
    rw [floor_mag hexp]
    exact mag_of_significand (by rw [hclear.e, hexp]) hclear.significand
  · rw [chop_large hk (by omega) (by omega)]
    refine ⟨hn.canonical (by omega), rfl, ?_⟩
    have hint : mag n = (significand n * 2 ^ (k - 56) : Nat) := by
      have hexp : n.e - 1078 = (k - 56 : Nat) := by omega
      unfold mag
      rw [hexp, zpow_natCast]
      push_cast
      rfl
    rw [hint, Int.floor_natCast, Int.cast_natCast]

end

/-! ## The sum -/

/-- Two numbers of one sign, with a sum in the range of normal numbers. -/
structure Addends (x y : Internal) : Prop where
  left : Finite x
  right : Finite y
  sign : x.s = y.s
  normal : 2 ^ (-1022 : ℤ) ≤ mag x + mag y
  range : mag x + mag y < 2 ^ 1024 - 2 ^ 970

/-- What is assumed of `fpiadd` and `fpiround`: the sum is the exact one, rounded to nearest
even at 53 bits.  `fpisub` is not called, since the half has the sign of the operand. -/
structure Sums (fpi : Fpi) : Prop where
  small : ∀ {x y}, Addends x y → ¬ IsWeird (fpi.fpiadd x y)
  finite : ∀ {x y}, Addends x y → Finite (fpi.fpiround (fpi.fpiadd x y))
  sign : ∀ {x y}, Addends x y → (fpi.fpiround (fpi.fpiadd x y)).s = x.s
  rounded : ∀ {x y}, Addends x y →
    RoundsTo 53 (mag x + mag y) (mag (fpi.fpiround (fpi.fpiadd x y)))

/-- One half. -/
def half (s : Bool) : Internal := { fpconst 6 with s := s }

section
variable {fpi : Fpi} {m : Internal}

theorem half_finite (s : Bool) : Finite (half s) := by
  cases s <;> exact ⟨by decide, by decide, by decide, by decide, by decide⟩

theorem mag_half (s : Bool) : mag (half s) = 1 / 2 := by
  have hsig : significand (half s) = 2 ^ 55 := by cases s <;> decide
  have hexp : (half s).e - 1078 = -56 := by cases s <;> decide
  unfold mag
  rw [hsig, hexp]
  norm_num

theorem Finite.mag_lt (hm : Finite m) : mag m + 1 / 2 < 2 ^ 1024 - 2 ^ 970 := by
  have hlt := hm.significand_lt
  have hmod := hm.significand_mod
  have hsmall : m.e < 2047 := not_le.1 hm.small
  have hsig : (significand m : ℚ) ≤ 2 ^ 56 - 8 := by
    have hcast : ((significand m : Nat) : ℚ) ≤ (2 ^ 56 - 8 : Nat) :=
      Nat.cast_le.2 (by omega)
    norm_num at hcast ⊢
    exact hcast
  have hunit : (2 : ℚ) ^ (m.e - 1078) ≤ 2 ^ 968 := by
    rw [← zpow_natCast]
    exact unit_le (by omega)
  have hmag : mag m ≤ (2 ^ 56 - 8) * 2 ^ 968 :=
    mul_le_mul hsig hunit (unit_pos _).le (by norm_num)
  have htop : (2 : ℚ) ^ 1024 = 2 ^ 56 * 2 ^ 968 := by rw [← pow_add]
  have hulp : (2 : ℚ) ^ 970 = 2 ^ 2 * 2 ^ 968 := by rw [← pow_add]
  have hone : (1 : ℚ) ≤ 2 ^ 968 := one_le_pow₀ one_le_two
  rw [htop, hulp]
  generalize (2 : ℚ) ^ 968 = u at hmag hone ⊢
  linarith

theorem half_addends (hm : Finite m) : Addends (half m.s) m where
  left := half_finite m.s
  right := hm
  sign := rfl
  normal := by
    have hnonneg := mag_nonneg m
    have hle : (2 : ℚ) ^ (-1022 : ℤ) ≤ 2 ^ (-1 : ℤ) := unit_le (by decide)
    rw [mag_half]
    rw [zpow_neg_one] at hle
    linarith
  range := by
    rw [mag_half, add_comm]
    exact hm.mag_lt

/-- The half has the sign of the operand, and the two are added. -/
theorem frnd_eq (hfpi : Sums fpi) (hm : Finite m) :
    frnd fpi m = chop (fpi.fpiround (fpi.fpiadd (half m.s) m)) := by
  have hsmall := hfpi.small (half_addends hm)
  unfold frnd
  cases hs : m.s with
  | false =>
      rw [hs] at hsmall
      have hadd : fadd fpi (fpconst 6) m = fpi.fpiadd (half false) m := by
        unfold fadd
        rw [if_pos (by rw [hs]; rfl)]
        rfl
      simp only [Bool.false_eq_true, if_false, hadd]
      rw [if_neg hsmall]
  | true =>
      rw [hs] at hsmall
      have hsub : fsub fpi (fpconst 6) m = fpi.fpiadd (half true) m := by
        show (if (half true).s = m.s then fpi.fpiadd else fpi.fpisub) (half true) m = _
        rw [if_pos (by rw [hs]; rfl)]
      simp only [if_true, hsub]
      rw [if_neg hsmall]

/-- A number of one half at least has its first bit at the point or before. -/
theorem Finite.exp_ge (hm : Finite m) (hmag : 1 / 2 ≤ mag m) : 1022 ≤ m.e := by
  have hsig : (significand m : ℚ) < 2 ^ 56 := by exact_mod_cast hm.significand_lt
  have hlt : mag m < 2 ^ 56 * 2 ^ (m.e - 1078) := mul_lt_mul_of_pos_right hsig (unit_pos _)
  have hpow := lt_of_le_of_lt hmag hlt
  rw [range_eq, one_div, ← zpow_neg_one, unit_lt_iff] at hpow
  omega

/-- `frnd` is the floor of the rounded sum. -/
theorem frnd_eq_floor (hfpi : Sums fpi) (hm : Finite m) :
    Canonical (frnd fpi m) ∧ (frnd fpi m).s = m.s ∧
      ∃ y : ℚ, RoundsTo 53 (mag m + 1 / 2) y ∧ mag (frnd fpi m) = ⌊y⌋ := by
  have hadd := half_addends hm
  have hround := hfpi.rounded hadd
  rw [mag_half, add_comm] at hround
  have hge : (2 : ℚ) ^ (-1 : ℤ) ≤ mag (fpi.fpiround (fpi.fpiadd (half m.s) m)) := by
    apply hround.power_le (by decide)
    rw [zpow_neg_one, ← one_div]
    linarith [mag_nonneg m]
  rw [zpow_neg_one, ← one_div] at hge
  have hfinite := hfpi.finite hadd
  obtain ⟨hcanonical, hs, hmag⟩ := chop_floor hfinite (hfinite.exp_ge hge)
  rw [frnd_eq hfpi hm]
  exact ⟨hcanonical, hs.trans (hfpi.sign hadd), _, hround, hmag⟩

end

/-! ### Exact sums -/

/-- `2 ^ 55 ≤ c`, or fewer bits at the smallest exponent, as two words. -/
def pack (s : Bool) (e : Int) (c : Nat) : Internal :=
  ⟨s, e, BitVec.ofNat 32 (c % 2 ^ 28), BitVec.ofNat 32 (c / 2 ^ 28)⟩

/-- The exact sum of two numbers of one sign, as a multiple of `2 ^ (e - 1131)`. -/
def exactSum (x y : Internal) (e : Int) : Nat :=
  (significand x * 2 ^ (x.e - e).toNat + significand y * 2 ^ (y.e - e).toNat) * 2 ^ 53

/-- The sum rounded, with the exponent that its last bit gives it. -/
def exactAdd (x y : Internal) : Internal :=
  let e := min x.e y.e
  let a := exactSum x y e
  let q := Nat.log2 a - 52
  let c := rne a q
  if c < 2 ^ 53 then pack x.s (e + q - 56) (c * 8) else pack x.s (e + q - 55) (2 ^ 55)

/-- Routines that round at once. -/
def exactFpi : Fpi where
  fpiadd := exactAdd
  fpisub := exactAdd
  fpiround := id

section
variable {x y : Internal} {s : Bool} {e : Int} {c : Nat}

theorem pack_low : (pack s e c).l.toNat = c % 2 ^ 28 := by
  show (BitVec.ofNat 32 (c % 2 ^ 28)).toNat = c % 2 ^ 28
  rw [BitVec.toNat_ofNat]
  omega

theorem pack_high (hc : c < 2 ^ 56) : (pack s e c).h.toNat = c / 2 ^ 28 := by
  show (BitVec.ofNat 32 (c / 2 ^ 28)).toNat = c / 2 ^ 28
  rw [BitVec.toNat_ofNat]
  omega

theorem pack_significand (hc : c < 2 ^ 56) : significand (pack s e c) = c := by
  unfold significand
  rw [pack_low, pack_high hc]
  omega

theorem pack_mag (hc : c < 2 ^ 56) : mag (pack s e c) = c * 2 ^ (e - 1078) := by
  unfold mag
  rw [pack_significand hc]
  rfl

theorem pack_finite (hc : c < 2 ^ 56) (hlow : 2 ^ 55 ≤ c) (hmod : c % 8 = 0)
    (he : e < 2047) : Finite (pack s e c) where
  small := not_le.2 he
  high := by
    rw [BitVec.lt_def, pack_high hc]
    show c / 2 ^ 28 < 2 ^ 28
    omega
  low := by
    rw [BitVec.lt_def, pack_low]
    exact Nat.mod_lt c (Nat.two_pow_pos 28)
  guard := by
    refine (and_low_eq_zero _ (k := 3) (by decide)).2 ?_
    rw [pack_low]
    omega
  normal := by
    refine Or.inl ?_
    rw [BitVec.le_def, pack_high hc]
    show 2 ^ 27 ≤ c / 2 ^ 28
    omega

theorem unit_shift {j : Nat} {k k' : ℤ} (hk : k' = j + k) :
    ((2 ^ j : Nat) : ℚ) * 2 ^ k = 2 ^ k' := by
  rw [hk, zpow_add₀ two_ne_zero, zpow_natCast]
  push_cast
  rfl

theorem mag_scaled (he : e ≤ x.e) :
    mag x = (significand x * 2 ^ (x.e - e).toNat * 2 ^ 53 : Nat) * 2 ^ (e - 1131) := by
  have hexp : x.e - 1078 = (x.e - e).toNat + (53 + (e - 1131)) := by omega
  unfold mag
  rw [hexp, zpow_add₀ two_ne_zero, zpow_natCast, zpow_add₀ two_ne_zero]
  push_cast
  rw [← mul_assoc, ← mul_assoc]

theorem exactSum_eq (hx : e ≤ x.e) (hy : e ≤ y.e) :
    mag x + mag y = exactSum x y e * 2 ^ (e - 1131) := by
  rw [mag_scaled hx, mag_scaled hy, ← add_mul, ← Nat.cast_add, ← Nat.add_mul]
  rfl

/-- The exponent of a sum in range that is rounded to `c` units. -/
theorem range_exp {k c : ℤ} {a : ℚ} (h : RoundsAt 53 k c a) (ha : a < 2 ^ 1024 - 2 ^ 970) :
    k ≤ 971 ∧ (c = 2 ^ 53 → k ≤ 970) := by
  have htop : (2 : ℚ) ^ 1024 = 2 ^ 53 * 2 ^ (971 : ℤ) := by
    rw [← zpow_natCast, ← zpow_natCast, ← zpow_add₀ two_ne_zero]
    rfl
  have hulp : (2 : ℚ) ^ (971 : ℤ) = 2 * 2 ^ 970 := by
    rw [← zpow_natCast, ← unit_succ]
    rfl
  have hlower := h.lower
  have hnear := (abs_le.1 h.near).1
  constructor
  · by_contra hlt
    have hunit : 2 * (2 : ℚ) ^ (971 : ℤ) ≤ 2 ^ k := by
      rw [← unit_succ]
      exact unit_le (by omega)
    rw [htop] at ha
    have hpos : (0 : ℚ) < 2 ^ (971 : ℤ) := unit_pos 971
    generalize (2 : ℚ) ^ (971 : ℤ) = u at *
    generalize (2 : ℚ) ^ k = v at *
    generalize (2 : ℚ) ^ 970 = w at *
    linarith only [ha, hulp, hpos, hlower, hunit]
  · rintro rfl
    by_contra hlt
    have hunit : (2 : ℚ) ^ (971 : ℤ) ≤ 2 ^ k := unit_le (by omega)
    rw [htop] at ha
    push_cast at hnear
    generalize (2 : ℚ) ^ (971 : ℤ) = u at *
    generalize (2 : ℚ) ^ k = v at *
    generalize (2 : ℚ) ^ 970 = w at *
    linarith

/-- The units of the sum. -/
theorem exactSum_roundsAt (h : Addends x y) (he : e = min x.e y.e) :
    RoundsAt 53 ((Nat.log2 (exactSum x y e) - 52 : Nat) + (e - 1131))
      (rne (exactSum x y e) (Nat.log2 (exactSum x y e) - 52)) (mag x + mag y) := by
  have hsum := exactSum_eq (x := x) (y := y) (e := e) (by omega) (by omega)
  have hne : exactSum x y e ≠ 0 := by
    intro hzero
    have hnormal := h.normal
    rw [hsum, hzero, Nat.cast_zero, zero_mul] at hnormal
    exact absurd hnormal (not_le.2 (unit_pos _))
  have hbits : 53 ≤ Nat.log2 (exactSum x y e) := by
    have hpos := Nat.pos_of_ne_zero (Nat.ne_zero_of_mul_ne_zero_left hne)
    rw [Nat.le_log2 hne]
    exact Nat.le_mul_of_pos_left _ hpos
  have hlow := Nat.log2_self_le hne
  have hhigh := Nat.lt_log2_self (n := exactSum x y e)
  generalize exactSum x y e = a at *
  obtain ⟨q, hq⟩ : ∃ q, Nat.log2 a = 52 + q := ⟨Nat.log2 a - 52, by omega⟩
  rw [hq] at hlow hhigh ⊢
  rw [hsum, Nat.add_sub_cancel_left]
  refine rne_roundsAt (e - 1131) ?_ ?_
  · rw [Nat.pow_add] at hlow
    omega
  · rw [Nat.add_right_comm, Nat.pow_add] at hhigh
    exact hhigh

theorem exactAdd_spec (h : Addends x y) : Finite (exactAdd x y) ∧ (exactAdd x y).s = x.s ∧
    RoundsTo 53 (mag x + mag y) (mag (exactAdd x y)) := by
  unfold exactAdd
  simp only []
  obtain ⟨e, he⟩ : ∃ e, e = min x.e y.e := ⟨_, rfl⟩
  have hround := exactSum_roundsAt h he
  rw [← he]
  generalize Nat.log2 (exactSum x y e) - 52 = q at *
  generalize hc : rne (exactSum x y e) q = c at *
  obtain ⟨hexp, hexp'⟩ := range_exp hround h.range
  have hlow : 2 ^ 52 ≤ c := by
    have hle := hround.le_of_le (a := 2 ^ 52) (by
      have hlower := hround.lower
      push_cast
      linarith)
    exact_mod_cast hle
  have hhigh : c ≤ 2 ^ 53 := by
    have hle := hround.ge_of_ge (a := 2 ^ 53) (by
      have hupper := hround.upper
      push_cast
      linarith)
    exact_mod_cast hle
  split
  · next hlt =>
      have hfinite := pack_finite (s := x.s) (e := e + q - 56) (c := c * 8) (by omega)
        (by omega) (by omega) (by omega)
      refine ⟨hfinite, rfl, _, _, hround, ?_⟩
      rw [pack_mag (by omega), Nat.cast_mul, mul_assoc, Int.cast_natCast]
      exact congrArg _ (unit_shift (j := 3) (by omega))
  · next hge =>
      obtain rfl : c = 2 ^ 53 := by omega
      have hexp := hexp' (by norm_num)
      have hfinite := pack_finite (s := x.s) (e := e + q - 55) (c := 2 ^ 55) (by decide)
        (by decide) (by decide) (by omega)
      refine ⟨hfinite, rfl, _, _, hround, ?_⟩
      rw [pack_mag (by decide), Int.cast_natCast, Nat.pow_add 2 53 2, Nat.cast_mul,
        mul_assoc]
      exact congrArg _ (unit_shift (j := 2) (by omega))

theorem exactFpi_fpiadd : exactFpi.fpiadd = exactAdd := rfl

theorem exactFpi_fpiround : exactFpi.fpiround = id := rfl

/-- There are such routines. -/
theorem exactFpi_sums : Sums exactFpi where
  small h := by
    rw [exactFpi_fpiadd]
    exact (exactAdd_spec h).1.small
  finite h := by
    rw [exactFpi_fpiround, exactFpi_fpiadd, id_eq]
    exact (exactAdd_spec h).1
  sign h := by
    rw [exactFpi_fpiround, exactFpi_fpiadd, id_eq]
    exact (exactAdd_spec h).2.1
  rounded h := by
    rw [exactFpi_fpiround, exactFpi_fpiadd, id_eq]
    exact (exactAdd_spec h).2.2

end

/-! ## The result -/

section
variable {fpi : Fpi} {m : Internal}

/-- `d` is `m` rounded to an integer. -/
structure Rounded (m d : Internal) : Prop where
  integral : ∃ i : ℤ, value d = i
  near : |value d - value m| ≤ 1 / 2
  sign : value d ≠ 0 → d.s = m.s
  kept : (∃ i : ℤ, value m = i) → d = m

theorem value_int {n : Internal} (h : ∃ i : ℤ, mag n = i) : ∃ i : ℤ, value n = i := by
  obtain ⟨i, hi⟩ := h
  unfold value
  split
  · exact ⟨-i, by rw [hi, Int.cast_neg]⟩
  · exact ⟨i, hi⟩

theorem value_sub {d : Internal} (hs : d.s = m.s) :
    |value d - value m| = |mag d - mag m| := by
  unfold value
  rw [hs]
  split
  · rw [neg_sub_neg, abs_sub_comm]
  · rfl

/-- Below the normal numbers zero is the only integer. -/
theorem Finite.canonical_of_int (hm : Finite m) (h : ∃ i : ℤ, value m = i) :
    Canonical m := by
  by_cases he : m.e = 1
  · have hint : mag m = ⌊mag m⌋ := by
      obtain ⟨i, hi⟩ := h
      unfold value at hi
      split at hi
      · rw [neg_eq_iff_eq_neg, ← Int.cast_neg] at hi
        rw [hi, Int.floor_intCast]
      · rw [hi, Int.floor_intCast]
    rw [hm.floor_zero (q := 1077) (by omega) (by decide), Int.cast_zero] at hint
    exact ⟨hm.high_lt, hm.low_lt, Or.inr ⟨he, mag_eq_zero.1 hint⟩⟩
  · exact hm.canonical he

/-- Integers at no more than one half from each other are the same. -/
theorem int_eq_of_near {x y : ℚ} (hx : ∃ i : ℤ, x = i) (hy : ∃ i : ℤ, y = i)
    (hnear : |x - y| ≤ 1 / 2) : x = y := by
  obtain ⟨i, rfl⟩ := hx
  obtain ⟨j, rfl⟩ := hy
  have hlt : |i - j| < 1 := by
    have hcast : ((|i - j| : ℤ) : ℚ) < 1 := by
      push_cast
      linarith
    exact_mod_cast hcast
  rw [Int.abs_lt_one_iff, sub_eq_zero] at hlt
  rw [hlt]

/-- **`RNDF`.** `frnd` rounds a finite number to a nearest integer, and keeps integers,
except for the number just below one half and the odd integers of 53 bits. -/
theorem frnd_nearest_iff (hfpi : Sums fpi) (hm : Finite m) :
    Rounded m (frnd fpi m) ↔ mag m ≠ 1 / 2 - 1 / 2 ^ 54 ∧
      ¬ ∃ n : ℤ, mag m = n ∧ Odd n ∧ 2 ^ 52 ≤ n ∧ n < 2 ^ 53 := by
  obtain ⟨hcanonical, hs, y, hround, hmag⟩ := frnd_eq_floor hfpi hm
  have hfloor := floor_add_half_iff (by decide) hm.representable hround
  have hcond : (∃ n : ℤ, mag m = n ∧ Odd n ∧ 2 ^ 53 ≤ 2 * n ∧ n < 2 ^ 53) ↔
      ∃ n : ℤ, mag m = n ∧ Odd n ∧ 2 ^ 52 ≤ n ∧ n < 2 ^ 53 := by
    refine exists_congr fun n => and_congr_right fun _ => and_congr_right fun _ => ?_
    omega
  rw [← hmag, ← value_sub hs, hcond] at hfloor
  rw [← hfloor]
  have hint : ∃ i : ℤ, value (frnd fpi m) = i := value_int ⟨_, hmag⟩
  constructor
  · exact fun h => h.near
  · intro hnear
    refine ⟨hint, hnear, fun _ => hs, fun hwhole => ?_⟩
    refine hcanonical.eq_of_mag (hm.canonical_of_int hwhole) hs ?_
    have hvalue := int_eq_of_near hint hwhole hnear
    have hzero := value_sub hs
    rw [hvalue, sub_self, abs_zero] at hzero
    exact sub_eq_zero.1 (abs_eq_zero.1 hzero.symm)

end

/-- 2.5 -/
def twoAndHalf : Internal := ⟨false, 0x400, 0, 0x0A000000⟩

/-- Just below 0.5. -/
def belowHalf : Internal := ⟨false, 0x3FD, 0x0FFFFFF8, 0x0FFFFFFF⟩

/-- `2 ^ 52 + 1` -/
def oddLarge : Internal := ⟨false, 0x433, 0x00000008, 0x08000000⟩

theorem mag_sample {n : Internal} {c : Nat} {k : Int} (hsig : significand n = c)
    (hexp : n.e = 1078 + k) : mag n = c * 2 ^ k := by
  unfold mag
  rw [hsig, hexp, add_sub_cancel_left]

theorem mag_one : mag (fpconst 1) = 1 := by
  rw [mag_sample (c := 2 ^ 55) (k := -55) (by decide) (by decide)]
  norm_num

theorem mag_belowHalf : mag belowHalf = 1 / 2 - 1 / 2 ^ 54 := by
  rw [mag_sample (c := 2 ^ 56 - 8) (k := -57) (by decide) (by decide)]
  norm_num

theorem mag_oddLarge : mag oddLarge = 2 ^ 52 + 1 := by
  rw [mag_sample (c := 2 ^ 55 + 8) (k := -3) (by decide) (by decide)]
  norm_num

theorem mag_nextLarge : mag { oddLarge with l := 0x10 } = 2 ^ 52 + 2 := by
  rw [mag_sample (c := 2 ^ 55 + 16) (k := -3) (by decide) (by decide)]
  norm_num

theorem two_and_half_rounded :
    frnd exactFpi twoAndHalf = fpconst 3 ∧
      Rounded twoAndHalf (frnd exactFpi twoAndHalf) := by
  have hfinite : Finite twoAndHalf :=
    ⟨by decide, by decide, by decide, by decide, by decide⟩
  have hmag : mag twoAndHalf = 5 / 2 := by
    rw [mag_sample (c := 5 * 2 ^ 53) (k := -54) (by decide) (by decide)]
    norm_num
  refine ⟨by decide +kernel, (frnd_nearest_iff exactFpi_sums hfinite).2 ⟨?_, ?_⟩⟩
  · rw [hmag]
    norm_num
  · rintro ⟨n, hn, -, hlow, -⟩
    have hcast : ((2 ^ 52 : ℤ) : ℚ) ≤ n := Int.cast_le.2 hlow
    rw [← hn, hmag] at hcast
    norm_num at hcast

/-- With exact sums, the number just below one half becomes one, and an odd integer becomes
the next one. -/
theorem rounded_away : Sums exactFpi ∧
    (Finite belowHalf ∧ frnd exactFpi belowHalf = fpconst 1 ∧
      ¬ Rounded belowHalf (frnd exactFpi belowHalf)) ∧
    (Finite oddLarge ∧ frnd exactFpi oddLarge = { oddLarge with l := 0x10 } ∧
      ¬ Rounded oddLarge (frnd exactFpi oddLarge)) := by
  have hbelow : frnd exactFpi belowHalf = fpconst 1 := by decide +kernel
  have hodd : frnd exactFpi oddLarge = { oddLarge with l := 0x10 } := by decide +kernel
  refine ⟨exactFpi_sums, ⟨?_, hbelow, ?_⟩, ⟨?_, hodd, ?_⟩⟩
  · exact ⟨by decide, by decide, by decide, by decide, by decide⟩
  · intro hround
    have hnear := hround.near
    rw [hbelow, value_sub (by decide), mag_one, mag_belowHalf] at hnear
    norm_num [abs_of_pos] at hnear
  · exact ⟨by decide, by decide, by decide, by decide, by decide⟩
  · intro hround
    have hnear := hround.near
    rw [hodd, value_sub (by decide), mag_oddLarge, mag_nextLarge] at hnear
    norm_num at hnear

end Kirkwood.Ports.FpiArm
