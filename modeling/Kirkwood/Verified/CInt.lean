import Mathlib.Data.Nat.Bitwise

/-!
# C integers on a 32-bit machine

Values are mathematical integers.  What an object of a C type keeps of a value
is a function named after the type: `short` is 16 bits wide, `long` and `ulong`
are 32, `vlong` and `uvlong` 64.  Signed arithmetic that overflows wraps in two's
complement, as on the machines these compilers target.

Masks are `Nat`s.  `band x m` is the bit pattern of a 64-bit object masked with
an unsigned `m`: an unsigned mask narrower than its operand is extended with
*zeros*, so the complement of a 32-bit mask also clears bits 32 to 63.
`band_compl_low` is the place where that shows.
-/

namespace Kirkwood.Verified.CInt

/-! ## Conversions -/

/-- What a 16-bit signed object keeps of `x`. -/
def short (x : Int) : Int := (x + 2 ^ 15) % 2 ^ 16 - 2 ^ 15

/-- What a 32-bit signed object keeps of `x`. -/
def long (x : Int) : Int := (x + 2 ^ 31) % 2 ^ 32 - 2 ^ 31

/-- What a 64-bit signed object keeps of `x`. -/
def vlong (x : Int) : Int := (x + 2 ^ 63) % 2 ^ 64 - 2 ^ 63

/-- What a 32-bit unsigned object keeps of `x`. -/
def ulong (x : Int) : Int := x % 2 ^ 32

/-- What a 64-bit unsigned object keeps of `x`. -/
def uvlong (x : Int) : Int := x % 2 ^ 64

theorem short_eq {x : Int} (hlo : -2 ^ 15 ≤ x) (hhi : x < 2 ^ 15) :
    short x = x := by
  unfold short
  omega

theorem long_eq {x : Int} (hlo : -2 ^ 31 ≤ x) (hhi : x < 2 ^ 31) :
    long x = x := by
  unfold long
  omega

theorem vlong_eq {x : Int} (hlo : -2 ^ 63 ≤ x) (hhi : x < 2 ^ 63) :
    vlong x = x := by
  unfold vlong
  omega

theorem ulong_eq {x : Int} (hlo : 0 ≤ x) (hhi : x < 2 ^ 32) : ulong x = x := by
  unfold ulong
  omega

theorem long_range (x : Int) : -2 ^ 31 ≤ long x ∧ long x < 2 ^ 31 := by
  unfold long
  omega

theorem ulong_range (x : Int) : 0 ≤ ulong x ∧ ulong x < 2 ^ 32 := by
  unfold ulong
  omega

/-- Only the low 32 bits matter to a `long`. -/
theorem long_congr {x y : Int} (h : x % 2 ^ 32 = y % 2 ^ 32) :
    long x = long y := by
  unfold long
  omega

/-- A `long` is zero exactly when the low 32 bits are. -/
theorem long_eq_zero_iff (x : Int) : long x = 0 ↔ x % 2 ^ 32 = 0 := by
  unfold long
  omega

/-! ## Masks -/

/-- The pattern of the 64-bit value `x` masked with `m`. -/
def band (x : Int) (m : Nat) : Int := (((x % 2 ^ 64).toNat &&& m : Nat) : Int)

/-- The complement of a 32-bit unsigned mask. -/
def compl (m : Nat) : Nat := 2 ^ 32 - 1 - m

/-- Masking with a complemented low mask, on naturals: bits `k` to 31 stay. -/
private theorem nat_and_compl_low (y k : Nat) (hk : k ≤ 32) :
    y &&& (2 ^ 32 - 2 ^ k) = y % 2 ^ 32 / 2 ^ k * 2 ^ k := by
  have hmask : 2 ^ 32 - 2 ^ k = (2 ^ (32 - k) - 1) * 2 ^ k := by
    rw [Nat.sub_mul, ← Nat.pow_add, Nat.sub_add_cancel hk, Nat.one_mul]
  rw [hmask, ← Nat.shiftLeft_eq, ← Nat.shiftLeft_eq, ← Nat.shiftRight_eq_div_pow]
  apply Nat.eq_of_testBit_eq
  intro i
  simp only [Nat.testBit_and, Nat.testBit_shiftLeft, Nat.testBit_shiftRight,
    Nat.testBit_two_pow_sub_one, Nat.testBit_mod_two_pow]
  by_cases hik : k ≤ i
  · have hadd : k + (i - k) = i := by omega
    have hiff : (i - k < 32 - k) ↔ i < 32 := by omega
    simp [hik, hadd, hiff, Bool.and_comm]
  · simp [hik]

/-- The pattern of a 64-bit value, as a natural number. -/
private theorem exists_pattern (x : Int) :
    ∃ y : Nat, (x % 2 ^ 64).toNat = y ∧ (y : Int) = x % 2 ^ 64 :=
  ⟨_, rfl, Int.toNat_of_nonneg (Int.emod_nonneg _ (by decide))⟩

/-- A low mask keeps the residue. -/
theorem band_low (x : Int) {k : Nat} (hk : k ≤ 64) :
    band x (2 ^ k - 1) = x % 2 ^ k := by
  obtain ⟨y, hy, hyx⟩ := exists_pattern x
  rw [band, hy, Nat.and_two_pow_sub_one_eq_mod]
  push_cast
  rw [hyx]
  exact Int.emod_emod_of_dvd x (pow_dvd_pow 2 hk)

/-- A complemented low mask rounds down, and drops everything from bit 32 up. -/
theorem band_compl_low (x : Int) {k : Nat} (hk : k ≤ 32) :
    band x (compl (2 ^ k - 1)) = x % 2 ^ 32 - x % 2 ^ k := by
  have hpow : 1 ≤ 2 ^ k := Nat.one_le_two_pow
  have hmask : compl (2 ^ k - 1) = 2 ^ 32 - 2 ^ k := by
    unfold compl
    omega
  obtain ⟨y, hy, hyx⟩ := exists_pattern x
  rw [band, hy, hmask, nat_and_compl_low _ k hk]
  have hlow : x % 2 ^ 32 % 2 ^ k = x % 2 ^ k :=
    Int.emod_emod_of_dvd x (pow_dvd_pow 2 hk)
  have hdm := Int.mul_ediv_add_emod (x % 2 ^ 32) (2 ^ k)
  have hy32 : (y : Int) % 2 ^ 32 = x % 2 ^ 32 := by omega
  rw [hlow, Int.mul_comm, ← hy32] at hdm
  rw [← hy32]
  simp only [Int.natCast_mul, Int.natCast_ediv, Int.natCast_emod,
    Int.natCast_pow, Int.cast_ofNat_Int]
  omega

end Kirkwood.Verified.CInt
