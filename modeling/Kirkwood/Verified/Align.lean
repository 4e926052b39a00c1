import Mathlib.Data.Int.Init
import Kirkwood.Verified.CInt

/-!
# Rounding to an alignment

`roundDown B x` and `roundUp B x` are the neighbouring multiples of the block
size `B`.  The facts below are the ones a transfer routine needs: a rounded
range covers the range it came from, and never leaves an aligned range that
already covered it.  `long_roundUp_band` connects them to the mask arithmetic
of `CInt`.
-/

namespace Kirkwood.Verified.Align

open Kirkwood.Verified.CInt

/-- The largest multiple of `B` that is at most `x`. -/
def roundDown (B x : Int) : Int := x - x % B

/-- The smallest multiple of `B` that is at least `x`. -/
def roundUp (B x : Int) : Int := roundDown B (x + (B - 1))

theorem dvd_roundDown (B x : Int) : B ∣ roundDown B x :=
  Int.dvd_self_sub_emod

theorem dvd_roundUp (B x : Int) : B ∣ roundUp B x :=
  dvd_roundDown B _

/-- Rounding up commutes with a multiple of the block size. -/
theorem roundUp_add_of_dvd (x : Int) {B y : Int} (hdvd : B ∣ y) :
    roundUp B (x + y) = roundUp B x + y := by
  obtain ⟨c, rfl⟩ := hdvd
  have hshift : x + B * c + (B - 1) = x + (B - 1) + B * c := by omega
  unfold roundUp roundDown
  rw [hshift, Int.add_mul_emod_self_left]
  omega

section Bounds

variable {B : Int} (hB : 0 < B)

include hB

theorem roundDown_le (x : Int) : roundDown B x ≤ x := by
  have := Int.emod_nonneg x (by omega : B ≠ 0)
  unfold roundDown
  omega

theorem lt_roundDown_add (x : Int) : x < roundDown B x + B := by
  have := Int.emod_lt_of_pos x hB
  unfold roundDown
  omega

theorem le_roundUp (x : Int) : x ≤ roundUp B x := by
  have := lt_roundDown_add hB (x + (B - 1))
  unfold roundUp
  omega

theorem roundUp_lt (x : Int) : roundUp B x < x + B := by
  have := roundDown_le hB (x + (B - 1))
  unfold roundUp
  omega

/-- A multiple of `B` at or below `x` is at or below `x` rounded down. -/
theorem le_roundDown {x y : Int} (hdvd : B ∣ y) (hle : y ≤ x) :
    y ≤ roundDown B x := by
  obtain ⟨c, hc⟩ := hdvd
  obtain ⟨d, hd⟩ := dvd_roundDown B x
  have hlt := lt_roundDown_add hB x
  rw [hd] at hlt ⊢
  rw [hc] at hle ⊢
  have hcd : B * c < B * (d + 1) := by
    rw [Int.mul_add, Int.mul_one]
    omega
  have : c < d + 1 := Int.lt_of_mul_lt_mul_left hcd (by omega)
  exact Int.mul_le_mul_of_nonneg_left (by omega) (by omega)

/-- A multiple of `B` at or above `x` is at or above `x` rounded up. -/
theorem roundUp_le {x y : Int} (hdvd : B ∣ y) (hle : x ≤ y) :
    roundUp B x ≤ y := by
  by_contra hlt
  have hstep : y + B ≤ roundUp B x :=
    le_roundDown hB (Int.dvd_add hdvd (Int.dvd_refl B)) (by
      have := roundUp_lt hB x
      obtain ⟨c, hc⟩ := hdvd
      obtain ⟨d, hd⟩ := dvd_roundUp B x
      have hcd : B * c < B * d := by omega
      have : c < d := Int.lt_of_mul_lt_mul_left hcd (by omega)
      have : B * (c + 1) ≤ B * d :=
        Int.mul_le_mul_of_nonneg_left (by omega) (by omega)
      rw [Int.mul_add, Int.mul_one] at this
      omega)
  have := roundUp_lt hB x
  omega

theorem roundUp_eq_self_iff (x : Int) : roundUp B x = x ↔ B ∣ x := by
  constructor
  · intro h
    rw [← h]
    exact dvd_roundUp B x
  · intro h
    have hle := roundUp_le hB h (Int.le_refl x)
    have hge := le_roundUp hB x
    omega

end Bounds

/-! ## The mask form -/

/-- Rounding down by a complemented 32-bit mask rounds the low 32 bits. -/
theorem band_compl_eq (x : Int) {k : Nat} (hk : k ≤ 32) :
    band x (compl (2 ^ k - 1)) = roundDown (2 ^ k) x - (x - x % 2 ^ 32) := by
  rw [band_compl_low x hk]
  unfold roundDown
  omega

/-- Adding the mask and clearing its bits rounds up, seen through a `long`. -/
theorem long_roundUp_band (x : Int) {k : Nat} (hk : k ≤ 32) :
    long (band (x + ((2 ^ k - 1 : Nat) : Int)) (compl (2 ^ k - 1))) =
      long (roundUp (2 ^ k) x) := by
  have hpow : (1 : Nat) ≤ 2 ^ k := Nat.one_le_two_pow
  have hcast : ((2 ^ k - 1 : Nat) : Int) = 2 ^ k - 1 := by
    rw [Int.natCast_sub hpow, Int.natCast_pow]
    rfl
  rw [band_compl_eq _ hk, hcast]
  apply long_congr
  unfold roundUp
  omega

end Kirkwood.Verified.Align
