import Mathlib.Algebra.Order.Group.Int
import Mathlib.Algebra.Order.Group.Abs
import Kirkwood.Ports.UartKirkwood

/-!
# The baud divisor

`kw_baud` divides the clock by sixteen times the rate, rounding to the nearest, and writes
the low sixteen bits of the quotient.  Rates for which a product overflows, or whose divisor
is not one of sixteen bits, are not refused.

## Main results

* `bgc_denotes`: the quotient, and the overflows of the expression;
* `rounded_iff`: the divisors that are right;
* `kw_baud_right_iff`: the rates for which `kw_baud` is.
-/

namespace Kirkwood.Ports.UartBaud

open Kirkwood.Verified.CInt
open Kirkwood.Verified.IntExpr
open Kirkwood.Ports.UartKirkwood

/-- The divisor that is programmed. -/
def divisor (reg : UartReg) : Nat := 256 * reg.dlh.toNat + reg.dll.toNat

/-- `q` is at most one half away from `n / d`. -/
def Nearest (n d q : Int) : Prop := 2 * |d * q - n| ≤ d

/-- `kw_baud` returns, without an overflow, and refuses or has programmed the divisor. -/
def Right (s : Line) (baud : Int) : Prop :=
  (∀ e, bgc s.uart.freq baud = some e → e.overflowed = false) ∧
  ∃ r s', kw_baud s baud = some (r, s') ∧
    (r = -1 ∧ s' = s ∨
      r = 0 ∧ 1 ≤ divisor s'.reg ∧ divisor s'.reg ≤ 65535 ∧
        Nearest s.uart.freq (16 * baud) (divisor s'.reg))

/-- No product overflows, and the divisor is from 1 to 65535. -/
structure Supported (freq baud : Int) : Prop where
  product : 16 * baud < 2 ^ 31
  sum : freq + 8 * baud < 2 ^ 31
  slow : freq + 8 * baud ≤ 2 ^ 20 * baud
  fast : 8 * baud < freq

instance (freq baud : Int) : Decidable (Supported freq baud) :=
  decidable_of_iff
    (16 * baud < 2 ^ 31 ∧ freq + 8 * baud < 2 ^ 31 ∧ freq + 8 * baud ≤ 2 ^ 20 * baud ∧
      8 * baud < freq)
    ⟨fun h => ⟨h.1, h.2.1, h.2.2.1, h.2.2.2⟩, fun h => ⟨h.1, h.2, h.3, h.4⟩⟩

/-! ## The expression -/

section
variable {freq baud : Int}

theorem bgc_denotes {e : Expr} (h : bgc freq baud = some e) :
    Denotes e ((freq + 8 * baud - 1).tdiv (16 * baud))
      ((((True ∧ (True ∧ True ∧ Fits (8 * baud)) ∧ Fits (freq + 8 * baud)) ∧ True ∧
        Fits (freq + 8 * baud - 1)) ∧ (True ∧ True ∧ Fits (16 * baud)) ∧
          Fits ((freq + 8 * baud - 1).tdiv (16 * baud)))) :=
  .div (.sub (.add (.var freq) (.mul (.lit 8) (.var baud))) (.lit 1))
    (.mul (.lit 16) (.var baud)) h

/-- Of positive rates, those whose products fit are computed without an overflow. -/
theorem bgc_exact (hbaud : 0 < baud) (hfreq : Fits freq) {e : Expr}
    (h : bgc freq baud = some e) :
    e.overflowed = false ↔ 16 * baud < 2 ^ 31 ∧ freq + 8 * baud < 2 ^ 31 := by
  rw [(bgc_denotes h).exact]
  constructor
  · rintro ⟨⟨⟨-, -, hsum⟩, -⟩, ⟨-, -, hproduct⟩, -⟩
    exact ⟨hproduct.2, hsum.2⟩
  · rintro ⟨hproduct, hsum⟩
    have hlo := hfreq.1
    have hquot := Int.natAbs_tdiv_le_natAbs (freq + 8 * baud - 1) (16 * baud)
    refine ⟨⟨⟨trivial, ⟨trivial, trivial, ?_⟩, ?_⟩, trivial, ?_⟩,
      ⟨trivial, trivial, ?_⟩, ?_⟩ <;> unfold Fits at * <;> omega

theorem bgc_some (hbaud : 0 < baud) (hproduct : 16 * baud < 2 ^ 31) :
    ∃ e, bgc freq baud = some e := by
  have hne : (16 * var baud : Expr).value ≠ 0 := by
    show long (16 * baud) ≠ 0
    rw [long_eq (by omega) hproduct]
    omega
  exact Option.ne_none_iff_exists'.1 (mt div_eq_none_iff.1 hne)

/-! ## The quotient -/

/-- The low sixteen bits of the quotient are the nearest divisor for the rates that are not
too slow or too fast. -/
theorem rounded_iff (hbaud : 0 < baud) {d : Int}
    (hd : d = (freq + 8 * baud - 1).tdiv (16 * baud) % 65536) :
    1 ≤ d ∧ Nearest freq (16 * baud) d ↔
      freq + 8 * baud ≤ 2 ^ 20 * baud ∧ 8 * baud < freq := by
  have hassoc (q : Int) : 16 * baud * q = 16 * (baud * q) := Int.mul_assoc 16 baud q
  have hnearest : Nearest freq (16 * baud) d ↔
      -(8 * baud) ≤ 16 * (baud * d) - freq ∧ 16 * (baud * d) - freq ≤ 8 * baud := by
    rw [Nearest, hassoc, ← abs_le]
    omega
  rw [hnearest]
  constructor
  · rintro ⟨h1, hnear⟩
    have hle : d ≤ 65535 := by omega
    have hlo : baud * 1 ≤ baud * d := Int.mul_le_mul_of_nonneg_left h1 hbaud.le
    have hhi : baud * d ≤ baud * 65535 := Int.mul_le_mul_of_nonneg_left hle hbaud.le
    have hge : 8 * baud ≤ freq := by omega
    refine ⟨by omega, lt_of_le_of_ne hge fun heq => ?_⟩
    have hzero : (freq + 8 * baud - 1).tdiv (16 * baud) = 0 :=
      Int.tdiv_eq_zero_of_lt (by omega) (by omega)
    rw [hzero] at hd
    omega
  · rintro ⟨hslow, hfast⟩
    have hquot : (freq + 8 * baud - 1).tdiv (16 * baud) =
        (freq + 8 * baud - 1) / (16 * baud) := Int.tdiv_eq_ediv_of_nonneg (by omega)
    have hle := Int.mul_ediv_self_le (x := freq + 8 * baud - 1) (k := 16 * baud) (by omega)
    have hlt :=
      Int.lt_mul_ediv_self_add (x := freq + 8 * baud - 1) (k := 16 * baud) (by omega)
    have hpos : 1 ≤ (freq + 8 * baud - 1) / (16 * baud) :=
      Int.le_ediv_of_mul_le (by omega) (by omega)
    have hmax : (freq + 8 * baud - 1) / (16 * baud) < 65536 :=
      Int.ediv_lt_of_lt_mul (by omega) (by omega)
    obtain rfl : d = (freq + 8 * baud - 1) / (16 * baud) := by omega
    rw [hassoc] at hle hlt
    omega

end

/-! ## The function -/

/-- The two halves that are written make up the low sixteen bits. -/
theorem divisor_write {reg : UartReg} {v : BitVec 32} (hlo : reg.dll = v &&& 0xff)
    (hhi : reg.dlh = (v >>> 8) &&& 0xff) : divisor reg = v.toNat % 65536 := by
  have hmask : (0xff : BitVec 32).toNat = 2 ^ 8 - 1 := rfl
  unfold divisor
  rw [hlo, hhi]
  simp only [BitVec.toNat_and, BitVec.toNat_ushiftRight, hmask,
    Nat.and_two_pow_sub_one_eq_mod, Nat.shiftRight_eq_div_pow]
  omega

/-- A rate that is not refused, and whose division is not by zero. -/
theorem kw_baud_some {s : Line} {baud : Int} (hbaud : 0 < baud) (hfreq : s.uart.freq ≠ 0)
    {e : Expr} (h : bgc s.uart.freq baud = some e) :
    ∃ s', kw_baud s baud = some (0, s') ∧
      divisor s'.reg = (BitVec.ofInt 32 e.value).toNat % 65536 := by
  have hargs : ¬ (s.uart.freq = 0 ∨ baud ≤ 0) := by omega
  have hcall := kw_baud_eq (s := s) baud
  have heffect : (Call.baud baud).effect s.uart.freq =
      .write (.of none 0 (BitVec.ofInt 32 e.value &&& 0xff)
        ((BitVec.ofInt 32 e.value >>> 8) &&& 0xff) baud) := by
    simp only [Call.effect, if_neg hargs, h]
  rw [heffect] at hcall
  exact ⟨_, hcall, divisor_write rfl rfl⟩

/-- The rates, of all that are positive, for which `kw_baud` is right. -/
theorem kw_baud_right_iff (s : Line) (baud : Int) (hbaud : 0 < baud) (hint : baud < 2 ^ 31)
    (hfreq : s.uart.freq ≠ 0) (hfits : Fits s.uart.freq) :
    Right s baud ↔ Supported s.uart.freq baud := by
  have hvalue {e : Expr} (he : bgc s.uart.freq baud = some e) (ho : e.overflowed = false) :
      (((BitVec.ofInt 32 e.value).toNat % 65536 : Nat) : Int) =
        (s.uart.freq + 8 * baud - 1).tdiv (16 * baud) % 65536 := by
    have hdenotes := bgc_denotes he
    rw [hdenotes.value (hdenotes.exact.1 ho), BitVec.toNat_ofInt]
    omega
  constructor
  · rintro ⟨hover, r, s', hcall, hr⟩
    cases he : bgc s.uart.freq baud with
    | none =>
        have hargs : ¬ (s.uart.freq = 0 ∨ baud ≤ 0) := by omega
        simp [kw_baud, hargs, he] at hcall
    | some e =>
        have ho := hover e he
        obtain ⟨hproduct, hsum⟩ := (bgc_exact hbaud hfits he).1 ho
        obtain ⟨t, ht, hdiv⟩ := kw_baud_some hbaud hfreq he
        obtain ⟨rfl, rfl⟩ : 0 = r ∧ t = s' := by
          have heq := ht.symm.trans hcall
          cases heq
          exact ⟨rfl, rfl⟩
        obtain ⟨h, -⟩ | ⟨-, h1, -, hnear⟩ := hr
        · exact absurd h (by decide)
        · rw [hdiv] at h1 hnear
          obtain ⟨hslow, hfast⟩ :=
            (rounded_iff hbaud (hvalue he ho)).1 ⟨by exact_mod_cast h1, hnear⟩
          exact ⟨hproduct, hsum, hslow, hfast⟩
  · intro h
    obtain ⟨e, he⟩ : ∃ e, bgc s.uart.freq baud = some e := bgc_some hbaud h.product
    have ho := (bgc_exact hbaud hfits he).2 ⟨h.product, h.sum⟩
    obtain ⟨t, ht, hdiv⟩ := kw_baud_some hbaud hfreq he
    obtain ⟨h1, hnear⟩ := (rounded_iff hbaud (hvalue he ho)).2 ⟨h.slow, h.fast⟩
    refine ⟨fun e' he' => ?_, 0, t, ht, .inr ⟨rfl, ?_⟩⟩
    · cases he.symm.trans he'
      exact ho
    · rw [hdiv]
      exact ⟨by exact_mod_cast h1, by omega, hnear⟩

/-- The rate of the console, and the divisor for it. -/
theorem console_right : Right reset 115200 ∧
    ∃ s, kw_baud reset 115200 = some (0, s) ∧ divisor s.reg = 109 := by
  have hright : Right reset 115200 :=
    (kw_baud_right_iff reset 115200 (by decide) (by decide) (by decide) (by decide)).2
      (by decide)
  exact ⟨hright, _, rfl, by decide⟩

/-- The divisor for 100 baud does not fit, and that for 2^28 baud divides by zero. -/
theorem slow_misprogrammed :
    (∃ s, kw_baud reset 100 = some (0, s) ∧ divisor s.reg = 59464) ∧
    kw_baud reset (2 ^ 28) = none ∧
    ¬ ∀ (s : Line) (baud : Int), 0 < baud → baud < 2 ^ 31 → s.uart.freq ≠ 0 →
      Fits s.uart.freq → Right s baud := by
  have hnone : kw_baud reset (2 ^ 28) = none := by decide
  refine ⟨⟨_, rfl, by decide⟩, hnone, fun h => ?_⟩
  obtain ⟨-, r, s', hcall, -⟩ :=
    h reset (2 ^ 28) (by decide) (by decide) (by decide) (by decide)
  rw [hnone] at hcall
  cases hcall

end Kirkwood.Ports.UartBaud
