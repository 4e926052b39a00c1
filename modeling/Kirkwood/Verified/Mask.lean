import Mathlib.Data.Nat.Bitwise

/-!
# Bits and fields of a register

`bit v` is the word with bit `v` alone.  A driver sets a bit of a register by
or-ing `bit v` in and clears it by and-ing the complement.  A field of several bits
is written by `put`.  A register of fields is `packed` from bytes.  The lemmas read
a register back after each.

## Main results

* `getLsbD_set`, `getLsbD_clear` — the bit written, and every other bit as it was.
* `ext_bits` — a register is its bits.
* `and_put_self`, `and_put_other`, `put_comm` — what a write of a field changes, and that
  writes of fields that share no bit commute.
* `and_low_eq_zero` — a mask of low bits tells the multiples of a power of two.
* `toNat_clear_low` — the complement of such a mask rounds down to one.
* `packed_byte0`, `packed_byte1`, `packed_byte2` — the bytes of a packed word.
-/

namespace Kirkwood.Verified.Mask

/-! ## Single bits -/

variable {w : Nat}

/-- The word with bit `v` alone. -/
def bit (v : Fin w) : BitVec w := 1#w <<< v.val

/-- `m |= (1<<v)` -/
def set (m : BitVec w) (v : Fin w) : BitVec w := m ||| bit v

/-- `m &= ~(1<<v)` -/
def clear (m : BitVec w) (v : Fin w) : BitVec w := m &&& ~~~bit v

theorem getLsbD_bit (v u : Fin w) : (bit v).getLsbD u = decide (u = v) := by
  have hu := u.isLt
  have hv := v.isLt
  rw [bit, BitVec.getLsbD_shiftLeft, BitVec.getLsbD_one]
  by_cases h : u = v
  · subst h
    simp [hu]
    omega
  · have hne : u.val ≠ v.val := fun heq => h (Fin.ext heq)
    by_cases hlt : u.val < v.val
    · simp [h, hlt]
    · have hpos : u.val - v.val ≠ 0 := by omega
      simp [h, hpos]

theorem getLsbD_set (m : BitVec w) (v u : Fin w) :
    (set m v).getLsbD u = (decide (u = v) || m.getLsbD u) := by
  rw [set, BitVec.getLsbD_or, getLsbD_bit, Bool.or_comm]

theorem getLsbD_clear (m : BitVec w) (v u : Fin w) :
    (clear m v).getLsbD u = (!decide (u = v) && m.getLsbD u) := by
  have hu := u.isLt
  rw [clear, BitVec.getLsbD_and, BitVec.getLsbD_not, getLsbD_bit, Bool.and_comm]
  simp [hu]

/-- Two registers with the same bits are the same. -/
theorem ext_bits {m n : BitVec w} (h : ∀ v : Fin w, m.getLsbD v = n.getLsbD v) :
    m = n :=
  BitVec.eq_of_getLsbD_eq fun i hi => h ⟨i, hi⟩

/-! ## Fields under a mask -/

/-- `(x & ~m) | v` -/
def put (x m v : BitVec w) : BitVec w := (x &&& ~~~m) ||| v

section
variable {x m m' v v' : BitVec w}

/-- Masks without a bit in common. -/
private theorem apart_bit (h : m &&& m' = 0#w) {i : Nat} :
    (m.getLsbD i && m'.getLsbD i) = false := by
  rw [← BitVec.getLsbD_and, h, BitVec.getLsbD_zero]

/-- A value within its mask. -/
private theorem within_bit (h : v &&& m = v) {i : Nat} (hi : v.getLsbD i = true) :
    m.getLsbD i = true := by
  rw [← h, BitVec.getLsbD_and, Bool.and_eq_true] at hi
  exact hi.2

theorem and_put_self (h : v &&& m = v) : put x m v &&& m = v := by
  apply BitVec.eq_of_getLsbD_eq
  intro i hi
  have hbit := within_bit h (i := i)
  simp only [put, BitVec.getLsbD_and, BitVec.getLsbD_or, BitVec.getLsbD_not]
  cases hm : m.getLsbD i <;> cases hv : v.getLsbD i <;> simp_all

theorem and_put_other (h : v &&& m = v) (hm : m &&& m' = 0#w) :
    put x m v &&& m' = x &&& m' := by
  apply BitVec.eq_of_getLsbD_eq
  intro i hi
  have hbit := within_bit h (i := i)
  have happart := apart_bit hm (i := i)
  simp only [put, BitVec.getLsbD_and, BitVec.getLsbD_or, BitVec.getLsbD_not]
  cases hm : m.getLsbD i <;> cases hv : v.getLsbD i <;> simp_all

theorem put_comm (h : v &&& m = v) (h' : v' &&& m' = v') (hm : m &&& m' = 0#w) :
    put (put x m v) m' v' = put (put x m' v') m v := by
  apply BitVec.eq_of_getLsbD_eq
  intro i hi
  have hbit := within_bit h (i := i)
  have hbit' := within_bit h' (i := i)
  have happart := apart_bit hm (i := i)
  simp only [put, BitVec.getLsbD_and, BitVec.getLsbD_or, BitVec.getLsbD_not]
  cases hm : m.getLsbD i <;> cases hm' : m'.getLsbD i <;> simp_all

end

theorem or_and_self (x m : BitVec w) : (x ||| m) &&& m = m := by
  apply BitVec.eq_of_getLsbD_eq
  intro i _
  rw [BitVec.getLsbD_and, BitVec.getLsbD_or]
  cases m.getLsbD i <;> simp

@[simp] theorem put_nothing (x : BitVec w) : put x 0#w 0#w = x := by
  simp [put]

/-- Clearing bits writes zero. -/
theorem put_clear (x m : BitVec w) : x &&& ~~~m = put x m 0#w := by
  simp [put]

/-- Setting bits and clearing them writes zero. -/
theorem put_zero (x m : BitVec w) : (x ||| m) &&& ~~~m = put x m 0#w := by
  apply BitVec.eq_of_getLsbD_eq
  intro i hi
  simp only [put, BitVec.getLsbD_and, BitVec.getLsbD_or, BitVec.getLsbD_not,
    BitVec.getLsbD_zero]
  cases m.getLsbD i <;> simp

/-! ## Low bits -/

/-- The low `k` bits are clear in the multiples of `2 ^ k`. -/
theorem and_low_eq_zero (x : BitVec w) {k : Nat} (hk : k ≤ w) :
    x &&& BitVec.ofNat w (2 ^ k - 1) = 0#w ↔ x.toNat % 2 ^ k = 0 := by
  have hpow : 2 ^ k ≤ 2 ^ w := Nat.pow_le_pow_right (by decide) hk
  have hpos : 0 < 2 ^ w := Nat.two_pow_pos w
  have hmask : (BitVec.ofNat w (2 ^ k - 1)).toNat = 2 ^ k - 1 := by
    rw [BitVec.toNat_ofNat]
    exact Nat.mod_eq_of_lt (by omega)
  rw [← BitVec.toNat_inj, BitVec.toNat_and, hmask, Nat.and_two_pow_sub_one_eq_mod]
  simp

/-- The low `k` bits. -/
private theorem toNat_low {k : Nat} (hk : k < w) : (1#w <<< k - 1#w).toNat = 2 ^ k - 1 := by
  have hpow : 2 ^ k < 2 ^ w := Nat.pow_lt_pow_right (by decide) hk
  have hpos : 1 ≤ 2 ^ k := Nat.one_le_two_pow
  have hone : (1#w).toNat = 1 := by
    rw [BitVec.toNat_ofNat]
    exact Nat.mod_eq_of_lt (by omega)
  have hshift : (1#w <<< k).toNat = 2 ^ k := by
    rw [BitVec.toNat_shiftLeft, hone, Nat.shiftLeft_eq, Nat.one_mul, Nat.mod_eq_of_lt hpow]
  have hle : 1#w ≤ 1#w <<< k := by
    rw [BitVec.le_def, hone, hshift]
    exact hpos
  rw [BitVec.toNat_sub_of_le hle, hone, hshift]

/-- Clearing the low `k` bits rounds down to a multiple of `2 ^ k`. -/
theorem toNat_clear_low (x : BitVec w) {k : Nat} (hk : k < w) :
    (x &&& ~~~(1#w <<< k - 1#w)).toNat = x.toNat / 2 ^ k * 2 ^ k := by
  rw [← Nat.shiftRight_eq_div_pow, ← Nat.shiftLeft_eq]
  apply Nat.eq_of_testBit_eq
  intro i
  rw [BitVec.testBit_toNat, BitVec.getLsbD_and, BitVec.getLsbD_not, Nat.testBit_shiftLeft,
    Nat.testBit_shiftRight, BitVec.testBit_toNat, ← BitVec.testBit_toNat (1#w <<< k - 1#w),
    toNat_low hk, Nat.testBit_two_pow_sub_one]
  by_cases hik : k ≤ i
  · rw [Nat.add_sub_cancel' hik]
    cases hbit : x.getLsbD i with
    | false => simp
    | true =>
        have hlt := BitVec.lt_of_getLsbD hbit
        simp [hik, hlt]
  · simp [hik, not_le.1 hik]

/-! ## Bytes of a word -/

/-- Three fields at bits 0, 8 and 16. -/
def packed (a b c : BitVec 32) : BitVec 32 := a <<< 16 ||| b <<< 8 ||| c <<< 0

private theorem getLsbD_255 (i : Nat) : (0xff : BitVec 32).getLsbD i = decide (i < 8) := by
  have hmask : (0xff : BitVec 32) = BitVec.ofNat 32 (2 ^ 8 - 1) := rfl
  rw [hmask, BitVec.getLsbD_ofNat, Nat.testBit_two_pow_sub_one]
  by_cases hi : i < 8
  · have h32 : i < 32 := by omega
    simp [hi, h32]
  · simp [hi]

/-- Words whose low eight bits are the same. -/
private theorem low_byte_eq {x y : BitVec 32}
    (h : ∀ i < 8, x.getLsbD i = y.getLsbD i) : x &&& 0xff = y &&& 0xff := by
  apply BitVec.eq_of_getLsbD_eq
  intro i _
  rw [BitVec.getLsbD_and, BitVec.getLsbD_and, getLsbD_255]
  by_cases hi : i < 8
  · rw [h i hi]
  · simp [hi]

private theorem getLsbD_packed (a b c : BitVec 32) {i : Nat} (hi : i < 32) :
    (packed a b c).getLsbD i = (decide (16 ≤ i) && a.getLsbD (i - 16) ||
      decide (8 ≤ i) && b.getLsbD (i - 8) || c.getLsbD i) := by
  simp only [packed, BitVec.getLsbD_or, BitVec.getLsbD_shiftLeft, hi, decide_true,
    Bool.true_and, Nat.sub_zero, Nat.not_lt_zero, decide_false, Bool.not_false,
    ← Nat.not_lt, decide_not]

theorem packed_byte0 (a b c : BitVec 32) :
    (packed a b c >>> 0) &&& 0xff = c &&& 0xff := by
  apply low_byte_eq
  intro i hi
  have h8 : ¬ 8 ≤ i := by omega
  have h16 : ¬ 16 ≤ i := by omega
  rw [BitVec.ushiftRight_zero, getLsbD_packed a b c (by omega)]
  simp [h8, h16]

/-- A field of eight bits has no bit behind them. -/
private theorem getLsbD_high {c : BitVec 32} (hc : c >>> 8 = 0#32) {i : Nat}
    (hi : 8 ≤ i) : c.getLsbD i = false := by
  have hbit := congrArg (fun x : BitVec 32 => x.getLsbD (i - 8)) hc
  rw [BitVec.getLsbD_ushiftRight, Nat.add_sub_cancel' hi] at hbit
  simpa using hbit

theorem packed_byte1 (a b c : BitVec 32) (hc : c >>> 8 = 0#32) :
    (packed a b c >>> 8) &&& 0xff = b &&& 0xff := by
  apply low_byte_eq
  intro i hi
  have h16 : ¬ 16 ≤ 8 + i := by omega
  have h8 : 8 ≤ 8 + i := by omega
  rw [BitVec.getLsbD_ushiftRight, getLsbD_packed a b c (by omega), getLsbD_high hc h8]
  simp [h16]

theorem packed_byte2 (a b c : BitVec 32) (hb : b >>> 8 = 0#32) (hc : c >>> 8 = 0#32) :
    (packed a b c >>> 16) &&& 0xff = a &&& 0xff := by
  apply low_byte_eq
  intro i hi
  have h16 : 16 ≤ 16 + i := by omega
  have h8 : 8 ≤ 16 + i := by omega
  have hmid : 8 ≤ 16 + i - 8 := by omega
  rw [BitVec.getLsbD_ushiftRight, getLsbD_packed a b c (by omega),
    getLsbD_high hc h8, getLsbD_high hb hmid]
  simp

end Kirkwood.Verified.Mask
