import Mathlib.Data.Nat.Bitwise

/-!
# Reflected cyclic redundancy codes

A reflected CRC register of width `w` is shifted right once for every data bit,
with the polynomial added whenever the bit shifted out is set.  `step` is that
shift, `steps` a number of them.  The data enter in one of two ways: added to
the register in front of a group of shifts, or one bit at a time into the
decision of each shift (`feed`).

Everything rests on `step` being linear over exclusive or: a group of `n` shifts
splits into the shifts of the low `n` bits, which a table can hold, and a plain
move of the rest.

## Main results

* `steps_xor` — `n` shifts are linear.
* `steps_split` — `n` shifts of `c` are `n` shifts of its low `n` bits, plus `c`
  moved down by `n`: one step of a table-driven implementation.
* `feed_fst` — feeding `n` data bits one at a time is adding them all first.
-/

namespace Kirkwood.Verified.Crc

variable {w : Nat} (poly : BitVec w)

/-- One shift of the register. -/
def step (c : BitVec w) : BitVec w :=
  if c.getLsbD 0 then poly ^^^ (c >>> 1) else c >>> 1

/-- `n` shifts of the register. -/
def steps : Nat → BitVec w → BitVec w
  | 0, c => c
  | n + 1, c => steps n (step poly c)

/-- `n` shifts that take the bits of `b` in, lowest first: the register, and
what is left of `b`. -/
def feed : Nat → BitVec w × BitVec w → BitVec w × BitVec w
  | 0, cb => cb
  | n + 1, (c, b) =>
    feed n ((c >>> 1) ^^^ (if (c ^^^ b).getLsbD 0 then poly else 0), b >>> 1)

/-! ## Linearity -/

/-- The shift written with the polynomial as an addend. -/
theorem step_eq (c : BitVec w) :
    step poly c = (c >>> 1) ^^^ (if c.getLsbD 0 then poly else 0) := by
  unfold step
  cases c.getLsbD 0
  · simp
  · simp [BitVec.xor_comm]

private theorem addend_xor (p q : Bool) :
    (if (p ^^ q) then poly else 0) =
      (if p then poly else 0) ^^^ (if q then poly else 0) := by
  cases p <;> cases q <;> simp

theorem step_xor (c d : BitVec w) :
    step poly (c ^^^ d) = step poly c ^^^ step poly d := by
  rw [step_eq, step_eq, step_eq, BitVec.getLsbD_xor, addend_xor,
    BitVec.ushiftRight_xor_distrib]
  ac_rfl

theorem steps_xor (n : Nat) (c d : BitVec w) :
    steps poly n (c ^^^ d) = steps poly n c ^^^ steps poly n d := by
  induction n generalizing c d with
  | zero => rfl
  | succ n ih => rw [steps, step_xor, ih, ← steps, ← steps]

/-! ## The part a table holds -/

/-- A register whose low `n` bits are clear only moves down. -/
theorem steps_of_low_clear (n : Nat) (c : BitVec w)
    (hlow : ∀ i < n, c.getLsbD i = false) : steps poly n c = c >>> n := by
  induction n generalizing c with
  | zero => simp [steps]
  | succ n ih =>
      have hstep : step poly c = c >>> 1 := by
        rw [step, hlow 0 (Nat.succ_pos n)]
        rfl
      have hshift : ∀ i < n, (c >>> 1).getLsbD i = false := by
        intro i hi
        rw [BitVec.getLsbD_ushiftRight]
        exact hlow (1 + i) (by omega)
      rw [steps, hstep, ih _ hshift, ← BitVec.shiftRight_add, Nat.add_comm]

/-- The bits of `c` below position `n`. -/
def low (n : Nat) (c : BitVec w) : BitVec w := c &&& BitVec.ofNat w (2 ^ n - 1)

@[simp] theorem getLsbD_low (n : Nat) (c : BitVec w) (i : Nat) :
    (low n c).getLsbD i = (c.getLsbD i && decide (i < n)) := by
  rw [low, BitVec.getLsbD_and, BitVec.getLsbD_ofNat, Nat.testBit_two_pow_sub_one]
  by_cases hi : i < w
  · simp [hi]
  · simp [BitVec.getLsbD_of_ge c i (by omega)]

/-- `n` shifts: those of the low `n` bits, and the rest moved down. -/
theorem steps_split (n : Nat) (c : BitVec w) :
    steps poly n c = steps poly n (low n c) ^^^ (c >>> n) := by
  have hsum : c = low n c ^^^ (low n c ^^^ c) := by
    rw [← BitVec.xor_assoc, BitVec.xor_self, BitVec.zero_xor]
  have hclear : ∀ i < n, (low n c ^^^ c).getLsbD i = false := by
    intro i hi
    simp [hi]
  have hmove : (low n c ^^^ c) >>> n = c >>> n := by
    apply BitVec.eq_of_getLsbD_eq
    intro i _
    have hout : ¬ n + i < n := by omega
    simp [hout]
  calc steps poly n c
      = steps poly n (low n c ^^^ (low n c ^^^ c)) := by rw [← hsum]
    _ = steps poly n (low n c) ^^^ ((low n c ^^^ c) >>> n) := by
        rw [steps_xor, steps_of_low_clear poly n _ hclear]
    _ = steps poly n (low n c) ^^^ (c >>> n) := by rw [hmove]

/-! ## Data bits one at a time -/

/-- Each fed bit leaves the register and the data still to come with the sum
that one plain shift of their sum gives. -/
theorem feed_sum (n : Nat) (c b : BitVec w) :
    (feed poly n (c, b)).1 ^^^ (feed poly n (c, b)).2 = steps poly n (c ^^^ b) := by
  induction n generalizing c b with
  | zero => rfl
  | succ n ih =>
      rw [feed, ih, steps, step_eq, BitVec.ushiftRight_xor_distrib]
      congr 1
      ac_rfl

theorem feed_snd (n : Nat) (c b : BitVec w) : (feed poly n (c, b)).2 = b >>> n := by
  induction n generalizing c b with
  | zero => simp [feed]
  | succ n ih => rw [feed, ih, ← BitVec.shiftRight_add, Nat.add_comm]

/-- Feeding all bits of a datum narrower than `n` is adding it before the
shifts. -/
theorem feed_fst (n : Nat) (c b : BitVec w) (hb : b >>> n = 0#w) :
    (feed poly n (c, b)).1 = steps poly n (c ^^^ b) := by
  have hsum := feed_sum poly n c b
  rwa [feed_snd, hb, BitVec.xor_zero] at hsum

end Kirkwood.Verified.Crc
