import Mathlib.Algebra.BigOperators.Group.List.Basic
import Mathlib.Algebra.Order.Ring.Nat
import Mathlib.Tactic.Ring

/-!
# Bit fields of a word

`field x o w` are the `w` bits of `x` from bit `o` on.  A word is made of fields, each a
value with its place and its width.

## Main results

* `field_word`: fields that lie apart are read back;
* `or_shift`: how a word is put together from two parts;
* `field_add_shift`: reading a word that is put together from two parts;
* `or_field`, `field_field`: adjacent fields make one, and fields of a field.
-/

namespace Kirkwood.Verified.Fields

def field (x o w : Nat) : Nat := x / 2 ^ o % 2 ^ w

structure Field where
  value : Nat
  place : Nat
  width : Nat
deriving DecidableEq, Repr

/-- The word with these fields, and nothing else. -/
def word (fs : List Field) : Nat := (fs.map fun f => f.value * 2 ^ f.place).sum

/-- The values fit, and the fields do not overlap. -/
structure Apart (fs : List Field) : Prop where
  fits : ∀ f ∈ fs, f.value < 2 ^ f.width
  apart : fs.Pairwise fun f g => f.place + f.width ≤ g.place

theorem field_lt (x o w : Nat) : field x o w < 2 ^ w :=
  Nat.mod_lt _ (Nat.two_pow_pos w)

theorem field_self {x w : Nat} (h : x < 2 ^ w) : field x 0 w = x := by
  rw [field, Nat.pow_zero, Nat.div_one, Nat.mod_eq_of_lt h]

theorem or_shift {a k : Nat} (h : a < 2 ^ k) (b : Nat) : a ||| b <<< k = a + b * 2 ^ k := by
  rw [Nat.shiftLeft_eq, Nat.mul_comm b, Nat.or_comm, ← Nat.two_pow_add_eq_or_of_lt h b,
    Nat.add_comm]

/-- A field behind the first `m` bits. -/
theorem field_add_shift {a m : Nat} (h : a < 2 ^ m) (b w : Nat) {o : Nat} (ho : m ≤ o) :
    field (a + b * 2 ^ m) o w = field b (o - m) w := by
  obtain ⟨j, rfl⟩ := Nat.exists_eq_add_of_le ho
  unfold field
  rw [Nat.add_sub_cancel_left, Nat.pow_add, ← Nat.div_div_eq_div_mul,
    Nat.add_mul_div_right _ _ (Nat.two_pow_pos m), Nat.div_eq_of_lt h, Nat.zero_add]

/-- A field within the first `m` bits. -/
theorem field_add_mul {a m : Nat} (b : Nat) {o w : Nat} (ho : o + w ≤ m) :
    field (a + b * 2 ^ m) o w = field a o w := by
  obtain ⟨j, rfl⟩ := Nat.exists_eq_add_of_le ho
  have hsplit : b * 2 ^ (o + w + j) = 2 ^ o * (2 ^ w * (b * 2 ^ j)) := by
    rw [Nat.pow_add, Nat.pow_add]
    ring
  unfold field
  rw [hsplit, Nat.add_mul_div_left _ _ (Nat.two_pow_pos o), Nat.add_mul_mod_self_left]

theorem field_append (x o a b : Nat) :
    field x o (a + b) = field x o a + field x (o + a) b * 2 ^ a := by
  unfold field
  rw [Nat.pow_add 2 o a, ← Nat.div_div_eq_div_mul, Nat.pow_add, Nat.mod_mul]
  ring

theorem or_field (x o a b : Nat) :
    field x o a ||| field x (o + a) b <<< a = field x o (a + b) := by
  rw [or_shift (field_lt ..), field_append]

theorem field_field (x o w : Nat) {o' w' : Nat} (h : o' + w' ≤ w) :
    field (field x o w) o' w' = field x (o + o') w' := by
  obtain ⟨j, rfl⟩ := Nat.exists_eq_add_of_le h
  have happend := field_append x o o' (w' + j)
  rw [← Nat.add_assoc] at happend
  rw [happend, field_add_shift (field_lt ..) _ _ (Nat.le_refl _), Nat.sub_self,
    field_append, field_add_mul _ (Nat.le_of_eq (Nat.zero_add w')),
      field_self (field_lt ..)]

private theorem word_dvd {fs : List Field} {m : Nat} (h : ∀ f ∈ fs, m ≤ f.place) :
    ∃ b, word fs = b * 2 ^ m := by
  induction fs with
  | nil => exact ⟨0, (Nat.zero_mul _).symm⟩
  | cons f fs ih =>
      obtain ⟨b, hb⟩ := ih fun g hg => h g (List.mem_cons_of_mem f hg)
      obtain ⟨j, hj⟩ := Nat.exists_eq_add_of_le (h f List.mem_cons_self)
      refine ⟨f.value * 2 ^ j + b, ?_⟩
      have hcons : word (f :: fs) = f.value * 2 ^ f.place + word fs := by
        rw [word, List.map_cons, List.sum_cons]
        rfl
      rw [hcons, hb, hj, Nat.pow_add]
      ring

theorem field_word {fs : List Field} (h : Apart fs) {f : Field} (hf : f ∈ fs) :
    field (word fs) f.place f.width = f.value := by
  induction fs with
  | nil => exact nomatch hf
  | cons g fs ih =>
      have hcons : word (g :: fs) = g.value * 2 ^ g.place + word fs := by
        rw [word, List.map_cons, List.sum_cons]
        rfl
      have happart := List.pairwise_cons.1 h.apart
      obtain ⟨b, hb⟩ := word_dvd happart.1
      have hg : g.value < 2 ^ g.width := h.fits g List.mem_cons_self
      have hlow : g.value * 2 ^ g.place < 2 ^ (g.place + g.width) := by
        rw [Nat.pow_add, Nat.mul_comm]
        exact Nat.mul_lt_mul_of_pos_left hg (Nat.two_pow_pos _)
      rcases List.mem_cons.1 hf with rfl | hf
      · rw [hcons, hb, field_add_mul b (Nat.le_refl _), field,
          Nat.mul_div_cancel _ (Nat.two_pow_pos _), Nat.mod_eq_of_lt hg]
      · have htail : Apart fs :=
          ⟨fun f hf => h.fits f (List.mem_cons_of_mem g hf), happart.2⟩
        have hplace : g.place + g.width ≤ f.place := happart.1 f hf
        have hzero : field (0 + b * 2 ^ (g.place + g.width)) f.place f.width =
            field b (f.place - (g.place + g.width)) f.width :=
          field_add_shift (Nat.two_pow_pos _) b f.width hplace
        rw [Nat.zero_add, ← hb] at hzero
        rw [hcons, hb, field_add_shift hlow b f.width hplace, ← hzero]
        exact ih htail hf

end Kirkwood.Verified.Fields
