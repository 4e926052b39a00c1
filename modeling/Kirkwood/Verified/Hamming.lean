import Kirkwood.Verified.ByteMem
import Kirkwood.Verified.Mask

/-!
# Codes that correct one flipped bit

`flipbit` flips a bit of a byte string, `Flipped xs ys` says that at most one bit
lies between the two.  A code is given by the columns of its check matrix: `code`
adds up the columns of the bits that are set.  A flipped bit adds its column, so
that the sum of the code stored and the code computed, the syndrome, says which
one it was.

## Main results

* `code_flipbit` — a flipped bit adds its column to the code.
* `locate_eq`, `locate_eq_none` — what the position for a syndrome is.
-/

namespace Kirkwood.Verified.Hamming

open Kirkwood.Verified.ByteMem

/-! ## Flipped bits -/

def flipbyte (x : UInt8) (b : Fin 8) : UInt8 := ⟨x.toBitVec ^^^ Mask.bit b⟩

/-- Bit `b` of byte `j` flipped. -/
def flipbit (xs : Bytes) (j : Nat) (b : Fin 8) : Bytes :=
  xs.modify j (flipbyte · b)

/-- At most one bit is different. -/
def Flipped (xs ys : Bytes) : Prop :=
  ys = xs ∨ ∃ j < xs.length, ∃ b, ys = flipbit xs j b

theorem getLsbD_flipbyte (x : UInt8) (b u : Fin 8) :
    (flipbyte x b).toBitVec.getLsbD u = (x.toBitVec.getLsbD u ^^ decide (u = b)) := by
  rw [flipbyte, BitVec.getLsbD_xor, Mask.getLsbD_bit]

@[simp] theorem flipbyte_flipbyte (x : UInt8) (b : Fin 8) :
    flipbyte (flipbyte x b) b = x := by
  apply UInt8.toBitVec_inj.1
  show x.toBitVec ^^^ Mask.bit b ^^^ Mask.bit b = x.toBitVec
  rw [BitVec.xor_assoc, BitVec.xor_self, BitVec.xor_zero]

@[simp] theorem flipbit_length (xs : Bytes) (j : Nat) (b : Fin 8) :
    (flipbit xs j b).length = xs.length :=
  List.length_modify ..

theorem flipbit_flipbit (xs : Bytes) (j : Nat) (b : Fin 8) :
    flipbit (flipbit xs j b) j b = xs := by
  apply List.ext_getElem?
  intro i
  rw [flipbit, flipbit, List.getElem?_modify, List.getElem?_modify]
  cases xs[i]? with
  | none => rfl
  | some x => by_cases hij : j = i <;> simp [hij]

theorem flipbit_append (xs ys : Bytes) (j : Nat) (b : Fin 8) :
    flipbit (xs ++ ys) j b =
      if j < xs.length then flipbit xs j b ++ ys
      else xs ++ flipbit ys (j - xs.length) b := by
  induction xs generalizing j with
  | nil => rfl
  | cons x xs ih =>
      cases j with
      | zero => rfl
      | succ j =>
          show x :: flipbit (xs ++ ys) j b = _
          rw [ih j, List.length_cons, Nat.add_sub_add_right]
          by_cases hj : j < xs.length
          · rw [if_pos hj, if_pos (Nat.succ_lt_succ hj)]
            rfl
          · rw [if_neg hj, if_neg fun h => hj (Nat.lt_of_succ_lt_succ h)]
            rfl

theorem Flipped.length {xs ys : Bytes} (h : Flipped xs ys) : ys.length = xs.length := by
  obtain rfl | ⟨j, _, b, rfl⟩ := h
  · rfl
  · exact flipbit_length xs j b

/-- A bit flipped in a string of two parts is flipped in one of them. -/
theorem Flipped.append {xs ys xs' ys' : Bytes} (hlen : xs'.length = xs.length)
    (h : Flipped (xs ++ ys) (xs' ++ ys')) :
    (Flipped xs xs' ∧ ys' = ys) ∨ (xs' = xs ∧ Flipped ys ys') := by
  obtain h | ⟨j, hj, b, h⟩ := h
  · obtain ⟨hx, hy⟩ := List.append_inj h hlen
    exact .inl ⟨.inl hx, hy⟩
  · rw [flipbit_append] at h
    by_cases hjx : j < xs.length
    · rw [if_pos hjx] at h
      obtain ⟨hx, hy⟩ := List.append_inj h (by rw [hlen, flipbit_length])
      exact .inl ⟨.inr ⟨j, hjx, b, hx⟩, hy⟩
    · rw [if_neg hjx] at h
      obtain ⟨hx, hy⟩ := List.append_inj h hlen
      rw [List.length_append] at hj
      exact .inr ⟨hx, .inr ⟨j - xs.length, by omega, b, hy⟩⟩

/-! ## Codes -/

section
variable {m : Nat} (col : Nat → BitVec m)

/-- The columns of the first `n` bits of byte `k`. -/
def bytecode (k : Nat) (x : UInt8) : Nat → BitVec m
  | 0 => 0
  | n + 1 => bytecode k x n ^^^ (if x.toBitVec.getLsbD n then col (8 * k + n) else 0)

/-- The columns of the bits of a string whose first byte is byte `k`. -/
def code : Nat → Bytes → BitVec m
  | _, [] => 0
  | k, x :: xs => bytecode col k x 8 ^^^ code (k + 1) xs

/-- The position of the column. -/
def locate (n : Nat) (s : BitVec m) : Option Nat := (List.range n).find? (col · = s)

variable {col}

private theorem bytecode_flip (k : Nat) (x : UInt8) (b : Fin 8) {n : Nat} (hn : n ≤ 8) :
    bytecode col k (flipbyte x b) n =
      bytecode col k x n ^^^ (if b.val < n then col (8 * k + b.val) else 0) := by
  induction n with
  | zero => simp [bytecode]
  | succ n ih =>
      have hbit := getLsbD_flipbyte x b ⟨n, hn⟩
      simp only at hbit
      rw [bytecode, bytecode, ih (by omega), hbit]
      by_cases hnb : n = b.val
      · subst hnb
        cases x.toBitVec.getLsbD b.val with
        | false => simp
        | true =>
            simp only [Nat.lt_irrefl, Nat.lt_add_one, if_true, if_false, Fin.eta,
              decide_true, bne_self_eq_false, Bool.false_eq_true, BitVec.ofNat_eq_ofNat,
              BitVec.xor_zero, BitVec.xor_assoc, BitVec.xor_self]
      · have hne : (⟨n, hn⟩ : Fin 8) ≠ b := fun h => hnb (congrArg Fin.val h)
        have hlt : b.val < n + 1 ↔ b.val < n := by omega
        simp only [hne, decide_false, Bool.xor_false, hlt]
        ac_rfl

/-- A flipped bit adds its column to the code. -/
theorem code_flipbit (k : Nat) (xs : Bytes) {j : Nat} (b : Fin 8) (hj : j < xs.length) :
    code col k (flipbit xs j b) = code col k xs ^^^ col (8 * (k + j) + b.val) := by
  induction xs generalizing k j with
  | nil => exact absurd hj (Nat.not_lt_zero j)
  | cons x xs ih =>
      cases j with
      | zero =>
          show bytecode col k (flipbyte x b) 8 ^^^ code col (k + 1) xs = _
          rw [bytecode_flip k x b (Nat.le_refl 8), if_pos b.isLt, code, Nat.add_zero]
          ac_rfl
      | succ j =>
          show bytecode col k x 8 ^^^ code col (k + 1) (flipbit xs j b) = _
          have hidx : k + 1 + j = k + (j + 1) := by omega
          rw [ih (k + 1) (Nat.lt_of_succ_lt_succ hj), hidx, code, BitVec.xor_assoc]

/-- Where columns are distinct, the position of a column is its own. -/
theorem locate_eq {n i : Nat} (hi : i < n) (hinj : ∀ j < n, col j = col i → j = i) :
    locate col n (col i) = some i := by
  unfold locate
  cases h : (List.range n).find? (fun j => decide (col j = col i)) with
  | none =>
      have hnone := List.find?_eq_none.1 h i (List.mem_range.2 hi)
      simp at hnone
  | some j =>
      have hcol := List.find?_some h
      have hmem := List.mem_of_find?_eq_some h
      rw [hinj j (List.mem_range.1 hmem) (of_decide_eq_true hcol)]

theorem locate_eq_none {n : Nat} {s : BitVec m} (h : ∀ i < n, col i ≠ s) :
    locate col n s = none := by
  unfold locate
  rw [List.find?_eq_none]
  intro i hi
  simpa using h i (List.mem_range.1 hi)

end

end Kirkwood.Verified.Hamming
