import Kirkwood.Verified.ByteMem

/-!
# Words of the security engine

The engine of `cesa.c` takes and gives 32-bit words.  `g32` and `p32` read and
write them big endian, `g32le` and `p32le` little endian.

## Main results

* `g32_p32`, `p32_g32`: reading and writing a word are inverse.
-/

namespace Kirkwood.Ports.CesaWords

open Kirkwood.Verified.ByteMem

abbrev Word := BitVec 32

def widen (b : UInt8) : Word := b.toBitVec.setWidth 32

/-- `v>>k`, stored in an `uchar`. -/
def uchar (v : Word) (k : Nat) : UInt8 := ⟨(v >>> k).setWidth 8⟩

/-- `g32` on the four bytes at its pointer. -/
def g32 (b0 b1 b2 b3 : UInt8) : Word :=
  widen b0 <<< 24 ||| widen b1 <<< 16 ||| widen b2 <<< 8 ||| widen b3 <<< 0

def g32le (b0 b1 b2 b3 : UInt8) : Word :=
  widen b0 <<< 0 ||| widen b1 <<< 8 ||| widen b2 <<< 16 ||| widen b3 <<< 24

/-- The four bytes that `p32` stores. -/
def p32 (v : Word) : Bytes := [uchar v 24, uchar v 16, uchar v 8, uchar v 0]

def p32le (v : Word) : Bytes := [uchar v 0, uchar v 8, uchar v 16, uchar v 24]

/-- `swap`: `p32` into a buffer, then `g32le`. -/
def swap (v : Word) : Word :=
  g32le (uchar v 24) (uchar v 16) (uchar v 8) (uchar v 0)

@[simp] theorem p32_length (v : Word) : (p32 v).length = 4 := rfl

@[simp] theorem p32le_length (v : Word) : (p32le v).length = 4 := rfl

theorem g32_p32 (v : Word) :
    g32 (uchar v 24) (uchar v 16) (uchar v 8) (uchar v 0) = v := by
  apply BitVec.eq_of_getLsbD_eq
  intro i hi
  simp only [g32, widen, uchar, BitVec.getLsbD_or, BitVec.getLsbD_shiftLeft,
    BitVec.getLsbD_setWidth, BitVec.getLsbD_ushiftRight]
  grind

/-- Byte `j` of a word, counted from the last. -/
private theorem uchar_g32 (b0 b1 b2 b3 : UInt8) (j : Nat) {b : UInt8}
    (hb : [b3, b2, b1, b0][j]? = some b) : uchar (g32 b0 b1 b2 b3) (8 * j) = b := by
  have hj : j < 4 := (List.getElem?_eq_some_iff.1 hb).1
  have hcases : j = 0 ∨ j = 1 ∨ j = 2 ∨ j = 3 := by omega
  apply UInt8.toBitVec_inj.1
  apply BitVec.eq_of_getLsbD_eq
  intro i hi
  rcases hcases with rfl | rfl | rfl | rfl
  all_goals
    obtain rfl := Option.some.inj hb
    simp only [g32, widen, uchar, BitVec.getLsbD_or, BitVec.getLsbD_shiftLeft,
      BitVec.getLsbD_setWidth, BitVec.getLsbD_ushiftRight]
    grind

theorem p32_g32 (b0 b1 b2 b3 : UInt8) :
    p32 (g32 b0 b1 b2 b3) = [b0, b1, b2, b3] := by
  have h0 : uchar (g32 b0 b1 b2 b3) 24 = b0 := uchar_g32 b0 b1 b2 b3 3 rfl
  have h1 : uchar (g32 b0 b1 b2 b3) 16 = b1 := uchar_g32 b0 b1 b2 b3 2 rfl
  have h2 : uchar (g32 b0 b1 b2 b3) 8 = b2 := uchar_g32 b0 b1 b2 b3 1 rfl
  have h3 : uchar (g32 b0 b1 b2 b3) 0 = b3 := uchar_g32 b0 b1 b2 b3 0 rfl
  unfold p32
  rw [h0, h1, h2, h3]

private theorem or_reverse (x y z t : Word) :
    x ||| y ||| z ||| t = t ||| z ||| y ||| x := by
  ac_rfl

/-- The bytes of a swapped word are those of the word, the other way round. -/
theorem p32_swap (v : Word) : p32 (swap v) = p32le v := by
  have hswap : swap v = g32 (uchar v 0) (uchar v 8) (uchar v 16) (uchar v 24) := by
    unfold swap g32le g32
    exact or_reverse _ _ _ _
  rw [hswap, p32_g32]
  rfl

end Kirkwood.Ports.CesaWords
