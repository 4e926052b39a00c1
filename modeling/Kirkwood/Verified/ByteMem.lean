import Mathlib.Data.List.Basic

/-!
# Byte strings and byte memory

A buffer is a list of bytes.  A large medium is a function from addresses to
bytes, read by `slice` and written by `overlay`.  C text is a buffer without
its terminating NUL.
-/

namespace Kirkwood.Verified.ByteMem

abbrev Bytes := List UInt8

/-- A medium addressed by byte. -/
abbrev Mem := Int → UInt8

/-- The bytes of an ASCII literal. -/
def ascii (s : String) : Bytes := s.toList.map fun c => c.toNat.toUInt8

/-- The `n` bytes of `m` from address `a` on. -/
def slice (m : Mem) (a : Int) (n : Nat) : Bytes :=
  (List.range n).map fun i : Nat => m (a + i)

/-- `m` with `bs` stored from address `a` on. -/
def overlay (m : Mem) (a : Int) (bs : Bytes) : Mem := fun x =>
  if a ≤ x ∧ x < a + bs.length then bs.getD (x - a).toNat 0 else m x

@[simp] theorem slice_length (m : Mem) (a : Int) (n : Nat) :
    (slice m a n).length = n := by
  simp [slice]

theorem slice_getElem (m : Mem) (a : Int) (n i : Nat)
    (h : i < (slice m a n).length) : (slice m a n)[i] = m (a + i) := by
  simp only [slice, List.getElem_map, List.getElem_range]

theorem slice_append_head (m : Mem) (a : Int) {n : Nat} (h : 0 < n)
    (tail : Bytes) : (slice m a n ++ tail)[0]? = some (m a) := by
  rw [List.getElem?_append_left (by rwa [slice_length]),
    List.getElem?_eq_getElem (by rwa [slice_length]), slice_getElem]
  simp

/-- A window of a slice is the slice of the window. -/
theorem slice_window (m : Mem) (a : Int) {n o k : Nat} (h : o + k ≤ n) :
    ((slice m a n).drop o).take k = slice m (a + o) k := by
  apply List.ext_getElem
  · simp only [List.length_take, List.length_drop, slice_length]
    omega
  · intro i h1 h2
    simp only [List.getElem_take, List.getElem_drop, slice_getElem]
    congr 1
    push_cast
    omega

/-- Inside the stored range the stored bytes are read back. -/
theorem overlay_inside (m : Mem) (a : Int) (bs : Bytes) (i : Nat)
    (h : i < bs.length) : overlay m a bs (a + i) = bs[i] := by
  have hrange : a ≤ a + (i : Int) ∧ a + (i : Int) < a + bs.length := by omega
  have hidx : (a + (i : Int) - a).toNat = i := by omega
  rw [overlay, if_pos hrange, hidx, List.getD_eq_getElem?_getD,
    List.getElem?_eq_getElem h, Option.getD_some]

theorem overlay_head (m : Mem) (a : Int) {bs : Bytes} {b : UInt8}
    (h : bs[0]? = some b) : overlay m a bs a = b := by
  obtain ⟨hlt, hb⟩ := List.getElem?_eq_some_iff.mp h
  have hinside := overlay_inside m a bs 0 hlt
  rwa [Int.natCast_zero, Int.add_zero, hb] at hinside

/-- Outside the stored range nothing changes. -/
theorem overlay_outside (m : Mem) (a : Int) (bs : Bytes) {x : Int}
    (h : x < a ∨ a + bs.length ≤ x) : overlay m a bs x = m x := by
  unfold overlay
  rw [if_neg]
  omega

@[simp] theorem overlay_nil (m : Mem) (a : Int) : overlay m a [] = m := by
  funext x
  apply overlay_outside
  simp only [List.length_nil]
  omega

/-! ## Parts of a buffer -/

/-- The `n` bytes at offset `p`. -/
def part (buf : Bytes) (p n : Nat) : Bytes := (buf.drop p).take n

/-- The bytes at offset `p` replaced. -/
def patch (buf : Bytes) (p : Nat) (bs : Bytes) : Bytes :=
  buf.take p ++ bs ++ buf.drop (p + bs.length)

theorem part_length {xs : Bytes} {q n : Nat} (h : q + n ≤ xs.length) :
    (part xs q n).length = n := by
  rw [part, List.length_take, List.length_drop]
  omega

theorem patch_length {xs bs : Bytes} {q : Nat} (h : q + bs.length ≤ xs.length) :
    (patch xs q bs).length = xs.length := by
  simp only [patch, List.length_append, List.length_take, List.length_drop]
  omega

/-- What lies behind a patch stays. -/
theorem part_patch {xs bs : Bytes} {q k n : Nat} (h : q + bs.length ≤ xs.length)
    (hk : q + bs.length ≤ k) : part (patch xs q bs) k n = part xs k n := by
  have hlen : (xs.take q ++ bs).length = q + bs.length := by
    rw [List.length_append, List.length_take]
    omega
  rw [part, part, patch, List.drop_append, List.drop_eq_nil_of_le (by omega), hlen,
    List.nil_append, List.drop_drop]
  congr 2
  omega

/-- A buffer that agrees with another up to a patch with the other's bytes agrees
with it past the patch. -/
theorem take_patch {xs ys : Bytes} {q n : Nat} (hlen : xs.length = ys.length)
    (h : q + n ≤ ys.length) (hq : xs.take q = ys.take q) :
    (patch xs q (part ys q n)).take (q + n) = ys.take (q + n) := by
  have hpart : (part ys q n).length = n := part_length h
  have hfront : (xs.take q ++ part ys q n).length = q + n := by
    rw [List.length_append, List.length_take, hpart]
    omega
  rw [patch, List.take_append, hfront, Nat.sub_self, List.take_zero, List.append_nil,
    List.take_of_length_le (Nat.le_of_eq hfront), hq, part, List.take_add]

theorem part_part {xs : Bytes} {q n k m : Nat} (h : k + m ≤ n) :
    part (part xs q n) k m = part xs (q + k) m := by
  rw [part, part, part, List.drop_take, List.drop_drop, List.take_take,
    Nat.min_eq_left (by omega)]

theorem part_left {xs ys : Bytes} {q n : Nat} (h : q + n ≤ xs.length) :
    part (xs ++ ys) q n = part xs q n := by
  rw [part, part, List.drop_append_of_le_length (by omega),
    List.take_append_of_le_length (by rw [List.length_drop]; omega)]

theorem part_right {xs ys : Bytes} {q n : Nat} :
    part (xs ++ ys) (xs.length + q) n = part ys q n := by
  rw [part, part, List.drop_append, List.drop_eq_nil_of_le (by omega), List.nil_append,
    Nat.add_sub_cancel_left]

/-- A piece and the piece behind it, as long as the first one was. -/
theorem part_append (xs : Bytes) (q n m : Nat) :
    part xs q n ++ part xs (q + (part xs q n).length) m = part xs q (n + m) := by
  have hdrop : (xs.drop q).drop (part xs q n).length = (xs.drop q).drop n := by
    rw [part, List.length_take]
    obtain hle | hlt := Nat.le_total n (xs.drop q).length
    · rw [Nat.min_eq_left hle]
    · rw [Nat.min_eq_right hlt, List.drop_length, List.drop_eq_nil_of_le hlt]
  show part xs q n ++ (xs.drop (q + (part xs q n).length)).take m = _
  rw [← List.drop_drop, hdrop]
  exact List.take_add.symm

end Kirkwood.Verified.ByteMem
