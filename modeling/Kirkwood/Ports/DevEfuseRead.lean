import Kirkwood.Ports.DevEfuse
import Kirkwood.Verified.ByteMem
import Kirkwood.Verified.CInt

/-!
# Reading the fuses

`efuseread` of `devefuse.c` puts the two words of a fuse in a buffer of eight bytes on its
stack, the high word first, and copies from there to the caller.  How much it copies is
counted from the offset alone.

## Main results

* `fuseread_within`, `fuseread_nil_iff`: what is copied, by the offset;
* `exact_iff`: which reads give what was asked for;
* `reads_from`: the reads of a reader that does, joined.
-/

namespace Kirkwood.Ports.DevEfuseRead

open Kirkwood.Verified.ByteMem
open Kirkwood.Verified.CInt
open Kirkwood.Verified.Trans
open Kirkwood.Ports.DevEfuse (EfuseReg Qid Fuse)

/-! ## The code -/

def max (a b : Int) : Int := if a > b then a else b

/-- `v>>k`, stored in an `uchar`. -/
def uchar (v : BitVec 32) (k : Nat) : UInt8 := ⟨(v >>> k).setWidth 8⟩

/-- The four bytes that `p32` stores. -/
def p32 (v : BitVec 32) : Bytes := [uchar v 24, uchar v 16, uchar v 8, uchar v 0]

/-- The type of `sizeof`: `int` for the compilers of Plan 9 and Inferno, unsigned in
standard C. -/
inductive Sizeof where
  | signed
  | unsigned
deriving DecidableEq, Repr

/-- A `long` taken from a `sizeof`. -/
def Sizeof.minus (t : Sizeof) (size x : Int) : Int :=
  match t with
  | .signed => long (size - x)
  | .unsigned => ulong (size - x)

/-- The memory before a read, and where `buf` is in it. -/
structure Stack where
  mem : Mem
  buf : Int
  room : 0 ≤ buf ∧ buf + 8 < 2 ^ 32

/-- The bytes that `memmove(a, p, n)` copies; pointers and `n` have 32 bits. -/
def memmove (mem : Mem) (p n : Int) : Bytes := slice mem (ulong p) (ulong n).toNat

/-- `efuseread` of a fuse. -/
def fuseread (t : Sizeof) (st : Stack) (lo hi : BitVec 32) (offset : Int) : Int × Bytes :=
  let mem := overlay (overlay st.mem (st.buf + 4) (p32 lo)) (st.buf + 0) (p32 hi)
  let n := long (max 0 (t.minus 8 (long offset)))
  (n, memmove mem (st.buf + offset) n)

/-- The result, and the bytes copied to the caller. -/
def efuseread (t : Sizeof) (st : Stack) (reg : EfuseReg)
    (devdirread : Int → Int → Except String (Int × Bytes)) (path : Qid) (n offset : Int) :
    Except String (Int × Bytes) :=
  match path with
  | .Qdir => devdirread n offset
  | .Qefuse0 => .ok (fuseread t st reg.lo0 reg.hi0 offset)
  | .Qefuse1 => .ok (fuseread t st reg.lo1 reg.hi1 offset)

/-! ## The bytes of a fuse -/

/-- The bytes of a value, the highest first. -/
def bigEndian (v : BitVec 64) : Bytes :=
  (List.range 8).map fun i => ⟨(v >>> (8 * (7 - i))).setWidth 8⟩

private theorem uchar_hi (hi lo : BitVec 32) {k : Nat} (hk : k ≤ 24) :
    uchar hi k = ⟨((hi ++ lo) >>> (k + 32)).setWidth 8⟩ := by
  apply UInt8.toBitVec_inj.1
  apply BitVec.eq_of_getLsbD_eq
  intro i hi
  have hge : ¬ k + 32 + i < 32 := by omega
  have hsub : k + 32 + i - 32 = k + i := by omega
  simp only [uchar, BitVec.getLsbD_setWidth, BitVec.getLsbD_ushiftRight,
    BitVec.getLsbD_append, if_neg hge, hsub]

private theorem uchar_lo (hi lo : BitVec 32) {k : Nat} (hk : k ≤ 24) :
    uchar lo k = ⟨((hi ++ lo) >>> k).setWidth 8⟩ := by
  apply UInt8.toBitVec_inj.1
  apply BitVec.eq_of_getLsbD_eq
  intro i hi
  have hlt : k + i < 32 := by omega
  simp only [uchar, BitVec.getLsbD_setWidth, BitVec.getLsbD_ushiftRight,
    BitVec.getLsbD_append, if_pos hlt]

theorem p32_bigEndian (hi lo : BitVec 32) : p32 hi ++ p32 lo = bigEndian (hi ++ lo) := by
  unfold p32
  rw [uchar_hi hi lo (k := 24) (by decide), uchar_hi hi lo (k := 16) (by decide),
    uchar_hi hi lo (k := 8) (by decide), uchar_hi hi lo (k := 0) (by decide),
    uchar_lo hi lo (k := 24) (by decide), uchar_lo hi lo (k := 16) (by decide),
    uchar_lo hi lo (k := 8) (by decide), uchar_lo hi lo (k := 0) (by decide)]
  rfl

@[simp] theorem bigEndian_length (v : BitVec 64) : (bigEndian v).length = 8 := by
  simp [bigEndian]

/-! ## One read -/

/-- The offset is behind the fuse, and the count that is computed from it is zero. -/
def Behind (t : Sizeof) (offset : Int) : Prop :=
  match t with
  | .signed => (offset - 8) % 2 ^ 32 ≤ 2 ^ 31
  | .unsigned => (offset - 8) % 2 ^ 32 = 0

instance (t : Sizeof) (offset : Int) : Decidable (Behind t offset) :=
  match t with
  | .signed => inferInstanceAs (Decidable (_ ≤ _))
  | .unsigned => inferInstanceAs (Decidable (_ = _))

/-- The request reaches to the end of the fuse. -/
def Enough (t : Sizeof) (n offset : Int) : Prop :=
  if offset ≤ 8 then 8 ≤ offset + n else Behind t offset

instance (t : Sizeof) (n offset : Int) : Decidable (Enough t n offset) :=
  inferInstanceAs (Decidable (if offset ≤ 8 then 8 ≤ offset + n else Behind t offset))

section
variable (t : Sizeof) {offset : Int}

theorem count_within (h0 : 0 ≤ offset) (h8 : offset ≤ 8) :
    long (max 0 (t.minus 8 (long offset))) = 8 - offset := by
  have hlong : long offset = offset := long_eq (by omega) (by omega)
  have hminus : t.minus 8 offset = 8 - offset := by
    cases t with
    | signed => exact long_eq (by omega) (by omega)
    | unsigned => exact ulong_eq (by omega) (by omega)
  rw [hlong, hminus]
  unfold max
  split
  · omega
  · exact long_eq (by omega) (by omega)

/-- Behind the fuse the count is zero for the offsets that are `Behind` only. -/
theorem count_beyond :
    ulong (long (max 0 (t.minus 8 (long offset)))) = 0 ↔ Behind t offset := by
  cases t with
  | signed =>
      unfold Behind Sizeof.minus max
      split
      · simp only [ulong, long] at *
        omega
      · simp only [ulong, long] at *
        omega
  | unsigned =>
      unfold Behind Sizeof.minus max
      split
      · simp only [ulong, long] at *
        omega
      · simp only [ulong, long] at *
        omega

end

section
variable (st : Stack) (lo hi : BitVec 32)

/-- What is in `buf`. -/
theorem slice_buf {k : Nat} (hk : k ≤ 8) :
    slice (overlay (overlay st.mem (st.buf + 4) (p32 lo)) (st.buf + 0) (p32 hi))
      (st.buf + k) (8 - k) = (bigEndian (hi ++ lo)).drop k := by
  rw [← p32_bigEndian]
  apply List.ext_getElem
  · rw [slice_length, List.length_drop]
    rfl
  · intro i hlen _
    rw [slice_length] at hlen
    rw [slice_getElem, List.getElem_drop, Int.add_assoc, ← Int.natCast_add]
    by_cases h4 : k + i < 4
    · have hin := overlay_inside (overlay st.mem (st.buf + 4) (p32 lo)) (st.buf + 0)
        (p32 hi) (k + i) h4
      rw [Int.add_zero] at hin ⊢
      rw [hin, List.getElem_append_left h4]
    · obtain ⟨j, hj⟩ : ∃ j, k + i = 4 + j := ⟨k + i - 4, by omega⟩
      have hin := overlay_inside st.mem (st.buf + 4) (p32 lo) j
        (show j < 4 by omega)
      have haddr : st.buf + ((k + i : Nat) : Int) = st.buf + 4 + (j : Int) := by omega
      have hout : st.buf + 0 + ((p32 hi).length : Int) ≤ st.buf + 4 + (j : Int) := by
        show st.buf + 0 + 4 ≤ _
        omega
      rw [haddr, overlay_outside _ _ _ (.inr hout), hin,
        List.getElem_append_right (show 4 ≤ k + i by omega)]
      exact getElem_congr_idx (show j = k + i - 4 by omega)

variable (t : Sizeof) {offset : Int}

/-- Up to the end of the fuse, the rest of it is copied. -/
theorem fuseread_within {k : Nat} (hk : k ≤ 8) :
    fuseread t st lo hi k = (8 - (k : Int), (bigEndian (hi ++ lo)).drop k) := by
  have hroom := st.room
  have hcount : long (max 0 (t.minus 8 (long (k : Int)))) = 8 - (k : Int) :=
    count_within t (by omega) (by omega)
  have haddr : ulong (st.buf + k) = st.buf + k := ulong_eq (by omega) (by omega)
  have hlen : (ulong (8 - (k : Int))).toNat = 8 - k := by
    rw [ulong_eq (by omega) (by omega)]
    omega
  unfold fuseread memmove
  simp only [hcount, haddr, hlen, slice_buf st lo hi hk]

/-- Nothing is copied for the offsets that are `Behind` only. -/
theorem fuseread_nil_iff : (fuseread t st lo hi offset).2 = [] ↔ Behind t offset := by
  have hrange := ulong_range (long (max 0 (t.minus 8 (long offset))))
  rw [← count_beyond, ← List.length_eq_zero_iff]
  unfold fuseread memmove
  rw [slice_length]
  omega

theorem fuseread_behind (h : Behind t offset) : fuseread t st lo hi offset = (0, []) := by
  have hcount : ulong (long (max 0 (t.minus 8 (long offset)))) = 0 := (count_beyond t).2 h
  have hzero : long (max 0 (t.minus 8 (long offset))) = 0 := by
    have hrange := long_range (max 0 (t.minus 8 (long offset)))
    unfold ulong at hcount
    omega
  exact Prod.ext hzero ((fuseread_nil_iff st lo hi t).2 h)

/-- What was asked for: the bytes from `offset` on, up to `n` of them. -/
structure Exact (v : BitVec 64) (n offset : Int) (r : Int × Bytes) : Prop where
  copied : r.2 = part (bigEndian v) offset.toNat n.toNat
  within : (r.2.length : Int) ≤ n
  returned : r.1 = r.2.length

/-- The rest of a fuse. -/
def rest (v : BitVec 64) (k : Nat) : Bytes := (bigEndian v).drop k

theorem rest_length (v : BitVec 64) (k : Nat) : (rest v k).length = 8 - k := by
  rw [rest, List.length_drop, bigEndian_length]

theorem rest_eq_part {v : BitVec 64} {k n : Nat} (h : (rest v k).length ≤ n) :
    rest v k = part (bigEndian v) k n :=
  (List.take_of_length_le h).symm

/-- A request that reaches to the end of the fuse is answered with the rest of it. -/
theorem fuseread_enough {n : Int} {k : Nat} (h : Enough t n k) :
    fuseread t st lo hi k = (((rest (hi ++ lo) k).length : Int), rest (hi ++ lo) k) := by
  unfold Enough at h
  rw [rest_length]
  split at h
  · next h8 =>
    rw [fuseread_within st lo hi t (by omega), Int.ofNat_sub (by omega)]
    rfl
  · next h8 =>
    have hnil : rest (hi ++ lo) k = [] :=
      List.drop_eq_nil_of_le (by rw [bigEndian_length]; omega)
    rw [fuseread_behind st lo hi t h, hnil, Nat.sub_eq_zero_of_le (by omega)]
    rfl

/-- A read gives what was asked for when the request reaches to the end of the fuse, or its
offset is `Behind`. -/
theorem exact_iff {n : Int} {k : Nat} (hn : 0 ≤ n) :
    Exact (hi ++ lo) n k (fuseread t st lo hi k) ↔ Enough t n k := by
  constructor
  · intro hexact
    unfold Enough
    split
    · next h8 =>
      have hwithin := hexact.within
      rw [fuseread_within st lo hi t (by omega), List.length_drop,
        bigEndian_length] at hwithin
      omega
    · next h8 =>
      rw [← fuseread_nil_iff st lo hi t, hexact.copied, part,
        List.drop_eq_nil_of_le (by rw [bigEndian_length]; omega)]
      exact List.take_nil
  · intro h
    have hlen : (rest (hi ++ lo) k).length ≤ n.toNat := by
      unfold Enough at h
      rw [rest_length]
      split at h <;> omega
    rw [fuseread_enough st lo hi t h]
    refine ⟨rest_eq_part hlen, ?_, rfl⟩
    show ((rest (hi ++ lo) k).length : Int) ≤ n
    omega

end

/-! ## Reads at consecutive offsets -/

/-- A fuse in the registers, and what a read of it does not depend on. -/
structure Device where
  sizeof : Sizeof
  reg : EfuseReg
  devdirread : Int → Int → Except String (Int × Bytes)
  fuse : Fuse

/-- A read: the stack of the call, and the count. -/
structure Request where
  st : Stack
  n : Nat

/-- A reader: where it is, and what it has got. -/
structure Reader where
  offset : Int
  got : Bytes
deriving DecidableEq

namespace Device

variable (dev : Device)

def read (st : Stack) (n offset : Int) : Except String (Int × Bytes) :=
  efuseread dev.sizeof st dev.reg dev.devdirread dev.fuse.path n offset

/-- The value of the fuse. -/
def value : BitVec 64 :=
  match dev.fuse with
  | .efuse0 => dev.reg.hi0 ++ dev.reg.lo0
  | .efuse1 => dev.reg.hi1 ++ dev.reg.lo1

/-- The read gives what was asked for. -/
def Right (st : Stack) (n offset : Int) : Prop :=
  ∃ r, dev.read st n offset = .ok r ∧ Exact dev.value n offset r

/-- The reader goes on where the last read ended. -/
def next (s : Reader) (q : Request) : Option Reader :=
  match dev.read q.st q.n s.offset with
  | .ok r => some ⟨s.offset + r.1, s.got ++ r.2⟩
  | .error _ => none

/-- A reader that has got the first `m` bytes, or all of them. -/
def readto (m : Nat) : Reader :=
  ⟨(part (bigEndian dev.value) 0 m).length, part (bigEndian dev.value) 0 m⟩

theorem read_eq (st : Stack) (n offset : Int) :
    ∃ lo hi, dev.value = hi ++ lo ∧
      dev.read st n offset = .ok (fuseread dev.sizeof st lo hi offset) := by
  unfold read value
  cases dev.fuse with
  | efuse0 => exact ⟨_, _, rfl, rfl⟩
  | efuse1 => exact ⟨_, _, rfl, rfl⟩

theorem right_iff (st : Stack) {n : Int} {k : Nat} (hn : 0 ≤ n) :
    dev.Right st n k ↔ Enough dev.sizeof n k := by
  obtain ⟨lo, hi, hvalue, hread⟩ := dev.read_eq st n k
  unfold Right
  rw [hvalue, hread, ← exact_iff st lo hi dev.sizeof hn]
  constructor
  · rintro ⟨r, hr, hexact⟩
    cases hr
    exact hexact
  · exact fun hexact => ⟨_, rfl, hexact⟩

theorem read_end (st : Stack) (n : Int) : dev.read st n 8 = .ok (0, []) := by
  obtain ⟨lo, hi, -, hread⟩ := dev.read_eq st n 8
  rw [hread]
  exact congrArg _ (fuseread_within st lo hi dev.sizeof (Nat.le_refl 8))

/-- The read gives the reader what it asks for. -/
def Gives (s : Reader) (q : Request) : Prop := dev.Right q.st q.n s.offset

/-- The reader asks for enough. -/
def Asks (s : Reader) (q : Request) : Prop := Enough dev.sizeof q.n s.offset

instance (s : Reader) (q : Request) : Decidable (dev.Asks s q) :=
  inferInstanceAs (Decidable (Enough _ _ _))

theorem gives_iff (m : Nat) (q : Request) :
    dev.Gives (dev.readto m) q ↔ dev.Asks (dev.readto m) q :=
  dev.right_iff q.st (Int.natCast_nonneg q.n)

theorem next_asks {m : Nat} {q : Request} (h : dev.Asks (dev.readto m) q) :
    dev.next (dev.readto m) q = some (dev.readto (m + q.n)) := by
  obtain ⟨r, hread, hexact⟩ := (dev.gives_iff m q).2 h
  have hgot : (dev.readto m).got ++ r.2 = (dev.readto (m + q.n)).got := by
    have hpart := part_append (bigEndian dev.value) 0 m q.n
    rw [Nat.zero_add] at hpart
    rw [hexact.copied]
    exact hpart
  have hoffset : (dev.readto m).offset + r.1 = (dev.readto (m + q.n)).offset := by
    have hlen := congrArg List.length hgot
    rw [List.length_append] at hlen
    rw [hexact.returned]
    show ((dev.readto m).got.length : Int) + r.2.length = (dev.readto (m + q.n)).got.length
    omega
  unfold next
  rw [hread]
  show some (Reader.mk ((dev.readto m).offset + r.1) ((dev.readto m).got ++ r.2)) = _
  rw [hoffset, hgot]

/-- Reads that ask for enough, joined, are the front of the fuse. -/
theorem reads_from (m : Nat) (qs : List Request)
    (h : AllSteps dev.next dev.Asks (dev.readto m) qs) :
    run dev.next (dev.readto m) qs = some (dev.readto (m + (qs.map Request.n).sum)) := by
  induction qs generalizing m with
  | nil => rfl
  | cons q qs ih =>
      obtain ⟨s, hs⟩ : ∃ s, dev.next (dev.readto m) q = some s := by
        obtain ⟨lo, hi, -, hread⟩ := dev.read_eq q.st q.n (dev.readto m).offset
        unfold next
        rw [hread]
        exact ⟨_, rfl⟩
      simp only [AllSteps, hs] at h
      have hnext := next_asks dev h.1
      obtain rfl := Option.some.inj (hs.symm.trans hnext)
      rw [run_cons qs hnext, ih (m + q.n) h.2, List.map_cons, List.sum_cons,
        Nat.add_assoc]

theorem gives_iff_asks (qs : List Request) :
    AllSteps dev.next dev.Gives (dev.readto 0) qs ↔
      AllSteps dev.next dev.Asks (dev.readto 0) qs := by
  refine allSteps_iff_allSteps (I := fun s => ∃ m, s = dev.readto m) ?_ ?_ qs ⟨0, rfl⟩
  · rintro s q s' ⟨m, rfl⟩ hasks hs
    rw [next_asks dev hasks] at hs
    exact ⟨_, (Option.some.inj hs).symm⟩
  · rintro s q s' ⟨m, rfl⟩ -
    exact dev.gives_iff m q

/-- With the whole of it asked for, a reader has the fuse. -/
theorem readto_all {m : Nat} (h : 8 ≤ m) : dev.readto m = ⟨8, bigEndian dev.value⟩ := by
  have hpart : part (bigEndian dev.value) 0 m = bigEndian dev.value :=
    List.take_of_length_le (by rw [List.drop_zero, bigEndian_length]; exact h)
  unfold readto
  rw [hpart, bigEndian_length]
  rfl

/-- A read gives what was asked for when the request reaches to the end of the fuse, or its
offset is `Behind`; and so do all reads of a reader that starts at the front.  It then has
what it asked for, and after the end of the fuse gets nothing more. -/
theorem reads_right_iff :
    (∀ (st : Stack) (n offset : Int), 0 ≤ n → 0 ≤ offset →
      (dev.Right st n offset ↔ Enough dev.sizeof n offset)) ∧
    ∀ qs : List Request,
      (AllSteps dev.next dev.Gives ⟨0, []⟩ qs ↔ AllSteps dev.next dev.Asks ⟨0, []⟩ qs) ∧
      (AllSteps dev.next dev.Asks ⟨0, []⟩ qs →
        ∃ s, run dev.next ⟨0, []⟩ qs = some s ∧
          s.got = (bigEndian dev.value).take (qs.map Request.n).sum ∧
          s.offset = s.got.length ∧
          (8 ≤ (qs.map Request.n).sum → s = ⟨8, bigEndian dev.value⟩ ∧
            ∀ st n, dev.read st n s.offset = .ok (0, []))) := by
  refine ⟨fun st n offset hn h0 => ?_, fun qs => ⟨dev.gives_iff_asks qs, fun h => ?_⟩⟩
  · obtain ⟨k, rfl⟩ := Int.eq_ofNat_of_zero_le h0
    exact dev.right_iff st hn
  · refine ⟨_, dev.reads_from 0 qs h, ?_, rfl, fun h8 => ?_⟩
    · rw [Nat.zero_add]
      rfl
    · have hall : dev.readto (0 + (qs.map Request.n).sum) = ⟨8, bigEndian dev.value⟩ :=
        dev.readto_all (by omega)
      rw [hall]
      exact ⟨rfl, dev.read_end⟩

end Device

/-- A fuse with eight different bytes. -/
def burned : Device where
  sizeof := .signed
  reg := ⟨0, 0x04050607, 0x00010203, 0, 0, 0⟩
  devdirread _ _ := .error "directory"
  fuse := .efuse0

def stack : Stack := ⟨fun _ => 0xff, 0x1000, by decide⟩

theorem burned_reads :
    burned.Right stack 12 3 ∧
    burned.read stack 12 3 = .ok (5, [3, 4, 5, 6, 7]) ∧
    ∃ s, run burned.next ⟨0, []⟩ [⟨stack, 8⟩, ⟨stack, 1⟩] = some s ∧
      s.got = [0, 1, 2, 3, 4, 5, 6, 7] := by
  have hright : burned.Right stack 12 3 :=
    ((Device.reads_right_iff burned).1 stack 12 3 (by decide) (by decide)).2 (by decide)
  obtain ⟨s, hrun, hgot, -⟩ := ((Device.reads_right_iff burned).2
    [⟨stack, 8⟩, ⟨stack, 1⟩]).2 (by decide)
  exact ⟨hright, by decide, s, hrun, hgot⟩

/-- A read of one byte copies eight. -/
theorem short_read_overruns :
    burned.read stack 1 0 = .ok (8, [0, 1, 2, 3, 4, 5, 6, 7]) ∧
    ¬ ∀ (dev : Device) (st : Stack) (n offset : Int), 0 ≤ n → 0 ≤ offset →
      offset < 2 ^ 63 → dev.Right st n offset := by
  have hread : burned.read stack 1 0 = .ok (8, [0, 1, 2, 3, 4, 5, 6, 7]) := by decide
  refine ⟨hread, fun h => ?_⟩
  obtain ⟨r, hr, hexact⟩ := h burned stack 1 0 (by decide) (by decide) (by decide)
  cases hread.symm.trans hr
  exact absurd hexact.within (by decide)

end Kirkwood.Ports.DevEfuseRead
