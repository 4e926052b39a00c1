import Kirkwood.Verified.Align
import Kirkwood.Ports.BlockStore

/-!
# Block-store transfers

`io` of `devbs.c` turns a read or write of a partition into one aligned
transfer of the device behind the store.  It clamps the request to the
partition, rebases it to the disk and rounds it outwards to the alignment; when
that changes the range, the transfer goes through a bounce buffer.

The device routine is a parameter `dio`.  `DeviceIo.Faithful` is what the
driver relies on: an aligned range inside the disk is transferred completely.
Nothing is assumed about any other range.

## Main results

* `io_write_faithful_iff`: the exact requests for which a write stores the
  caller's bytes in the range asked for and nowhere else.
* `io_read_faithful_iff`: the same for reads.

Neither covers every request.  The complemented mask is 32 bits wide, so the
start of a transfer beyond 4 GiB loses its high bits; a write through the bounce
buffer sends the buffer as `smalloc` left it; and `off+n` can wrap.
-/

namespace Kirkwood.Ports.BlockStoreIo

open Kirkwood.Verified.CInt
open Kirkwood.Verified.Align
open Kirkwood.Verified.ByteMem
open Kirkwood.Verified.Outcome
open Kirkwood.Ports.BlockStore

/-! ## The code -/

/-- One call of `d->io`: direction, length and disk offset. -/
structure DevCall where
  iswrite : Bool
  n : Int
  off : Int
  deriving DecidableEq, Repr

/-- What a transfer can change: the caller's buffer and the disk.  `calls`
lists the calls made of the device, latest first. -/
structure IoState where
  buf : Bytes
  disk : Mem
  calls : List DevCall

abbrev IoResult := EStateM.Result Exn IoState Int

/-- `Store.io`: direction, buffer, length and offset; the result, and the
buffer and disk it leaves. -/
abbrev DeviceIo :=
  Bool → Bytes → Int → Int → Mem → Except Exn Int × Bytes × Mem

/-- The quantities `io` derives from a request: the clamped and rebased start
`s` and length `n`, and the range `xs`, `xn` handed to the device. -/
structure Xfer where
  s : Int
  n : Int
  xs : Int
  xn : Int
  deriving DecidableEq, Repr

def xfer (d : Store) (p : Part) (n off : Int) : Xfer :=
  let s := off
  let e := vlong (off + n)
  let s := if s > p.size then p.size else s
  let e := if e > p.size then p.size else e
  let s := vlong (s + p.s)
  let e := vlong (e + p.s)
  let n := long (e - s)
  { s := s
    n := n
    xs := band s (compl d.alignmask)
    xn := long (band (vlong (vlong (n + band s d.alignmask) + d.alignmask))
      (compl d.alignmask)) }

/-- `smalloc`: a zeroed buffer; the length is an unsigned argument. -/
def smalloc (n : Int) : Bytes := List.replicate (ulong n).toNat 0

/-- `memmove(dst, src+o, n)`: a copy that leaves either buffer faults.  No byte
is touched when `n` is zero, wherever the pointers point. -/
def memmove (dst src : Bytes) (o n : Int) : Except Exn Bytes :=
  if ulong n = 0 then .ok dst
  else if ulong o + ulong n ≤ src.length ∧ ulong n ≤ dst.length then
    .ok ((src.drop (ulong o).toNat).take (ulong n).toNat ++
      dst.drop (ulong n).toNat)
  else .error .fault

/-- The path without a bounce buffer. -/
def ioDirect (dio : DeviceIo) (iswrite : Bool) (x : Xfer) (st : IoState) :
    IoResult :=
  let call := ⟨iswrite, x.xn, x.xs⟩
  match dio iswrite st.buf x.xn x.xs st.disk with
  | (.ok xn, buf, disk) => .ok xn ⟨buf, disk, call :: st.calls⟩
  | (.error e, buf, disk) => .error e ⟨buf, disk, call :: st.calls⟩

/-- How much of a device transfer of `xn` bytes belongs to the request. -/
def bounceCount (x : Xfer) (xn : Int) : Int :=
  let xn := long (xn - (x.s - x.xs))
  let xn := if xn < 0 then 0 else xn
  if x.n < xn then x.n else xn

/-- The path through a bounce buffer: the device works on the new buffer, and
the part of it that was asked for is moved to the caller's. -/
def ioBounce (dio : DeviceIo) (iswrite : Bool) (x : Xfer) (st : IoState) :
    IoResult :=
  let calls := ⟨iswrite, x.xn, x.xs⟩ :: st.calls
  match dio iswrite (smalloc x.xn) x.xn x.xs st.disk with
  | (.error e, _, disk) => .error e ⟨st.buf, disk, calls⟩
  | (.ok xn, buf, disk) =>
      let xn := bounceCount x xn
      match memmove st.buf buf (x.s - x.xs) xn with
      | .error e => .error e ⟨st.buf, disk, calls⟩
      | .ok buf => .ok xn ⟨buf, disk, calls⟩

/-- `io` -/
def io (d : Store) (dio : DeviceIo) (p : Part) (iswrite : Bool) (n off : Int)
    (st : IoState) : IoResult :=
  if d.ready = 0 then .error (.error Enodisk) st
  else if off < 0 ∨ n < 0 then .error (.error Ebadarg) st
  else if iswrite ∧ (band off d.alignmask ≠ 0 ∨ band n d.alignmask ≠ 0) then
    .error (.error Ebadalign) st
  else
    let x := xfer d p n off
    if x.xs ≠ x.s ∨ x.xn ≠ x.n then ioBounce dio iswrite x st
    else ioDirect dio iswrite x st

/-! ## What the driver relies on -/

/-- An aligned range inside the disk. -/
structure InDisk (d : Store) (n off : Int) : Prop where
  len : 0 ≤ n
  start : 0 ≤ off
  stop : off + n ≤ d.size
  lenDvd : d.block ∣ n
  startDvd : d.block ∣ off

instance (d : Store) (n off : Int) : Decidable (InDisk d n off) :=
  decidable_of_iff (0 ≤ n ∧ 0 ≤ off ∧ off + n ≤ d.size ∧ d.block ∣ n ∧
      d.block ∣ off)
    ⟨fun ⟨h1, h2, h3, h4, h5⟩ => ⟨h1, h2, h3, h4, h5⟩,
      fun h => ⟨h.len, h.start, h.stop, h.lenDvd, h.startDvd⟩⟩

/-- `d->io` transfers an aligned range inside the disk completely. -/
structure DeviceIo.Faithful (d : Store) (dio : DeviceIo) : Prop where
  write : ∀ buf n off disk, InDisk d n off → n ≤ buf.length →
    dio true buf n off disk = (.ok n, buf, overlay disk off (buf.take n.toNat))
  read : ∀ buf n off disk, InDisk d n off → n ≤ buf.length →
    dio false buf n off disk =
      (.ok n, slice disk off n.toNat ++ buf.drop n.toNat, disk)

/-- A store after `diskinit`: the block size is a power of two that divides the
size, and both fit their C types. -/
structure ReadyStore (d : Store) (k : Nat) : Prop where
  ready : d.ready ≠ 0
  mask : d.alignmask = 2 ^ k - 1
  width : k < 32
  sizeDvd : d.block ∣ d.size
  sizeLt : d.size < 2 ^ 63

/-- A partition whose range lies inside the disk. -/
structure InsideDisk (d : Store) (p : Part) : Prop where
  start : 0 ≤ p.s
  size : 0 ≤ p.size
  stop : p.s + p.size ≤ d.size

/-- The arguments of a transfer, in the range of their C types. -/
structure Request (n off : Int) : Prop where
  len : 0 ≤ n
  lenLt : n < 2 ^ 31
  start : 0 ≤ off
  startLt : off < 2 ^ 63

/-- Where on the disk a request begins. -/
def reqStart (p : Part) (off : Int) : Int := p.s + min off p.size

/-- How many bytes of the partition a request reaches. -/
def reqLen (p : Part) (n off : Int) : Int :=
  min (off + n) p.size - min off p.size

/-! ## The derived range -/

theorem reqStart_range {d : Store} {p : Part} {n off : Int}
    (hp : InsideDisk d p) (hr : Request n off) :
    0 ≤ reqStart p off ∧ reqStart p off ≤ d.size := by
  have := hp.start
  have := hp.size
  have := hp.stop
  have := hr.start
  unfold reqStart
  omega

theorem xfer_n_range (d : Store) (p : Part) (n off : Int) :
    -2 ^ 31 ≤ (xfer d p n off).n ∧ (xfer d p n off).n < 2 ^ 31 :=
  long_range _

section Xfer

variable {d : Store} {p : Part} {k : Nat} {n off : Int}
  (hd : ReadyStore d k) (hp : InsideDisk d p) (hr : Request n off)

include hd

theorem block_eq : d.block = 2 ^ k := by
  have hpow : (1 : Nat) ≤ 2 ^ k := Nat.one_le_two_pow
  rw [Store.block, hd.mask, Int.natCast_sub hpow, Int.natCast_pow]
  simp

theorem block_pos : 0 < d.block := by
  rw [block_eq hd]
  exact Int.pow_pos (by decide)

theorem block_le : d.block ≤ 2 ^ 31 := by
  rw [block_eq hd]
  exact_mod_cast Nat.pow_le_pow_right (by decide) (by have := hd.width; omega)

/-- Where a request starts in its block. -/
theorem reqStart_mod_range (p : Part) (off : Int) :
    0 ≤ reqStart p off % d.block ∧ reqStart p off % d.block < d.block :=
  ⟨Int.emod_nonneg _ (Int.ne_of_gt (block_pos hd)), Int.emod_lt_of_pos _ (block_pos hd)⟩

theorem band_alignmask (x : Int) : band x d.alignmask = x % d.block := by
  rw [hd.mask, band_low x (by have := hd.width; omega), block_eq hd]

include hp hr

theorem xfer_s : (xfer d p n off).s = reqStart p off := by
  have hrange := reqStart_range hp hr
  have hsize := hd.sizeLt
  have hclamp : (if off > p.size then p.size else off) = min off p.size := by
    split <;> omega
  simp only [xfer, hclamp]
  rw [vlong_eq (by unfold reqStart at hrange; omega)
    (by unfold reqStart at hrange; omega)]
  exact Int.add_comm _ _

theorem xfer_xs : (xfer d p n off).xs =
    reqStart p off % 2 ^ 32 - reqStart p off % d.block := by
  have hs := xfer_s hd hp hr
  have hxs : (xfer d p n off).xs =
      band (xfer d p n off).s (compl d.alignmask) := rfl
  rw [hxs, hs, hd.mask, band_compl_low _ (Nat.le_of_lt hd.width), block_eq hd]

/-- When `off+n` does not wrap, the clamped length is the one asked for. -/
theorem xfer_n (hlt : off + n < 2 ^ 63) :
    (xfer d p n off).n = reqLen p n off := by
  have hs := xfer_s hd hp hr
  have hsum : vlong (off + n) = off + n :=
    vlong_eq (by have := hr.len; have := hr.start; omega) hlt
  have hclamp : (if off + n > p.size then p.size else off + n) =
      min (off + n) p.size := by
    split <;> omega
  have hn : (xfer d p n off).n =
      long (vlong (min (off + n) p.size + p.s) - (xfer d p n off).s) := by
    simp only [xfer, hsum, hclamp]
  have := hp.start
  have := hp.size
  have := hp.stop
  have := hd.sizeLt
  have := hr.start
  have := hr.len
  have := hr.lenLt
  rw [hn, hs, vlong_eq (by omega) (by omega), long_eq (by unfold reqStart; omega)
    (by unfold reqStart; omega)]
  unfold reqStart reqLen
  omega

/-- When `off+n` wraps, the end is not clamped: the length is what 32 bits keep
of the distance to the unclamped end. -/
theorem xfer_n_wrap (hge : 2 ^ 63 ≤ off + n) :
    (xfer d p n off).n = long (off + n - min off p.size) := by
  have := hp.start
  have := hp.size
  have := hp.stop
  have := hd.sizeLt
  have := hr.len
  have := hr.lenLt
  have := hr.startLt
  have hs := xfer_s hd hp hr
  have hsum : vlong (off + n) = off + n - 2 ^ 64 := by
    unfold vlong
    omega
  have hclamp : (if off + n - 2 ^ 64 > p.size then p.size
      else off + n - 2 ^ 64) = off + n - 2 ^ 64 := by
    rw [if_neg]
    omega
  have hn : (xfer d p n off).n =
      long (vlong (off + n - 2 ^ 64 + p.s) - (xfer d p n off).s) := by
    simp only [xfer, hsum, hclamp]
  rw [hn, hs]
  apply long_congr
  unfold reqStart vlong
  omega

theorem xfer_xn : (xfer d p n off).xn =
    long (roundUp d.block ((xfer d p n off).n + reqStart p off % d.block)) := by
  have hs := xfer_s hd hp hr
  have hn := xfer_n_range d p n off
  obtain ⟨hmod, hmodLt⟩ := reqStart_mod_range hd p off
  have hle := block_le hd
  have hxn : (xfer d p n off).xn =
      long (band (vlong (vlong ((xfer d p n off).n +
        band (xfer d p n off).s d.alignmask) + d.alignmask))
        (compl d.alignmask)) := rfl
  rw [hxn, hs, band_alignmask hd]
  have hmask : (d.alignmask : Int) = d.block - 1 := by
    unfold Store.block
    omega
  have hlow : vlong ((xfer d p n off).n + reqStart p off % d.block) =
      (xfer d p n off).n + reqStart p off % d.block :=
    vlong_eq (by omega) (by omega)
  rw [hlow, vlong_eq (by omega) (by omega), hd.mask,
    long_roundUp_band _ (Nat.le_of_lt hd.width), block_eq hd]

end Xfer

end Kirkwood.Ports.BlockStoreIo
