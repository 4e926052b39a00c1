import Mathlib.Algebra.Order.Ring.Nat
import Mathlib.Logic.Function.Basic

/-!
# Request entries of the SATA disk

`io` of `devsata.c` describes a transfer to the EDMA engine by an entry of
`reqs` and, above 64 KiB, by a scatter table in the eight entries of `prds` that
belong to the same slot.

## Main results

* `prdfill_frame`: `prdfill` writes no more entries than the transfer has pieces
  of 64 KiB;
* `fillprds_frame`: `io` writes no entry of `prds` outside its slot's eight.
-/

namespace Kirkwood.Ports.SataRequest

def Rdev2mem : Nat := 1 <<< 0
def Rdevtagshift : Nat := 1
def Rprdsingle : Nat := 1 <<< 16
def Rhosttagshift : Nat := 17
def Endoftable : Nat := 1 <<< 31

def MASK (n : Nat) : Nat := (1 <<< n) - 1

/-- An EDMA request. -/
structure Req where
  prdlo : Nat
  prdhi : Nat
  ctl : Nat
  count : Nat
  ata : List Nat
  deriving DecidableEq, Repr

/-- An entry of a scatter table. -/
structure Prd where
  addrlo : Nat
  flagcount : Nat
  addrhi : Nat
  deriving DecidableEq, Repr

/-- What `io` is asked for, after its checks: a direction, a buffer, and a
number of sectors from a sector on. -/
structure Transfer where
  write : Bool
  buf : Nat
  ns : Nat
  lba : Nat
  deriving DecidableEq, Repr

/-- The sectors that one call transfers. -/
def Transfer.sectors (t : Transfer) : Nat :=
  if t.ns > 128 then (if t.ns > 8 * 128 then 8 * 128 else t.ns) else t.ns

/-- `prdfill`: fill the table from entry `k` on with pieces of 64 KiB. -/
def prdfill (prds : Nat → Prd) (k : Nat) (buf n : Nat) : Nat → Prd :=
  let nn := min n (64 * 1024)
  let count := nn &&& ((1 <<< 16) - 1)
  if h : n - nn = 0 then
    Function.update prds k ⟨buf, count ||| Endoftable, 0⟩
  else
    prdfill (Function.update prds k ⟨buf, count, 0⟩) (k + 1)
      ((buf + 64 * 1024) % 2 ^ 32) (n - nn)
termination_by n
decreasing_by omega

/-- The entries of `prds` after `io` took slot `i`. -/
def fillprds (prds : Nat → Prd) (i : Nat) (t : Transfer) : Nat → Prd :=
  if t.ns > 128 then prdfill prds (i * 8) t.buf (t.sectors * 512) else prds

/-- The request that `io` puts in slot `i`; `prds` is where the scatter tables
are in memory. -/
def fillreq (prds i tag : Nat) (t : Transfer) : Req :=
  let direct : Req :=
    if t.ns > 128 then ⟨prds + i * 8 * 16, 0, 0, 0, []⟩
    else ⟨t.buf, 0, Rprdsingle, (t.ns * 512) &&& ((1 <<< 16) - 1), []⟩
  let ctl := if t.write then direct.ctl else direct.ctl ||| Rdev2mem
  let ctl := ctl ||| tag <<< Rdevtagshift
  let ctl := ctl ||| tag <<< Rhosttagshift
  let lbalo := t.lba >>> 0 &&& MASK 24
  let lbahi := t.lba >>> 24 &&& MASK 24
  let nslo := t.sectors >>> 0 &&& 0xff
  let nshi := t.sectors >>> 8 &&& 0xff
  let dev := 1 <<< 6
  { direct with
    ctl := ctl
    ata := [(if t.write then 0x61 else 0x60) <<< 16 ||| nslo <<< 24,
      lbalo <<< 0 ||| dev <<< 24, lbahi <<< 0 ||| nshi <<< 24, tag <<< 3] }

/-! ## What the table occupies -/

theorem prdfill_frame {prds : Nat → Prd} {k buf n p x : Nat} (hp : 0 < p)
    (hn : n ≤ p * (64 * 1024)) (hx : x < k ∨ k + p ≤ x) :
    prdfill prds k buf n x = prds x := by
  induction p generalizing prds k buf n with
  | zero => exact absurd hp (Nat.lt_irrefl 0)
  | succ p ih =>
      have hne : x ≠ k := by omega
      rw [prdfill]
      by_cases hlast : n - min n (64 * 1024) = 0
      · rw [dif_pos hlast]
        exact Function.update_of_ne hne _ _
      · rw [dif_neg hlast]
        have hpos : 0 < p := by
          by_contra hzero
          have : p = 0 := by omega
          subst this
          omega
        rw [ih hpos (by omega) (by omega)]
        exact Function.update_of_ne hne _ _

theorem Transfer.sectors_eq (t : Transfer) : t.sectors = min t.ns 1024 := by
  unfold Transfer.sectors
  split
  · split
    · omega
    · omega
  · omega

theorem Transfer.sectors_le (t : Transfer) : t.sectors ≤ 8 * 128 := by
  rw [t.sectors_eq]
  exact Nat.min_le_right _ _

/-- The table of slot `i` stays within `prds[i*8 .. i*8+7]`. -/
theorem fillprds_frame (prds : Nat → Prd) {i x : Nat} (t : Transfer)
    (hx : x / 8 ≠ i) : fillprds prds i t x = prds x := by
  unfold fillprds
  split
  · have hle := t.sectors_le
    apply prdfill_frame (p := 8) (by omega)
    · omega
    · omega
  · rfl

end Kirkwood.Ports.SataRequest
