import Mathlib.Data.BitVec
import Kirkwood.Verified.Fields

/-!
# Responses of an SD card

The controller gives the 136 bits of a long response in eight registers.  `sdcmd` of
`kwsdio.c` shifts them into three words, and `parsecid` and `parsecsd` of `sdcard.c` cut
the card's fields out of these with `bits`.

## Main results

* `bits_slice`: what `bits` cuts out, of two bits or more;
* `bits_single`: of one bit it makes 0;
* `bits_boundary`: of a slice that ends with the first bit of a word it leaves that out;
* `decoded_iff`: the fields are those of the response exactly when the one-bit flags are
  all 0 there, or the response is of another version.
-/

namespace Kirkwood.Ports.SdResponse

open Kirkwood.Verified.Fields

/-! ## The command's end -/

/-- The registers of the controller that hold a response. -/
structure SdioReg where
  resp : Fin 8 → BitVec 32
  crc7 : BitVec 32

/-- `resp` of a card. -/
structure Resp where
  resp0 : BitVec 64
  resp1 : BitVec 64
  resp2 : BitVec 64
deriving DecidableEq, Repr, Inhabited

/-- What a command leaves in the card. -/
structure Card where
  resp : Resp
  status : BitVec 32
deriving DecidableEq, Repr, Inhabited

/-- The response that a command expects. -/
inductive Rt where
  | R0 | R1 | R1b | R2 | R3 | R6 | R7
deriving DecidableEq, Repr

inductive Resptype where
  | Respnone | Resp136 | Resp48 | Resp48busy
deriving DecidableEq, Repr

def resptypes : Rt → Resptype
  | .R0 => .Respnone
  | .R1 => .Resp48
  | .R1b => .Resp48busy
  | .R2 => .Resp136
  | .R3 => .Resp48
  | .R6 => .Resp48
  | .R7 => .Resp48

def MASK (n : Nat) : BitVec 32 := (1#32 <<< n) - 1#32

def SDbad : BitVec 32 :=
  1#32 <<< 3 ||| 1#32 <<< 13 ||| 1#32 <<< 14 ||| 1#32 <<< 15 ||| 1#32 <<< 16 |||
    MASK 13 <<< 19

def SDOk : Int := 0
def SDBadstatus : Int := -5

/-- A register as a `uvlong`. -/
def uvlong (x : BitVec 32) : BitVec 64 := x.setWidth 64

/-- `sdcmd` from where the command has completed: fetch the response. -/
def sdcmd (c : Card) (r : SdioReg) (rt : Rt) : Card × Int :=
  let resp : Resp :=
    match resptypes rt with
    | .Respnone => ⟨0#64, 0#64, 0#64⟩
    | .Resp136 =>
        ⟨uvlong (r.resp 0) >>> 10,
          uvlong (r.resp 4) >>> 10 ||| uvlong (r.resp 3) <<< (70 - 64) |||
            uvlong (r.resp 2) <<< (86 - 64) ||| uvlong (r.resp 1) <<< (102 - 64) |||
            uvlong (r.resp 0) <<< (118 - 64),
          uvlong (r.crc7 <<< 1) ||| (uvlong (r.resp 7) &&& uvlong (MASK 14)) <<< 8 |||
            uvlong (r.resp 6) <<< 22 ||| uvlong (r.resp 5) <<< 38 |||
            uvlong (r.resp 4) <<< 54⟩
    | .Resp48 | .Resp48busy =>
        ⟨0#64, 0#64,
          uvlong (r.crc7 <<< 1) ||| (uvlong (r.resp 2) &&& uvlong (MASK 6)) <<< 8 |||
            uvlong (r.resp 1) <<< 14 ||| uvlong (r.resp 0) <<< 30⟩
  let c := { c with resp := resp }
  if rt = .R1 ∨ rt = .R1b then
    let c := { c with status := (c.resp.resp2 >>> 8).setWidth 32 }
    if c.status &&& SDbad ≠ 0#32 then (c, SDBadstatus) else (c, SDOk)
  else (c, SDOk)

/-! ## Cutting fields out -/

/-- The loop of `bits`, over the words from the last one back; below bit 192 it ends
before they do. -/
def bitsloop : List (BitVec 64) → Int → Int → BitVec 64 → Nat → BitVec 64
  | [], _, _, v, _ => v
  | x :: r, h, l, v, o =>
      if h > l ∧ l ≥ 0 then
        if l < 64 then
          let n := (min h 63 - l + 1).toNat
          let v := v ||| ((x >>> l.toNat) &&& ((1#64 <<< n) - 1#64)) <<< o
          bitsloop r (h - 64) (l + n - 64) v (o + n)
        else bitsloop r (h - 64) (l - 64) v o
      else v

/-- Bits `h` to `l`, as a `ulong`. -/
def bits (r : Resp) (h l : Nat) : Nat :=
  (bitsloop [r.resp2, r.resp1, r.resp0] h l 0#64 0).toNat % 2 ^ 32

/-- The two words that hold the fields. -/
def Resp.low (r : Resp) : Nat := r.resp2.toNat + r.resp1.toNat * 2 ^ 64

theorem bits_single (r : Resp) (k : Nat) : bits r k k = 0 := by
  simp [bits, bitsloop]

/-- One turn of the loop. -/
private theorem turn_toNat (x v : BitVec 64) {l n o : Nat} (hn : n < 64) (ho : o + n ≤ 64)
    (hv : v.toNat < 2 ^ o) :
    (v ||| ((x >>> l) &&& ((1#64 <<< n) - 1#64)) <<< o).toNat =
      v.toNat + field x.toNat l n * 2 ^ o := by
  have hmask : ((1#64 <<< n) - 1#64).toNat = 2 ^ n - 1 := by
    have hlt : 2 ^ n < 2 ^ 64 := Nat.pow_lt_pow_right (by decide) hn
    have hpos := Nat.two_pow_pos n
    rw [BitVec.toNat_sub, BitVec.toNat_shiftLeft, BitVec.toNat_ofNat, Nat.shiftLeft_eq]
    omega
  have hfield : ((x >>> l) &&& ((1#64 <<< n) - 1#64)).toNat = field x.toNat l n := by
    rw [BitVec.toNat_and, hmask, BitVec.toNat_ushiftRight, Nat.and_two_pow_sub_one_eq_mod,
      Nat.shiftRight_eq_div_pow, field]
  have hfit : field x.toNat l n <<< o < 2 ^ 64 := by
    rw [Nat.shiftLeft_eq]
    calc field x.toNat l n * 2 ^ o < 2 ^ n * 2 ^ o :=
          Nat.mul_lt_mul_of_pos_right (field_lt ..) (Nat.two_pow_pos o)
      _ = 2 ^ (o + n) := by rw [← Nat.pow_add, Nat.add_comm]
      _ ≤ 2 ^ 64 := Nat.pow_le_pow_right (by decide) ho
  rw [BitVec.toNat_or, BitVec.toNat_shiftLeft, hfield, Nat.mod_eq_of_lt hfit, or_shift hv]

/-- The loop ends where it has come past `h`. -/
private theorem bitsloop_done (ws : List (BitVec 64)) {h l : Int} (hl : h ≤ l)
    (v : BitVec 64) (o : Nat) : bitsloop ws h l v o = v := by
  cases ws with
  | nil => rfl
  | cons x r => rw [bitsloop, if_neg (by omega)]

/-- A word that holds bits of a field. -/
private theorem bitsloop_turn (x v : BitVec 64) (ws : List (BitVec 64)) {h l n : Nat}
    (o : Nat) (hl : l < h) (hl64 : l < 64) (hn : n = min h 63 + 1 - l) :
    bitsloop (x :: ws) h l v o =
      bitsloop ws ((h : Int) - 64) ((l : Int) + n - 64)
        (v ||| ((x >>> l) &&& ((1#64 <<< n) - 1#64)) <<< o) (o + n) := by
  have hcount : (min (h : Int) 63 - l + 1).toNat = n := by omega
  rw [bitsloop, if_pos (by omega), if_pos (by omega), hcount, Int.toNat_natCast]

/-- The word that holds the last bits. -/
private theorem bitsloop_last (x v : BitVec 64) (ws : List (BitVec 64)) {h l n o : Nat}
    (hl : l < h) (hh : h < 64) (hn : n = h + 1 - l) (hn64 : n < 64)
    (ho : o + n ≤ 64) (hv : v.toNat < 2 ^ o) :
    (bitsloop (x :: ws) h l v o).toNat = v.toNat + field x.toNat l n * 2 ^ o := by
  rw [bitsloop_turn x v ws (n := n) o hl (by omega) (by omega), bitsloop_done _ (by omega),
    turn_toNat x v hn64 ho hv]

theorem bits_slice (r : Resp) {h l : Nat} (hl : l < h) (hh : h < 128) (hne : h ≠ 64)
    (hw : h + 1 - l ≤ 32) : bits r h l = field r.low l (h + 1 - l) := by
  have hzero : (0#64).toNat < 2 ^ 0 := Nat.zero_lt_one
  suffices hloop : (bitsloop [r.resp2, r.resp1, r.resp0] h l 0#64 0).toNat =
      field r.low l (h + 1 - l) by
    rw [bits, hloop, Nat.mod_eq_of_lt]
    exact Nat.lt_of_lt_of_le (field_lt ..) (Nat.pow_le_pow_right (by decide) hw)
  rw [Resp.low]
  by_cases h64 : h < 64
  · rw [bitsloop_last r.resp2 0#64 _ hl h64 rfl (by omega) (by omega) hzero,
      field_add_mul _ (by omega), BitVec.toNat_zero, Nat.zero_add, Nat.pow_zero,
      Nat.mul_one]
  have hhigh : (h : Int) - 64 = (h - 64 : Nat) := by omega
  by_cases hl64 : 64 ≤ l
  · have hlow : (l : Int) - 64 = (l - 64 : Nat) := by omega
    rw [bitsloop, if_pos (by omega), if_neg (by omega), hhigh, hlow,
      bitsloop_last r.resp1 0#64 _ (n := h + 1 - l) (by omega) (by omega) (by omega)
        (by omega) (by omega) hzero,
      field_add_shift r.resp2.isLt _ _ hl64, BitVec.toNat_zero, Nat.zero_add, Nat.pow_zero,
      Nat.mul_one]
  · -- the field crosses from one word to the next
    have hlow : (l : Int) + (64 - l : Nat) - 64 = (0 : Nat) := by omega
    have hfirst := turn_toNat r.resp2 0#64 (l := l) (n := 64 - l) (by omega)
      (by omega) hzero
    rw [BitVec.toNat_zero, Nat.zero_add, Nat.pow_zero, Nat.mul_one] at hfirst
    have hsplit : h + 1 - l = 64 - l + (h - 63) := by omega
    rw [bitsloop_turn r.resp2 0#64 _ (n := 64 - l) 0 hl (by omega) (by omega), hhigh, hlow,
      Nat.zero_add,
      bitsloop_last r.resp1 _ _ (n := h - 63) (by omega) (by omega) (by omega) (by omega)
        (by omega) (hfirst ▸ field_lt ..),
      hfirst, hsplit, field_append, field_add_mul _ (by omega),
      show l + (64 - l) = 64 by omega, field_add_shift r.resp2.isLt _ _ (Nat.le_refl 64)]

/-- The bit that is left over behind a word is not looked at. -/
theorem bits_boundary (r : Resp) {l : Nat} (hl : l < 64) (hw : 64 - l ≤ 32) :
    bits r 64 l = field r.low l (64 - l) := by
  have hzero : (0#64).toNat < 2 ^ 0 := Nat.zero_lt_one
  suffices hloop : (bitsloop [r.resp2, r.resp1, r.resp0] (64 : Nat) l 0#64 0).toNat =
      field r.low l (64 - l) by
    rw [bits, hloop, Nat.mod_eq_of_lt]
    exact Nat.lt_of_lt_of_le (field_lt ..) (Nat.pow_le_pow_right (by decide) hw)
  rw [bitsloop_turn r.resp2 0#64 _ (n := 64 - l) 0 (by omega) hl (by omega),
    bitsloop_done _ (by omega), turn_toNat r.resp2 0#64 (by omega) (by omega) hzero,
    Resp.low, field_add_mul _ (by omega), BitVec.toNat_zero, Nat.zero_add, Nat.pow_zero,
    Nat.mul_one]

/-! ## The response -/

/-- Bits `h` to `l` of a response. -/
def slice (frame : BitVec 136) (h l : Nat) : Nat := field frame.toNat l (h + 1 - l)

/-- How the controller gives a response. -/
structure Delivered (frame : BitVec 136) (r : SdioReg) : Prop where
  resp0 : (r.resp 0).toNat = slice frame 133 118
  resp1 : (r.resp 1).toNat = slice frame 117 102
  resp2 : (r.resp 2).toNat = slice frame 101 86
  resp3 : (r.resp 3).toNat = slice frame 85 70
  resp4 : (r.resp 4).toNat = slice frame 69 54
  resp5 : (r.resp 5).toNat = slice frame 53 38
  resp6 : (r.resp 6).toNat = slice frame 37 22
  resp7 : (r.resp 7).toNat % 2 ^ 14 = slice frame 21 8
  crc7 : r.crc7.toNat = slice frame 7 1

/-- A response without its last bit, which the registers do not hold. -/
private def even (x : Nat) : Nat := x / 2 * 2

private theorem field_even (x w : Nat) {o : Nat} (ho : 0 < o) :
    field (even x) o w = field x o w := by
  obtain ⟨j, rfl⟩ := Nat.exists_eq_add_of_le' ho
  unfold field even
  rw [Nat.pow_succ', ← Nat.div_div_eq_div_mul, ← Nat.div_div_eq_div_mul,
    Nat.mul_div_cancel _ Nat.two_pos]

private theorem uvlong_toNat (x : BitVec 32) : (uvlong x).toNat = x.toNat :=
  BitVec.toNat_setWidth_of_le (by decide)

private theorem uvlong_shl (x : BitVec 32) {k : Nat} (hk : k ≤ 64) :
    (uvlong x <<< k).toNat = field x.toNat 0 (64 - k) <<< k := by
  have hsplit : 2 ^ 64 = 2 ^ (64 - k) * 2 ^ k := by
    rw [← Nat.pow_add, Nat.sub_add_cancel hk]
  rw [BitVec.toNat_shiftLeft, uvlong_toNat, Nat.shiftLeft_eq, hsplit,
    Nat.mul_mod_mul_right, Nat.shiftLeft_eq, field, Nat.pow_zero, Nat.div_one]

private theorem shl_slice {frame : BitVec 136} {x : BitVec 32} {o w : Nat} {k : Nat}
    (hk : k + w ≤ 64) (ho : 0 < o) (h : x.toNat = field frame.toNat o w) :
    (uvlong x <<< k).toNat = field (even frame.toNat) o w <<< k := by
  have hlt : x.toNat < 2 ^ (64 - k) := by
    rw [h]
    exact Nat.lt_of_lt_of_le (field_lt ..) (Nat.pow_le_pow_right Nat.two_pos (by omega))
  rw [uvlong_shl x (by omega), field_self hlt, h, field_even _ _ ho]

/-- A register that loses its highest bits to the shift. -/
private theorem shl_cut {frame : BitVec 136} {x : BitVec 32} {o w k n : Nat}
    (hk : n + k = 64) (hn : n ≤ w) (ho : 0 < o) (h : x.toNat = field frame.toNat o w) :
    (uvlong x <<< k).toNat = field (even frame.toNat) o n <<< k := by
  rw [uvlong_shl x (by omega), h, show 64 - k = n by omega, field_field _ _ _ (by omega),
    field_even _ _ ho, Nat.add_zero]

private theorem resp1_eq {frame : BitVec 136} {r : SdioReg} (h : Delivered frame r)
    (c : Card) : (sdcmd c r .R2).1.resp.resp1.toNat = field (even frame.toNat) 64 64 := by
  have hr4 : (r.resp 4).toNat = field frame.toNat 54 16 := h.resp4
  have h4 : (uvlong (r.resp 4) >>> 10).toNat = field (even frame.toNat) 64 6 := by
    have hlt : field frame.toNat 54 16 / 2 ^ 10 < 2 ^ 6 :=
      Nat.div_lt_of_lt_mul (field_lt ..)
    rw [BitVec.toNat_ushiftRight, uvlong_toNat, hr4, Nat.shiftRight_eq_div_pow,
      ← Nat.mod_eq_of_lt hlt, field_even _ _ (by decide)]
    exact field_field _ 54 16 (by decide)
  have hresp : (sdcmd c r .R2).1.resp.resp1 =
      uvlong (r.resp 4) >>> 10 ||| uvlong (r.resp 3) <<< 6 ||| uvlong (r.resp 2) <<< 22 |||
        uvlong (r.resp 1) <<< 38 ||| uvlong (r.resp 0) <<< 54 := rfl
  rw [hresp, BitVec.toNat_or, BitVec.toNat_or, BitVec.toNat_or, BitVec.toNat_or, h4,
    shl_slice (by decide) (by decide) h.resp3, shl_slice (by decide) (by decide) h.resp2,
    shl_slice (by decide) (by decide) h.resp1,
    shl_cut (n := 10) rfl (by decide) (by decide) h.resp0,
    or_field, or_field, or_field, or_field]

private theorem resp2_eq {frame : BitVec 136} {r : SdioReg} (h : Delivered frame r)
    (c : Card) : (sdcmd c r .R2).1.resp.resp2.toNat = field (even frame.toNat) 0 64 := by
  have hcrc : (uvlong (r.crc7 <<< 1)).toNat = field (even frame.toNat) 0 8 := by
    have hlast : field (even frame.toNat) 0 1 = 0 := by
      unfold field even
      omega
    have hseven : r.crc7.toNat = field frame.toNat 1 7 := h.crc7
    have hlt : field frame.toNat 1 7 < 2 ^ 7 := field_lt ..
    rw [uvlong_toNat, BitVec.toNat_shiftLeft, hseven, Nat.shiftLeft_eq,
      Nat.mod_eq_of_lt (by omega), field_append _ 0 1 7, hlast, Nat.zero_add,
      field_even _ _ Nat.one_pos]
  have h7 : ((uvlong (r.resp 7) &&& uvlong (MASK 14)) <<< 8).toNat =
      field (even frame.toNat) 8 14 <<< 8 := by
    have hmask : (uvlong (MASK 14)).toNat = 2 ^ 14 - 1 := rfl
    have hseven : (r.resp 7).toNat % 2 ^ 14 = field frame.toNat 8 14 := h.resp7
    have hlt : field frame.toNat 8 14 < 2 ^ 14 := field_lt ..
    rw [BitVec.toNat_shiftLeft, BitVec.toNat_and, hmask, uvlong_toNat,
      Nat.and_two_pow_sub_one_eq_mod, hseven, field_even _ _ (by decide), Nat.shiftLeft_eq,
      Nat.mod_eq_of_lt (by omega)]
  have hresp : (sdcmd c r .R2).1.resp.resp2 =
      uvlong (r.crc7 <<< 1) ||| (uvlong (r.resp 7) &&& uvlong (MASK 14)) <<< 8 |||
        uvlong (r.resp 6) <<< 22 ||| uvlong (r.resp 5) <<< 38 |||
        uvlong (r.resp 4) <<< 54 := rfl
  rw [hresp, BitVec.toNat_or, BitVec.toNat_or, BitVec.toNat_or, BitVec.toNat_or, hcrc, h7,
    shl_slice (by decide) (by decide) h.resp6, shl_slice (by decide) (by decide) h.resp5,
    shl_cut (n := 10) rfl (by decide) (by decide) h.resp4,
    or_field _ 0 8 14, or_field _ 0 22 16, or_field _ 0 38 16, or_field _ 0 54 10]

/-- The two lower words hold the response up to bit 127. -/
theorem low_field {frame : BitVec 136} {r : SdioReg} (h : Delivered frame r) (c : Card)
    {o w : Nat} (ho : 0 < o) (hw : o + w ≤ 128) :
    field (sdcmd c r .R2).1.resp.low o w = field frame.toNat o w := by
  rw [Resp.low, resp1_eq h, resp2_eq h, ← field_append _ 0 64 64, field_field _ _ _ hw,
    Nat.zero_add, field_even _ _ ho]

/-- A field of two bits or more. -/
theorem bits_sdcmd {frame : BitVec 136} {r : SdioReg} (hr : Delivered frame r) (c : Card)
    {h l : Nat} (hl : l < h) (h0 : 0 < l) (hh : h < 128) (hne : h ≠ 64)
    (hw : h + 1 - l ≤ 32) : bits (sdcmd c r .R2).1.resp h l = slice frame h l := by
  rw [bits_slice _ hl hh hne hw, low_field hr c h0 (by omega), slice]

/-! ## The card's fields -/

def uchar (x : Nat) : Nat := x % 2 ^ 8
def ushort (x : Nat) : Nat := x % 2 ^ 16

structure Cid where
  mid : Nat
  oid : List Nat
  prodname : List Nat
  rev : Nat
  serial : Nat
  year : Nat
  mon : Nat
deriving DecidableEq, Repr

def parsecid (r : Resp) : Cid × Int :=
  ({ mon := bits r 11 8
     year := 2000 + bits r 19 16 * 10 + bits r 15 12
     serial := bits r 55 24
     rev := bits r 63 56
     prodname :=
       (List.range 5).map (fun i => uchar (bits r (104 - i * 8 - 1) (104 - i * 8 - 8))) ++
         [0]
     oid := [uchar (bits r 119 112), uchar (bits r 111 104), 0]
     mid := bits r 127 120 }, 0)

structure V0 where
  vddrmin : Nat
  vddrmax : Nat
  vddwmin : Nat
  vddwmax : Nat
  sizemult : Nat
deriving DecidableEq, Repr, Inhabited

structure Csd where
  vers : Nat
  taac : Nat
  nsac : Nat
  speed : Nat
  ccc : Nat
  rbl : Nat
  rbpart : Nat
  wbmalign : Nat
  rbmalign : Nat
  dsr : Nat
  size : Nat
  v0 : V0
  eraseblk : Nat
  erasesecsz : Nat
  wpgrpsize : Nat
  wpgrp : Nat
  speedfactor : Nat
  wbl : Nat
  wbpart : Nat
  ffgrp : Nat
  copy : Nat
  permwp : Nat
  tmpwp : Nat
  ff : Nat
deriving DecidableEq, Repr, Inhabited

/-- `parsecsd`, over what the record held before. -/
def parsecsd (c : Csd) (r : Resp) : Csd × Int :=
  let c := { c with vers := uchar (bits r 127 126) }
  if c.vers ≠ 0 ∧ c.vers ≠ 1 then (c, -1)
  else
    let c := { c with
      taac := uchar (bits r 119 112)
      nsac := uchar (bits r 111 104)
      speed := uchar (bits r 103 96)
      ccc := ushort (bits r 95 84)
      rbl := uchar (bits r 83 80)
      rbpart := uchar (bits r 79 79)
      wbmalign := uchar (bits r 78 78)
      rbmalign := uchar (bits r 77 77)
      dsr := uchar (bits r 76 76) }
    let c :=
      if c.vers = 0 then
        { c with
          size := bits r 75 62
          v0 :=
            { vddrmin := uchar (bits r 61 59)
              vddrmax := uchar (bits r 58 56)
              vddwmin := uchar (bits r 55 53)
              vddwmax := uchar (bits r 52 50)
              sizemult := uchar (bits r 49 47) } }
      else { c with size := bits r 69 48 }
    ({ c with
      eraseblk := uchar (bits r 46 46)
      erasesecsz := uchar (bits r 45 39)
      wpgrpsize := uchar (bits r 38 32)
      wpgrp := uchar (bits r 31 31)
      speedfactor := uchar (bits r 28 26)
      wbl := uchar (bits r 25 22)
      wbpart := uchar (bits r 21 21)
      ffgrp := uchar (bits r 15 15)
      copy := uchar (bits r 14 14)
      permwp := uchar (bits r 13 13)
      tmpwp := uchar (bits r 12 12)
      ff := uchar (bits r 11 10) }, 0)

/-! ## What the fields should be -/

/-- A stored field, and the bits of the response that it stands for. -/
structure Stored where
  value : Nat
  high : Nat
  low : Nat

def Stored.Right (frame : BitVec 136) (f : Stored) : Prop :=
    f.value = slice frame f.high f.low

def Cid.stored (c : Cid) : List Stored :=
  [⟨c.mon, 11, 8⟩, ⟨c.serial, 55, 24⟩, ⟨c.rev, 63, 56⟩,
    ⟨c.prodname.getD 0 0, 103, 96⟩, ⟨c.prodname.getD 1 0, 95, 88⟩,
    ⟨c.prodname.getD 2 0, 87, 80⟩, ⟨c.prodname.getD 3 0, 79, 72⟩,
    ⟨c.prodname.getD 4 0, 71, 64⟩,
    ⟨c.oid.getD 0 0, 119, 112⟩, ⟨c.oid.getD 1 0, 111, 104⟩, ⟨c.mid, 127, 120⟩]

/-- The fields of two bits or more that do not depend on the version. -/
def Csd.wide (c : Csd) : List Stored :=
  [⟨c.taac, 119, 112⟩, ⟨c.nsac, 111, 104⟩, ⟨c.speed, 103, 96⟩, ⟨c.ccc, 95, 84⟩,
    ⟨c.rbl, 83, 80⟩, ⟨c.erasesecsz, 45, 39⟩, ⟨c.wpgrpsize, 38, 32⟩,
    ⟨c.speedfactor, 28, 26⟩, ⟨c.wbl, 25, 22⟩, ⟨c.ff, 11, 10⟩]

def Csd.flags (c : Csd) : List Stored :=
  [⟨c.rbpart, 79, 79⟩, ⟨c.wbmalign, 78, 78⟩, ⟨c.rbmalign, 77, 77⟩, ⟨c.dsr, 76, 76⟩,
    ⟨c.eraseblk, 46, 46⟩, ⟨c.wpgrp, 31, 31⟩, ⟨c.wbpart, 21, 21⟩, ⟨c.ffgrp, 15, 15⟩,
    ⟨c.copy, 14, 14⟩, ⟨c.permwp, 13, 13⟩, ⟨c.tmpwp, 12, 12⟩]

def Csd.sizes (c : Csd) : List Stored :=
  if c.vers = 0 then
    [⟨c.size, 75, 62⟩, ⟨c.v0.vddrmin, 61, 59⟩, ⟨c.v0.vddrmax, 58, 56⟩,
      ⟨c.v0.vddwmin, 55, 53⟩, ⟨c.v0.vddwmax, 52, 50⟩, ⟨c.v0.sizemult, 49, 47⟩]
  else [⟨c.size, 69, 48⟩]

/-- What `parsecsd` stored, if it returned `ret`. -/
def Csd.stored (c : Csd) (ret : Int) : List Stored :=
  ⟨c.vers, 127, 126⟩ :: if ret = 0 then c.wide ++ c.flags ++ c.sizes else []

/-- The records hold the fields of the response, and `parsecsd` fails for an unknown
version only. -/
structure Decoded (frame : BitVec 136) (cid : Cid) (csd : Csd) (ret : Int) : Prop where
  ids : ∀ f ∈ cid.stored, f.Right frame
  year : cid.year = 2000 + 10 * slice frame 19 16 + slice frame 15 12
  specifics : ∀ f ∈ csd.stored ret, f.Right frame
  fails : ret = -1 ↔ slice frame 127 126 ≠ 0 ∧ slice frame 127 126 ≠ 1
  succeeds : ret = 0 ∨ ret = -1

/-- The bits of the flags. -/
def flagbits : List Nat := [79, 78, 77, 76, 46, 31, 21, 15, 14, 13, 12]

private theorem uchar_slice (frame : BitVec 136) {h l : Nat} (hw : h + 1 - l ≤ 8) :
    uchar (slice frame h l) = slice frame h l :=
  Nat.mod_eq_of_lt (Nat.lt_of_lt_of_le (field_lt ..) (Nat.pow_le_pow_right (by decide) hw))

private theorem ushort_slice (frame : BitVec 136) {h l : Nat} (hw : h + 1 - l ≤ 16) :
    ushort (slice frame h l) = slice frame h l :=
  Nat.mod_eq_of_lt (Nat.lt_of_lt_of_le (field_lt ..) (Nat.pow_le_pow_right (by decide) hw))

section
variable {frame : BitVec 136} {r : SdioReg} (hr : Delivered frame r) (card : Card)
include hr

theorem cid_right :
    (∀ f ∈ (parsecid (sdcmd card r .R2).1.resp).1.stored, f.Right frame) ∧
      (parsecid (sdcmd card r .R2).1.resp).1.year =
        2000 + 10 * slice frame 19 16 + slice frame 15 12 := by
  constructor
  · simp (disch := decide) only [parsecid, Cid.stored, List.range_succ, List.range_zero,
      List.nil_append, List.cons_append, List.map_cons, List.map_nil, List.getD_cons_zero,
      List.getD_cons_succ, List.forall_mem_cons, List.not_mem_nil, Stored.Right,
      bits_sdcmd hr, uchar_slice]
    simp
  · simp (disch := decide) only [parsecid, bits_sdcmd hr]
    omega

private theorem vers_eq :
    uchar (bits (sdcmd card r .R2).1.resp 127 126) = slice frame 127 126 := by
  simp (disch := decide) only [bits_sdcmd hr, uchar_slice]

theorem csd_fails (c : Csd)
    (hv : slice frame 127 126 ≠ 0 ∧ slice frame 127 126 ≠ 1) :
    parsecsd c (sdcmd card r .R2).1.resp =
      ({ c with vers := slice frame 127 126 }, -1) := by
  rw [parsecsd, vers_eq hr]
  exact if_pos hv

theorem csd_succeeds (c : Csd)
    (hv : ¬ (slice frame 127 126 ≠ 0 ∧ slice frame 127 126 ≠ 1)) :
    (parsecsd c (sdcmd card r .R2).1.resp).2 = 0 ∧
      (parsecsd c (sdcmd card r .R2).1.resp).1.vers = slice frame 127 126 ∧
      (∀ f ∈ (parsecsd c (sdcmd card r .R2).1.resp).1.wide, f.Right frame) ∧
      (∀ f ∈ (parsecsd c (sdcmd card r .R2).1.resp).1.sizes, f.Right frame) ∧
      (parsecsd c (sdcmd card r .R2).1.resp).1.flags = flagbits.map fun k => ⟨0, k, k⟩ := by
  have hflag : uchar 0 = 0 := rfl
  rw [parsecsd, vers_eq hr]
  simp only [hv, if_false]
  by_cases hzero : slice frame 127 126 = 0
  · simp (disch := decide) only [hzero, if_true, bits_sdcmd hr, bits_single, uchar_slice,
      ushort_slice, Csd.wide, Csd.sizes, Csd.flags, hflag, List.forall_mem_cons,
      Stored.Right]
    simp [flagbits]
  · simp (disch := decide) only [hzero, if_false, bits_sdcmd hr, bits_single, uchar_slice,
      ushort_slice, Csd.wide, Csd.sizes, Csd.flags, hflag, List.forall_mem_cons,
      Stored.Right]
    simp [flagbits]

end

/-- The records hold the fields of the response exactly when none of its flags is set; a
response of another version makes `parsecsd` fail as it should. -/
theorem decoded_iff (frame : BitVec 136) (r : SdioReg) (card : Card) (c : Csd)
    (hr : Delivered frame r) :
    Decoded frame (parsecid (sdcmd card r .R2).1.resp).1
        (parsecsd c (sdcmd card r .R2).1.resp).1 (parsecsd c (sdcmd card r .R2).1.resp).2 ↔
      (slice frame 127 126 ≠ 0 ∧ slice frame 127 126 ≠ 1) ∨
        ∀ k ∈ flagbits, slice frame k k = 0 := by
  obtain ⟨hids, hyear⟩ := cid_right hr card
  by_cases hv : slice frame 127 126 ≠ 0 ∧ slice frame 127 126 ≠ 1
  · rw [csd_fails hr card c hv]
    refine ⟨fun _ => .inl hv, fun _ => ⟨hids, hyear, fun f hf => ?_, ?_, .inr rfl⟩⟩
    · rw [List.mem_singleton.1 hf]
      rfl
    · exact ⟨fun _ => hv, fun _ => rfl⟩
  · obtain ⟨hret, hvers, hwide, hsizes, hflags⟩ := csd_succeeds hr card c hv
    have hright : (∀ f ∈ flagbits.map fun k => Stored.mk 0 k k, f.Right frame) ↔
        ∀ k ∈ flagbits, slice frame k k = 0 := by
      simp only [List.forall_mem_map, Stored.Right, eq_comm]
    rw [or_iff_right hv, ← hright, ← hflags]
    constructor
    · intro h f hf
      apply h.specifics
      rw [hret]
      exact List.mem_cons_of_mem _ (List.mem_append_left _ (List.mem_append_right _ hf))
    · intro h
      refine ⟨hids, hyear, fun f hf => ?_, ?_, .inl hret⟩
      · rw [hret] at hf
        rcases List.mem_cons.1 hf with rfl | hf
        · exact hvers
        · rcases List.mem_append.1 hf with hf | hf
          · rcases List.mem_append.1 hf with hf | hf
            · exact hwide f hf
            · exact h f hf
          · exact hsizes f hf
      · rw [hret]
        exact ⟨fun h => absurd h (by decide), fun h => absurd h hv⟩

/-- The specific data of a card that allows reads of partial blocks, and nothing else. -/
def rbpartframe : BitVec 136 := 1#136 <<< 79

def rbpartregs : SdioReg where
  resp i := if i = 3 then 1#32 <<< 9 else 0#32
  crc7 := 0#32

private theorem rbpart_delivered : Delivered rbpartframe rbpartregs where
  resp0 := by decide
  resp1 := by decide
  resp2 := by decide
  resp3 := by decide
  resp4 := by decide
  resp5 := by decide
  resp6 := by decide
  resp7 := by decide
  crc7 := by decide

theorem decoded_iff_rbpart :
    Delivered rbpartframe rbpartregs ∧
      (Decoded rbpartframe (parsecid (sdcmd default rbpartregs .R2).1.resp).1
          (parsecsd default (sdcmd default rbpartregs .R2).1.resp).1
          (parsecsd default (sdcmd default rbpartregs .R2).1.resp).2 ↔
        (slice rbpartframe 127 126 ≠ 0 ∧ slice rbpartframe 127 126 ≠ 1) ∨
          ∀ k ∈ flagbits, slice rbpartframe k k = 0) :=
  ⟨rbpart_delivered, decoded_iff rbpartframe rbpartregs default default rbpart_delivered⟩

/-- That flag is stored as 0. -/
theorem rbpart_lost : ¬ ∀ frame r card c, Delivered frame r →
    Decoded frame (parsecid (sdcmd card r .R2).1.resp).1
      (parsecsd c (sdcmd card r .R2).1.resp).1
        (parsecsd c (sdcmd card r .R2).1.resp).2 := by
  intro hall
  have hdecoded := hall rbpartframe rbpartregs default default rbpart_delivered
  obtain ⟨hret, -, -, -, hflags⟩ :=
    csd_succeeds rbpart_delivered default default (by decide)
  have hmem : (⟨0, 79, 79⟩ : Stored) ∈
      (parsecsd default (sdcmd default rbpartregs .R2).1.resp).1.flags := by
    rw [hflags]
    exact List.mem_map.2 ⟨79, by decide, rfl⟩
  have hright : (⟨0, 79, 79⟩ : Stored).Right rbpartframe := by
    apply hdecoded.specifics
    rw [hret]
    exact List.mem_cons_of_mem _ (List.mem_append_left _ (List.mem_append_right _ hmem))
  exact absurd hright (by unfold Stored.Right; decide)

end Kirkwood.Ports.SdResponse
