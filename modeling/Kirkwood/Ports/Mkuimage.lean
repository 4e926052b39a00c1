import Kirkwood.Ports.CesaWords
import Kirkwood.Ports.Crc32
import Kirkwood.Verified.CInt

/-!
# The header of a boot image

`mkuimage` runs on the host, where a `ulong` may have more than 32 bits.  It sums the image,
packs the header without its own sum, sums that, and packs it again.  The loader reads
big-endian words, four bytes and a name.

## Main results

* `crc32_wide`: a wide `ulong` holds the 32-bit sum;
* `pack_eq`: the bytes of a header;
* `decode_pack`: what the loader reads of them;
* `mkuimage_sound`: the header that is written decodes and verifies.
-/

namespace Kirkwood.Ports.Mkuimage

open Kirkwood.Verified.ByteMem
open Kirkwood.Verified.CInt
open Kirkwood.Ports.CesaWords (g32)

/-! ## The code -/

variable {w : Nat}

def Poly : BitVec w := 0xedb88320

/-- The inner loop of `mkcrctab`, from `8 - n` on. -/
def mkcrcentry : Nat → BitVec w → BitVec w
  | 0, c => c
  | n + 1, c => mkcrcentry n (if c &&& 1 ≠ 0 then Poly ^^^ (c >>> 1) else c >>> 1)

/-- `crc32tab` as `mkcrctab` leaves it. -/
def crc32tab : List (BitVec w) :=
  (List.range 256).map fun i => mkcrcentry 8 (BitVec.ofNat w i)

/-- `((int)crc ^ (*buf++)) & 0xff` -/
def index (crc : BitVec w) (b : UInt8) : Nat :=
  ((crc.setWidth 32 ^^^ b.toBitVec.setWidth 32) &&& 0xff).toNat

/-- `while(len-- > 0)` of `crc32`; `none` is a read past the buffer. -/
def crc32loop : Nat → BitVec w → Bytes → Option (BitVec w)
  | 0, crc, _ => some crc
  | _ + 1, _, [] => none
  | len + 1, crc, b :: buf =>
      match crc32tab[index crc b]? with
      | none => none
      | some t => crc32loop len (t ^^^ (crc >>> 8)) buf

def crc32 (crc : BitVec w) (buf : Bytes) (len : Nat) : Option (BitVec w) :=
  (crc32loop len (crc ^^^ 0xffffffff) buf).map (· ^^^ 0xffffffff)

def UIMAGE_HDRSIZE : Nat := 0x40

/-- `Uhdr` -/
structure Uhdr (w : Nat) where
  magic : BitVec w
  hcrc : BitVec w
  time : BitVec w
  size : BitVec w
  load : BitVec w
  entry : BitVec w
  dcrc : BitVec w
  os : UInt8
  arch : UInt8
  type : UInt8
  comp : UInt8
  name : Vector UInt8 32
deriving DecidableEq

/-- `v>>k`, stored in an `uchar`. -/
def uchar (v : BitVec w) (k : Nat) : UInt8 := ⟨(v >>> k).setWidth 8⟩

/-- The four bytes that `p32` stores. -/
def p32 (v : BitVec w) : Bytes := [uchar v 24, uchar v 16, uchar v 8, uchar v 0]

/-- The `n` bytes that `strncpy` stores: up to a zero byte, and zeros. -/
def strncpy (s : Bytes) (n : Nat) : Bytes :=
  let t := (s.takeWhile (· ≠ 0)).take n
  t ++ List.replicate (n - t.length) 0

/-- Bytes stored at the pointer, which is moved behind them. -/
def store (s : Bytes × Nat) (bs : Bytes) : Bytes × Nat :=
  (patch s.1 s.2 bs, s.2 + bs.length)

/-- What `pack` stores in `pp`. -/
def pack (h : Uhdr w) : Bytes :=
  let p := (List.replicate UIMAGE_HDRSIZE 0, 0)
  let p := store p (p32 h.magic)
  let p := store p (p32 h.hcrc)
  let p := store p (p32 h.time)
  let p := store p (p32 h.size)
  let p := store p (p32 h.load)
  let p := store p (p32 h.entry)
  let p := store p (p32 h.dcrc)
  let p := store p [h.os]
  let p := store p [h.arch]
  let p := store p [h.type]
  let p := store p [h.comp]
  (store p (strncpy h.name.toList 32)).1

/-- The sums of `main`. -/
def sums (h : Uhdr w) (data : Bytes) : Option (Uhdr w) := do
  let dcrc ← crc32 0 data h.size.toNat
  let h := { h with dcrc := dcrc, hcrc := 0 }
  let hcrc ← crc32 0 (pack h) UIMAGE_HDRSIZE
  return { h with hcrc := hcrc }

/-- `main`, from where the other fields are set: what it writes of the file.  There is
nothing when the length that `readn` gives, an `int`, is not the size. -/
def mkuimage (h : Uhdr w) (file : Bytes) : Option (Bytes × Bytes) := do
  let h := { h with size := BitVec.ofNat w file.length }
  let data := file.take h.size.toNat
  let n := long data.length
  if BitVec.ofInt w n ≠ h.size then none
  else
    let h ← sums h data
    return (pack h, data)

/-! ## The sum on a wide host -/

/-- A 32-bit word in a `ulong`. -/
def wide (x : BitVec 32) : BitVec w := x.setWidth w

theorem wide_ofNat {n : Nat} (h : n < 2 ^ 32) : (wide (BitVec.ofNat 32 n) : BitVec w) =
    BitVec.ofNat w n := by
  rw [wide, ← BitVec.ofNat_toNat, BitVec.toNat_ofNat, Nat.mod_eq_of_lt h]

theorem wide_lt (x : BitVec 32) : (wide x : BitVec w).toNat < 2 ^ 32 := by
  rw [wide, BitVec.toNat_setWidth]
  exact Nat.lt_of_le_of_lt (Nat.mod_le _ _) x.isLt

theorem wide_xor (x y : BitVec 32) : (wide (x ^^^ y) : BitVec w) = wide x ^^^ wide y :=
  BitVec.setWidth_xor

section
variable (hw : 32 ≤ w)
include hw

theorem wide_shift (x : BitVec 32) (k : Nat) :
    (wide (x >>> k) : BitVec w) = wide x >>> k := by
  apply BitVec.eq_of_getLsbD_eq
  intro i hi
  rw [wide, wide, BitVec.getLsbD_ushiftRight, BitVec.getLsbD_setWidth,
    BitVec.getLsbD_setWidth, BitVec.getLsbD_ushiftRight]
  by_cases hki : k + i < 32
  · simp [hi, show k + i < w by omega]
  · simp [BitVec.getLsbD_of_ge x (k + i) (by omega)]

theorem narrow_wide (x : BitVec 32) : (wide x : BitVec w).setWidth 32 = x := by
  rw [wide, BitVec.setWidth_setWidth_of_le x hw, BitVec.setWidth_eq]

theorem wide_odd (x : BitVec 32) : (wide x : BitVec w) &&& 1 ≠ 0 ↔ x &&& 1 ≠ 0 := by
  have hone : (1 : BitVec w) = wide 1 := (wide_ofNat (by decide)).symm
  have hand : (wide x : BitVec w) &&& wide 1 = wide (x &&& 1) := BitVec.setWidth_and.symm
  have hzero (y : BitVec 32) : (wide y : BitVec w) = 0 ↔ y = 0 := by
    constructor
    · intro h
      have hnarrow := congrArg (BitVec.setWidth 32) h
      rw [narrow_wide hw] at hnarrow
      exact hnarrow.trans (BitVec.setWidth_zero 32 w)
    · rintro rfl
      exact BitVec.setWidth_zero w 32
  rw [hone, hand, ne_eq, hzero]

theorem mkcrcentry_wide (n : Nat) (c : BitVec 32) :
    mkcrcentry n (wide c : BitVec w) = wide (Crc32.mkcrcentry n c) := by
  have hpoly : (Poly : BitVec w) = wide Crc32.Poly := (wide_ofNat (by decide)).symm
  induction n generalizing c with
  | zero => rfl
  | succ n ih =>
      rw [mkcrcentry, Crc32.mkcrcentry]
      simp only [wide_odd hw, hpoly, ← wide_shift hw, ← wide_xor]
      rw [← apply_ite wide, ih]

theorem crc32tab_wide (i : Nat) :
    (crc32tab : List (BitVec w))[i]? = Crc32.mkcrctab[i]?.map wide := by
  have htab : (crc32tab : List (BitVec w)) = Crc32.mkcrctab.map wide := by
    rw [crc32tab, Crc32.mkcrctab, List.map_map]
    apply List.map_congr_left
    intro i hi
    rw [List.mem_range] at hi
    rw [Function.comp_apply, ← mkcrcentry_wide hw, wide_ofNat (by omega)]
  rw [htab, List.getElem?_map]

theorem crc32loop_wide (len : Nat) (c : BitVec 32) (buf : Bytes) :
    crc32loop len (wide c : BitVec w) buf =
      (Crc32.crc32loop Crc32.mkcrctab len c (buf.map UInt8.toBitVec)).map wide := by
  induction len generalizing c buf with
  | zero => rfl
  | succ len ih =>
      cases buf with
      | nil => rfl
      | cons b buf =>
          rw [crc32loop, List.map_cons, Crc32.crc32loop, index, narrow_wide hw,
            crc32tab_wide hw]
          cases Crc32.mkcrctab[((c ^^^ b.toBitVec.setWidth 32) &&& 0xff).toNat]? with
          | none => rfl
          | some t =>
              show crc32loop len (wide t ^^^ (wide c >>> 8)) buf = _
              rw [← wide_shift hw, ← wide_xor, ih]

/-- A wide `ulong` holds the 32-bit sum. -/
theorem crc32_wide (c : BitVec 32) (buf : Bytes) (len : Nat) :
    crc32 (wide c : BitVec w) buf len =
      (Crc32.crc32 Crc32.mkcrctab c (buf.map UInt8.toBitVec) len).map wide := by
  have hones : (0xffffffff : BitVec w) = wide 0xffffffff := (wide_ofNat (by decide)).symm
  rw [crc32, Crc32.crc32, hones, ← wide_xor, crc32loop_wide hw, Option.map_map,
    Option.map_map]
  congr 1
  funext x
  exact (wide_xor x _).symm

/-- The sum of a whole buffer. -/
def sum (buf : Bytes) : BitVec 32 :=
  (buf.map UInt8.toBitVec).foldl Crc32.crcbyte 0xffffffff ^^^ 0xffffffff

theorem crc32_sum (buf : Bytes) :
    crc32 (0 : BitVec w) buf buf.length = some (wide (sum buf)) := by
  have hzero : (0 : BitVec w) = wide 0 := (wide_ofNat (by decide)).symm
  have hcrc := Crc32.crc32_eq 0 (buf.map UInt8.toBitVec) []
  rw [List.append_nil, List.length_map] at hcrc
  rw [hzero, crc32_wide hw, hcrc]
  rfl

end

/-! ## The bytes of a header -/

@[simp] theorem p32_length (v : BitVec w) : (p32 v).length = 4 := rfl

@[simp] theorem strncpy_length (s : Bytes) (n : Nat) : (strncpy s n).length = n := by
  simp only [strncpy, List.length_append, List.length_replicate, List.length_take]
  omega

/-- `done` is stored, and the pointer is behind it. -/
def Stored (p : Bytes × Nat) (done : Bytes) : Prop :=
  ∃ k, done.length + k = UIMAGE_HDRSIZE ∧ p = (done ++ List.replicate k 0, done.length)

theorem Stored.store {p : Bytes × Nat} {done : Bytes} (h : Stored p done) (bs : Bytes)
    (hroom : done.length + bs.length ≤ UIMAGE_HDRSIZE) :
    Stored (store p bs) (done ++ bs) := by
  obtain ⟨k, hk, rfl⟩ := h
  refine ⟨k - bs.length, by rw [List.length_append]; omega, Prod.ext ?_ ?_⟩
  · simp only [Mkuimage.store, patch]
    rw [List.take_left, List.drop_append, List.drop_eq_nil_of_le (by omega),
      List.nil_append, Nat.add_sub_cancel_left, List.drop_replicate]
  · exact (List.length_append ..).symm

theorem Stored.stores {p : Bytes × Nat} {done : Bytes} (h : Stored p done)
    (pieces : List Bytes) (hroom : done.length + pieces.flatten.length ≤ UIMAGE_HDRSIZE) :
    Stored (pieces.foldl Mkuimage.store p) (done ++ pieces.flatten) := by
  induction pieces generalizing p done with
  | nil => rwa [List.flatten_nil, List.append_nil]
  | cons bs pieces ih =>
      rw [List.flatten_cons, List.length_append] at hroom
      rw [List.foldl_cons, List.flatten_cons, ← List.append_assoc]
      apply ih (h.store bs (by omega))
      rw [List.length_append]
      omega

/-- What a header consists of. -/
def pieces (h : Uhdr w) : List Bytes :=
  [p32 h.magic, p32 h.hcrc, p32 h.time, p32 h.size, p32 h.load, p32 h.entry, p32 h.dcrc,
    [h.os], [h.arch], [h.type], [h.comp], strncpy h.name.toList 32]

theorem pieces_length (h : Uhdr w) : (pieces h).flatten.length = UIMAGE_HDRSIZE := by
  simp [pieces, UIMAGE_HDRSIZE]

theorem pack_eq (h : Uhdr w) : pack h = (pieces h).flatten := by
  have hstart : Stored (List.replicate UIMAGE_HDRSIZE 0, 0) [] := ⟨_, Nat.zero_add _, rfl⟩
  have hstored := hstart.stores (pieces h) (by rw [pieces_length]; decide)
  obtain ⟨k, hk, hp⟩ := hstored
  rw [List.nil_append, pieces_length] at hk
  obtain rfl : k = 0 := by omega
  rw [List.nil_append, List.replicate_zero, List.append_nil] at hp
  exact congrArg Prod.fst hp

@[simp] theorem pack_length (h : Uhdr w) : (pack h).length = UIMAGE_HDRSIZE := by
  rw [pack_eq, pieces_length]

/-! ## The loader -/

/-- The big-endian word at offset `p`. -/
def word (hdr : Bytes) (p : Nat) : BitVec 32 :=
  g32 (hdr.getD p 0) (hdr.getD (p + 1) 0) (hdr.getD (p + 2) 0) (hdr.getD (p + 3) 0)

/-- A header as the loader reads it. -/
def decode (hdr : Bytes) : Uhdr 32 where
  magic := word hdr 0
  hcrc := word hdr 4
  time := word hdr 8
  size := word hdr 12
  load := word hdr 16
  entry := word hdr 20
  dcrc := word hdr 24
  os := hdr.getD 28 0
  arch := hdr.getD 29 0
  type := hdr.getD 30 0
  comp := hdr.getD 31 0
  name := Vector.ofFn fun i => hdr.getD (32 + i) 0

/-- The words of the header other than the sums fit in 32 bits. -/
structure Fits (h : Uhdr w) : Prop where
  magic : h.magic.toNat < 2 ^ 32
  time : h.time.toNat < 2 ^ 32
  size : h.size.toNat < 2 ^ 32
  load : h.load.toNat < 2 ^ 32
  entry : h.entry.toNat < 2 ^ 32

/-- The loader has read the fields of the header. -/
structure Same (d : Uhdr 32) (h : Uhdr w) : Prop where
  magic : d.magic.toNat = h.magic.toNat
  hcrc : d.hcrc.toNat = h.hcrc.toNat
  time : d.time.toNat = h.time.toNat
  size : d.size.toNat = h.size.toNat
  load : d.load.toNat = h.load.toNat
  entry : d.entry.toNat = h.entry.toNat
  dcrc : d.dcrc.toNat = h.dcrc.toNat
  os : d.os = h.os
  arch : d.arch = h.arch
  type : d.type = h.type
  comp : d.comp = h.comp
  name : d.name = h.name

/-- Nothing but zeros from the first zero on. -/
def Padded (s : Bytes) : Prop := ∀ b ∈ s.dropWhile (· ≠ 0), b = 0

theorem uchar_narrow (v : BitVec w) {k : Nat} (hk : k ≤ 24) :
    uchar v k = CesaWords.uchar (v.setWidth 32) k := by
  apply UInt8.toBitVec_inj.1
  apply BitVec.eq_of_getLsbD_eq
  intro i hi
  simp only [uchar, CesaWords.uchar, BitVec.getLsbD_setWidth, BitVec.getLsbD_ushiftRight,
    decide_eq_true (show k + i < 32 by omega), Bool.true_and]

/-- A word of a header reads back. -/
theorem g32_p32 (v : BitVec w) :
    g32 (uchar v 24) (uchar v 16) (uchar v 8) (uchar v 0) = v.setWidth 32 := by
  rw [uchar_narrow v (k := 24) (by decide), uchar_narrow v (k := 16) (by decide),
    uchar_narrow v (k := 8) (by decide), uchar_narrow v (k := 0) (by decide),
    CesaWords.g32_p32]

theorem decode_pack (h : Uhdr w) : decode (pack h) =
    { magic := h.magic.setWidth 32
      hcrc := h.hcrc.setWidth 32
      time := h.time.setWidth 32
      size := h.size.setWidth 32
      load := h.load.setWidth 32
      entry := h.entry.setWidth 32
      dcrc := h.dcrc.setWidth 32
      os := h.os
      arch := h.arch
      type := h.type
      comp := h.comp
      name := ⟨⟨strncpy h.name.toList 32⟩, strncpy_length _ _⟩ } := by
  have hfront : (pieces h).flatten =
      (pieces h).dropLast.flatten ++ strncpy h.name.toList 32 := by simp [pieces]
  have hlen : (pieces h).dropLast.flatten.length = 32 := by simp [pieces]
  rw [pack_eq]
  simp only [← g32_p32]
  unfold decode
  rw [Uhdr.mk.injEq]
  refine ⟨rfl, rfl, rfl, rfl, rfl, rfl, rfl, rfl, rfl, rfl, rfl, ?_⟩
  apply Vector.ext
  intro i hi
  rw [Vector.getElem_ofFn, hfront, List.getD_eq_getElem?_getD,
    List.getElem?_append_right (by omega), hlen, Nat.add_sub_cancel_left,
    List.getElem?_eq_getElem (by rwa [strncpy_length])]
  rfl

/-- A name that fills its field is copied as it is when it is padded. -/
theorem strncpy_self {s : Bytes} {n : Nat} (h : s.length = n) :
    strncpy s n = s ↔ Padded s := by
  have hsplit : s.takeWhile (· ≠ 0) ++ s.dropWhile (· ≠ 0) = s :=
    List.takeWhile_append_dropWhile
  have hsum := congrArg List.length hsplit
  rw [List.length_append, h] at hsum
  have hcut : (s.takeWhile (· ≠ 0)).take n = s.takeWhile (· ≠ 0) :=
    List.take_of_length_le (by omega)
  have hrest : n - (s.takeWhile (· ≠ 0)).length = (s.dropWhile (· ≠ 0)).length := by omega
  unfold strncpy Padded
  simp only [hcut, hrest]
  constructor
  · intro hcopy b hb
    have hzeros := List.append_cancel_left (hcopy.trans hsplit.symm)
    rw [← hzeros] at hb
    exact List.eq_of_mem_replicate hb
  · intro hzeros
    rw [← List.eq_replicate_of_mem hzeros]
    exact hsplit

/-- The loader reads the fields back, and the name when it is padded with zeros. -/
theorem same_iff {h : Uhdr w} (hfits : Fits h) (hhcrc : h.hcrc.toNat < 2 ^ 32)
    (hdcrc : h.dcrc.toNat < 2 ^ 32) : Same (decode (pack h)) h ↔ Padded h.name.toList := by
  have hword {x : BitVec w} (hx : x.toNat < 2 ^ 32) : (x.setWidth 32).toNat = x.toNat := by
    rw [BitVec.toNat_setWidth, Nat.mod_eq_of_lt hx]
  have hname :
      (⟨⟨strncpy h.name.toList 32⟩, strncpy_length _ _⟩ : Vector UInt8 32) = h.name ↔
        strncpy h.name.toList 32 = h.name.toList := by
    rw [← Vector.toList_inj]
    rfl
  rw [decode_pack, ← strncpy_self Vector.length_toList, ← hname]
  constructor
  · exact fun hsame => hsame.name
  · exact fun hn => ⟨hword hfits.magic, hword hhcrc, hword hfits.time, hword hfits.size,
      hword hfits.load, hword hfits.entry, hword hdcrc, rfl, rfl, rfl, rfl, hn⟩

/-- What `main` leaves of a name is padded. -/
theorem strncpy_padded (s : Bytes) (n : Nat) : Padded (strncpy s n) := by
  have ht : ∀ b ∈ (s.takeWhile (· ≠ 0)).take n, (b ≠ 0 : Bool) = true := by
    intro b hb
    exact List.all_eq_true.1 List.all_takeWhile b (List.mem_of_mem_take hb)
  intro b hb
  unfold strncpy at hb
  rw [List.dropWhile_append_of_pos ht] at hb
  exact List.eq_of_mem_replicate ((List.dropWhile_suffix _).subset hb)

/-! ## The image -/

/-- The header with the word of its own sum replaced by zero. -/
def unsummed (hdr : Bytes) : Bytes := patch hdr 4 [0, 0, 0, 0]

theorem unsummed_pack (h : Uhdr w) : unsummed (pack h) = pack { h with hcrc := 0 } := by
  have hzero : p32 (0 : BitVec w) = [0, 0, 0, 0] := by simp [p32, uchar]
  rw [pack_eq, pack_eq, pieces, pieces, hzero]
  rfl

section
variable (hw : 32 ≤ w)
include hw

/-- The header with its sums. -/
def summed (h : Uhdr w) (data : Bytes) : Uhdr w :=
  let h := { h with dcrc := wide (sum data), hcrc := 0 }
  { h with hcrc := wide (sum (pack h)) }

theorem sums_eq (h : Uhdr w) {data : Bytes} (hdata : data.length = h.size.toNat) :
    sums h data = some (summed h data) := by
  have hdr := crc32_sum hw (pack { h with dcrc := wide (sum data), hcrc := 0 })
  rw [pack_length] at hdr
  rw [sums, ← hdata, crc32_sum hw]
  simp only [Option.bind_eq_bind, Option.bind_some, hdr]
  rfl

/-- The header and the data that are written. -/
theorem mkuimage_eq (h : Uhdr w) (file : Bytes) {hdr data : Bytes}
    (hrun : mkuimage h file = some (hdr, data)) :
    data.length = (BitVec.ofNat w file.length).toNat ∧
      data = file.take (BitVec.ofNat w file.length).toNat ∧
      hdr = pack (summed { h with size := BitVec.ofNat w file.length } data) := by
  have hlen : (file.take (BitVec.ofNat w file.length).toNat).length =
      (BitVec.ofNat w file.length).toNat := by
    rw [List.length_take, BitVec.toNat_ofNat]
    exact Nat.min_eq_left (Nat.mod_le _ _)
  simp only [mkuimage] at hrun
  split at hrun
  · exact absurd hrun (by simp)
  · rw [sums_eq hw _ hlen] at hrun
    obtain ⟨hhdr, hdata⟩ := Prod.mk.inj (Option.some.inj hrun)
    rw [← hdata, ← hhdr]
    exact ⟨hlen, rfl, rfl⟩

/-- A file that an `int` can count is not refused. -/
theorem mkuimage_some (h : Uhdr w) {file : Bytes} (hfile : file.length < 2 ^ 31) :
    ∃ hdr, mkuimage h file = some (hdr, file) := by
  have hpow : 2 ^ 31 ≤ 2 ^ w := Nat.pow_le_pow_right (by decide) (by omega)
  have hsize : (BitVec.ofNat w file.length).toNat = file.length := by
    rw [BitVec.toNat_ofNat, Nat.mod_eq_of_lt (by omega)]
  have hint : BitVec.ofInt w (long (file.length : Int)) = BitVec.ofNat w file.length := by
    rw [long_eq (by omega) (by omega), BitVec.ofInt_natCast]
  simp only [mkuimage, hsize, List.take_length, hint, ne_eq, not_true_eq_false, if_false]
  rw [sums_eq hw _ hsize.symm]
  exact ⟨_, rfl⟩

theorem decode_sums (h : Uhdr w) (data : Bytes) :
    (decode (pack (summed h data))).hcrc = sum (unsummed (pack (summed h data))) ∧
      (decode (pack (summed h data))).dcrc = sum data := by
  rw [decode_pack, unsummed_pack]
  exact ⟨narrow_wide hw _, narrow_wide hw _⟩

/-- A file that an `int` can count is not refused.  The header that is written for a file
decodes to the record, with the sums filled in, exactly when the name of the record is
padded, as `main` leaves names; and its sums verify on every host, where the one of the
header is taken with its own word zero. -/
theorem mkuimage_sound (h : Uhdr w) (file : Bytes) :
    (file.length < 2 ^ 31 → ∃ hdr, mkuimage h file = some (hdr, file)) ∧
    (∀ name n, Padded (strncpy name n)) ∧
    ∀ hdr data, mkuimage h file = some (hdr, data) →
      hdr.length = UIMAGE_HDRSIZE ∧ data = file.take (BitVec.ofNat w file.length).toNat ∧
      (∃ h' : Uhdr w, hdr = pack h' ∧
        h' = { h with
          size := BitVec.ofNat w file.length, hcrc := h'.hcrc, dcrc := h'.dcrc } ∧
        (Fits h' → (Same (decode hdr) h' ↔ Padded h.name.toList))) ∧
      ∀ v, 32 ≤ v →
        crc32 (0 : BitVec v) (unsummed hdr) hdr.length = some (wide (decode hdr).hcrc) ∧
        crc32 (0 : BitVec v) data data.length = some (wide (decode hdr).dcrc) := by
  refine ⟨mkuimage_some hw h, strncpy_padded, fun hdr data hrun => ?_⟩
  obtain ⟨-, hdata, hhdr⟩ := mkuimage_eq hw h file hrun
  obtain ⟨hhcrc, hdcrc⟩ := decode_sums hw { h with size := BitVec.ofNat w file.length } data
  rw [← hhdr] at hhcrc hdcrc
  refine ⟨by rw [hhdr, pack_length], hdata, ⟨_, hhdr, rfl, fun hfits => ?_⟩, fun v hv => ?_⟩
  · rw [hhdr]
    exact same_iff hfits (wide_lt _) (wide_lt _)
  · have hlen : (unsummed hdr).length = hdr.length := by
      rw [hhdr, unsummed_pack, pack_length, pack_length]
    rw [← hlen, crc32_sum hv, crc32_sum hv, hhcrc, hdcrc]
    exact ⟨rfl, rfl⟩

end

/-- A kernel for ARM, with a name. -/
def kernel (w : Nat) (name : Vector UInt8 32) : Uhdr w where
  magic := 0x27051956
  hcrc := 0
  time := 0
  size := 0
  load := 0x8000
  entry := 0x8000
  dcrc := 0
  os := 1
  arch := 2
  type := 2
  comp := 0
  name := name

/-- `a`, and zeros. -/
def padded : Vector UInt8 32 := Vector.ofFn fun i => if i.val = 0 then 97 else 0

/-- `a`, a zero, and `b` to the end. -/
def cut : Vector UInt8 32 :=
  Vector.ofFn fun i => if i.val = 0 then 97 else if i.val = 1 then 0 else 98

theorem kernel_written :
    ∃ hdr, mkuimage (kernel 64 padded) [1, 2, 3] = some (hdr, [1, 2, 3]) ∧
      (decode hdr).load = 0x8000 ∧ (decode hdr).name = padded ∧
      crc32 (0 : BitVec 32) (unsummed hdr) hdr.length = some (decode hdr).hcrc := by
  obtain ⟨hsome, -, hsound⟩ :=
    mkuimage_sound (w := 64) (by decide) (kernel 64 padded) [1, 2, 3]
  obtain ⟨hdr, hrun⟩ := hsome (by decide)
  obtain ⟨-, -, ⟨h', -, heq, hsame⟩, hsums⟩ := hsound hdr [1, 2, 3] hrun
  have hfits : Fits h' := by
    rw [heq]
    exact ⟨show (0x27051956 : BitVec 64).toNat < 2 ^ 32 by decide, Nat.two_pow_pos 32,
      show (3 : BitVec 64).toNat < 2 ^ 32 by decide,
      show (0x8000 : BitVec 64).toNat < 2 ^ 32 by decide,
      show (0x8000 : BitVec 64).toNat < 2 ^ 32 by decide⟩
  have hpadded : Padded (kernel 64 padded).name.toList := by
    unfold Padded
    decide +kernel
  have hread := (hsame hfits).2 hpadded
  have hload : (decode hdr).load.toNat = 0x8000 := by
    rw [hread.load, heq]
    rfl
  have hname : (decode hdr).name = padded := by
    rw [hread.name, heq]
    rfl
  have hsum := (hsums 32 (by decide)).1
  rw [wide, BitVec.setWidth_eq] at hsum
  exact ⟨hdr, hrun, BitVec.eq_of_toNat_eq hload, hname, hsum⟩

/-- What is behind a zero in a name is not written. -/
theorem name_cut : strncpy cut.toList 32 = 97 :: List.replicate 31 0 ∧
    ¬ ∀ (h : Uhdr 32) (file hdr data : Bytes), mkuimage h file = some (hdr, data) →
      (decode hdr).name = h.name := by
  refine ⟨by decide, fun hclaim => ?_⟩
  obtain ⟨hdr, hrun⟩ : ∃ hdr, mkuimage (kernel 32 cut) [] = some (hdr, []) :=
    mkuimage_some (by decide) _ (by decide)
  obtain ⟨-, -, hhdr⟩ := mkuimage_eq (by decide) _ _ hrun
  have hname := hclaim _ _ _ _ hrun
  rw [hhdr, decode_pack] at hname
  exact absurd hname (by decide)

end Kirkwood.Ports.Mkuimage
