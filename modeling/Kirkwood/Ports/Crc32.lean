import Kirkwood.Verified.Crc

/-!
# The two CRC-32 implementations

`mkuimage` signs a boot image with a table-driven CRC: `mkcrctab` fills a table
of 256 words and `crc32` takes a byte at a time from it, inverting the register
on the way in and out.  The Ethernet driver hashes multicast addresses with
`ethercrc`, which takes one bit at a time, starts from all ones and does not
invert the result.

A loop over a buffer takes the bytes the pointer still has in front of it; `none`
is a read past them.

## Main results

* `crc32_eq`, `ethercrc_eq` — both are folds of the same byte step.
* `crc32_refines_ethercrc` — the table-driven code gives the inverted word of
  the bit-by-bit code, and codes compose over concatenation.
-/

namespace Kirkwood.Ports.Crc32

open Verified

/-! ## mkuimage -/

/-- `Poly`, and `POLY` of the driver. -/
def Poly : BitVec 32 := 0xedb88320

/-- The inner loop of `mkcrctab`, from `8 - n` on. -/
def mkcrcentry : Nat → BitVec 32 → BitVec 32
  | 0, c => c
  | n + 1, c => mkcrcentry n (if c &&& 1 ≠ 0 then Poly ^^^ (c >>> 1) else c >>> 1)

/-- `crc32tab` as `mkcrctab` leaves it. -/
def mkcrctab : List (BitVec 32) :=
  (List.range 256).map fun i => mkcrcentry 8 (BitVec.ofNat 32 i)

/-- `while(len-- > 0)` of `crc32`. -/
def crc32loop (crc32tab : List (BitVec 32)) :
    Nat → BitVec 32 → List (BitVec 8) → Option (BitVec 32)
  | 0, crc, _ => some crc
  | _ + 1, _, [] => none
  | len + 1, crc, b :: buf =>
    match crc32tab[((crc ^^^ b.setWidth 32) &&& 0xff).toNat]? with
    | none => none
    | some t => crc32loop crc32tab len (t ^^^ (crc >>> 8)) buf

/-- `crc32`. -/
def crc32 (crc32tab : List (BitVec 32)) (crc : BitVec 32) (buf : List (BitVec 8))
    (len : Nat) : Option (BitVec 32) :=
  (crc32loop crc32tab len (crc ^^^ 0xffffffff) buf).map (· ^^^ 0xffffffff)

/-! ## devether -/

/-- The inner loop of `ethercrc`: the register and the rest of the byte. -/
def ethercrcbits : Nat → BitVec 32 → BitVec 32 → BitVec 32
  | 0, crc, _ => crc
  | n + 1, crc, b =>
    ethercrcbits n ((crc >>> 1) ^^^ (if (crc ^^^ b) &&& 1 ≠ 0 then Poly else 0))
      (b >>> 1)

/-- The outer loop of `ethercrc`, with `n` bytes to go. -/
def ethercrcloop : Nat → BitVec 32 → List (BitVec 8) → Option (BitVec 32)
  | 0, crc, _ => some crc
  | _ + 1, _, [] => none
  | n + 1, crc, b :: p => ethercrcloop n (ethercrcbits 8 crc (b.setWidth 32)) p

/-- `ethercrc`: a negative `len` reads nothing. -/
def ethercrc (p : List (BitVec 8)) (len : Int) : Option (BitVec 32) :=
  ethercrcloop len.toNat 0xffffffff p

/-! ## One byte -/

private theorem bit0 (c : BitVec 32) : c &&& 1 ≠ 0 ↔ c.getLsbD 0 = true := by
  have hone : c &&& 1 = BitVec.setWidth 32 (BitVec.ofBool (c.getLsbD 0)) :=
    BitVec.and_one_eq_setWidth_ofBool_getLsbD
  rw [hone]
  cases c.getLsbD 0 <;> decide

/-- The table's inner loop is shifts of the reflected register. -/
theorem mkcrcentry_eq (n : Nat) (c : BitVec 32) :
    mkcrcentry n c = Crc.steps Poly n c := by
  induction n generalizing c with
  | zero => rfl
  | succ n ih =>
      rw [mkcrcentry, ih, Crc.steps, Crc.step]
      simp only [bit0]

/-- The driver's inner loop feeds the byte in bit by bit. -/
theorem ethercrcbits_eq (n : Nat) (crc b : BitVec 32) :
    ethercrcbits n crc b = (Crc.feed Poly n (crc, b)).1 := by
  induction n generalizing crc b with
  | zero => rfl
  | succ n ih =>
      rw [ethercrcbits, ih, Crc.feed]
      simp only [bit0]

/-- The register after one more byte: the byte added in, then eight shifts. -/
def crcbyte (crc : BitVec 32) (b : BitVec 8) : BitVec 32 :=
  Crc.steps Poly 8 (crc ^^^ b.setWidth 32)

private theorem byte_shift (b : BitVec 8) : b.setWidth 32 >>> 8 = 0#32 := by
  apply BitVec.eq_of_getLsbD_eq
  intro i _
  rw [BitVec.getLsbD_ushiftRight, BitVec.getLsbD_setWidth,
    BitVec.getLsbD_of_ge b (8 + i) (by omega)]
  simp

theorem mkcrctab_get (c : BitVec 32) :
    mkcrctab[(c &&& 0xff).toNat]? = some (Crc.steps Poly 8 (Crc.low 8 c)) := by
  have hlow : c &&& 0xff = Crc.low 8 c := rfl
  have hlt : (Crc.low 8 c).toNat < 256 := by
    have hand : (Crc.low 8 c).toNat = c.toNat &&& 255 := BitVec.toNat_and ..
    have hle : c.toNat &&& 255 ≤ 255 := Nat.and_le_right
    omega
  rw [hlow, mkcrctab, List.getElem?_map, List.getElem?_range hlt, Option.map_some,
    mkcrcentry_eq, BitVec.ofNat_toNat, BitVec.setWidth_eq]

/-- The table-driven step of `crc32`. -/
theorem tab_byte (crc : BitVec 32) (b : BitVec 8) :
    Crc.steps Poly 8 (Crc.low 8 (crc ^^^ b.setWidth 32)) ^^^ (crc >>> 8) =
      crcbyte crc b := by
  rw [crcbyte, Crc.steps_split Poly 8 (crc ^^^ b.setWidth 32),
    BitVec.ushiftRight_xor_distrib, byte_shift, BitVec.xor_zero]

theorem ethercrcbits_byte (crc : BitVec 32) (b : BitVec 8) :
    ethercrcbits 8 crc (b.setWidth 32) = crcbyte crc b := by
  rw [ethercrcbits_eq, Crc.feed_fst Poly 8 _ _ (byte_shift b), crcbyte]

/-! ## A buffer -/

theorem crc32loop_eq (p rest : List (BitVec 8)) (crc : BitVec 32) :
    crc32loop mkcrctab p.length crc (p ++ rest) = some (p.foldl crcbyte crc) := by
  induction p generalizing crc with
  | nil => rfl
  | cons b p ih =>
      rw [List.length_cons, List.cons_append, crc32loop, mkcrctab_get]
      show crc32loop mkcrctab p.length _ (p ++ rest) = _
      rw [tab_byte, ih, List.foldl_cons]

theorem ethercrcloop_eq (p rest : List (BitVec 8)) (crc : BitVec 32) :
    ethercrcloop p.length crc (p ++ rest) = some (p.foldl crcbyte crc) := by
  induction p generalizing crc with
  | nil => rfl
  | cons b p ih =>
      rw [List.length_cons, List.cons_append, ethercrcloop, ethercrcbits_byte, ih,
        List.foldl_cons]

/-- The table-driven code of the first bytes in front of a pointer. -/
theorem crc32_eq (crc : BitVec 32) (p rest : List (BitVec 8)) :
    crc32 mkcrctab crc (p ++ rest) p.length =
      some (p.foldl crcbyte (crc ^^^ 0xffffffff) ^^^ 0xffffffff) := by
  rw [crc32, crc32loop_eq, Option.map_some]

theorem ethercrc_eq (p rest : List (BitVec 8)) :
    ethercrc (p ++ rest) p.length = some (p.foldl crcbyte 0xffffffff) := by
  rw [ethercrc, Int.toNat_natCast, ethercrcloop_eq]

/-- On any bytes in front of a pointer, whatever follows them, the table-driven
code from zero is the bit-by-bit code inverted; and the code of a concatenation
is that of its second part started from that of its first. -/
theorem crc32_refines_ethercrc :
    (∀ p rest : List (BitVec 8), ∃ crc,
      ethercrc (p ++ rest) p.length = some crc ∧
      crc32 mkcrctab 0 (p ++ rest) p.length = some (~~~ crc)) ∧
    (∀ (c : BitVec 32) (a b rest : List (BitVec 8)), ∃ mid,
      crc32 mkcrctab c (a ++ b ++ rest) a.length = some mid ∧
      crc32 mkcrctab mid (b ++ rest) b.length =
        crc32 mkcrctab c (a ++ b ++ rest) (a ++ b).length) := by
  have hinv : ∀ x : BitVec 32, x ^^^ 0xffffffff = ~~~ x := fun _ =>
    BitVec.xor_allOnes
  constructor
  · intro p rest
    refine ⟨_, ethercrc_eq p rest, ?_⟩
    have hstart : (0 : BitVec 32) ^^^ 0xffffffff = 0xffffffff := by decide
    rw [crc32_eq, hstart, hinv]
  · intro c a b rest
    refine ⟨_, by rw [List.append_assoc, crc32_eq], ?_⟩
    rw [crc32_eq, crc32_eq, List.foldl_append, BitVec.xor_assoc, BitVec.xor_self,
      BitVec.xor_zero]

/-- The check value of the usual test string. -/
example : crc32 mkcrctab 0 [0x31, 0x32, 0x33, 0x34, 0x35, 0x36, 0x37, 0x38, 0x39] 9 =
    some 0xcbf43926 := by
  decide +kernel

end Kirkwood.Ports.Crc32
