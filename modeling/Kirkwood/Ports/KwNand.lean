import Kirkwood.Verified.Hamming

/-!
# Pages of the NAND flash

`kwnand.c` stores a page of 2048 bytes with 64 spare bytes, the last 24 of which
hold the codes of the page's eight chunks of 256 bytes: 24 bits each, in three
bytes of which the first holds bits 8 to 15, the second bits 0 to 7 and the third
bits 16 to 23.  `read` computes the code of each chunk again, puts the stored one
together, and lets `nandecccorrect` compare the two and mend the chunk in place.

`nandecc` and `nandecccorrect` come from a library of the kernel.  `EccOk` is what
the driver relies on: a code of 24 bits, and a single flipped bit of the chunk
corrected or of the code tolerated.

The chip is the commands, addresses and data it is given, its pages, and the
statuses it is going to answer with.  A program operation clears bits and sets none, so that
a page holds what it was given once it has been erased.

## Main results

* `write_programs`: what a successful `write` leaves in the chip;
* `read_page`: what `read` makes of the bytes of a page;
* `page_round_trip`: a page with at most one flipped bit in each chunk and its
  code is read back as it was written, and one with a bad chunk is refused.
-/

namespace Kirkwood.Ports.KwNand

open Kirkwood.Verified
open Kirkwood.Verified.ByteMem
open Kirkwood.Verified.Hamming

/-! ## The chip -/

def Readstatus : UInt8 := 0x70
def Read : UInt8 := 0x00
def Readstart : UInt8 := 0x30
def Program : UInt8 := 0x80
def Programstart : UInt8 := 0x10

def SFail : UInt8 := 1
def SIdle : UInt8 := 0x20
def SReady : UInt8 := 0x40

/-- The bytes of a page with its spare bytes. -/
abbrev Page := { bs : Bytes // bs.length = 2048 + 64 }

/-- What a page holds when `data` has been programmed from `column` on, as far as the page
goes: bits are cleared, and none set. -/
def cleared (page : Bytes) (column : Nat) (data : Bytes) : Bytes :=
  page.zipWith (· &&& ·)
    (List.replicate column 0xff ++ data ++ List.replicate page.length 0xff)

theorem cleared_length (page : Bytes) (column : Nat) (data : Bytes) :
    (cleared page column data).length = page.length := by
  simp only [cleared, List.length_zipWith, List.length_append, List.length_replicate]
  omega

/-- The page has each bit set that `data` has, as one that is erased. -/
def Takes (page data : Bytes) : Prop := List.Forall₂ (fun p d => p &&& d = d) page data

theorem Takes.cleared {page data : Bytes} (h : Takes page data) :
    cleared page 0 data = data := by
  have hrest : ∀ rest : Bytes, page.zipWith (· &&& ·) (data ++ rest) = data := by
    intro rest
    induction h with
    | nil => rfl
    | cons hand _ ih => rw [List.cons_append, List.zipWith_cons_cons, hand, ih]
  exact hrest _

theorem takes_blank (data : Bytes) : Takes (List.replicate data.length 0xff) data := by
  induction data with
  | nil => exact .nil
  | cons d data ih =>
      refine .cons ?_ ih
      have hones : (0xff : UInt8).toBitVec = BitVec.allOnes 8 := rfl
      apply UInt8.toBitVec_inj.1
      rw [UInt8.toBitVec_and, hones, BitVec.allOnes_and]

/-- The page with `data` programmed from `column` on. -/
def Page.program (page : Page) (column : Nat) (data : Bytes) : Page :=
  ⟨cleared page.val column data, (cleared_length ..).trans page.property⟩

/-- The chip: its pages, the last command, the address bytes after it, the bytes it
was given to program or still gives to a reader, and the answers to the status reads
to come. -/
structure Chip where
  page : Nat → Page
  cmd : UInt8
  addr : List UInt8
  data : Bytes
  status : Nat → UInt8

/-- `Flash`: the page size of its first region, its chip, and the register
`NANDFREG->ctl`. -/
structure Flash where
  pagesize : BitVec 32
  chip : Chip
  ctl : BitVec 32

/-- The two bytes of a column, low one first. -/
def columnnumber (a0 a1 : UInt8) : Nat := a0.toNat + a1.toNat * 2 ^ 8

/-- The three bytes of the number of a page, low one first. -/
def pagenumber (a2 a3 a4 : UInt8) : Nat :=
  a2.toNat + a3.toNat * 2 ^ 8 + a4.toNat * 2 ^ 16

/-- The column that the first two address bytes give. -/
def Chip.column (c : Chip) : Nat := columnnumber (c.addr.getD 0 0) (c.addr.getD 1 0)

/-- The page that the last three address bytes give. -/
def Chip.row (c : Chip) : Nat :=
  pagenumber (c.addr.getD 2 0) (c.addr.getD 3 0) (c.addr.getD 4 0)

/-- A command byte: `Read` and `Program` start an address, `Readstart` fetches
the page, `Programstart` programs it. -/
def Chip.command (c : Chip) (b : UInt8) : Chip :=
  if b = Read ∨ b = Program then { c with cmd := b, addr := [], data := [] }
  else if b = Readstart then
    { c with cmd := b, data := (c.page c.row).val.drop c.column }
  else if b = Programstart then
    { c with
      cmd := b
      page := Function.update c.page c.row ((c.page c.row).program c.column c.data) }
  else { c with cmd := b }

/-! ## The code -/

namespace Flash

def nandcmd (f : Flash) (b : UInt8) : Flash := { f with chip := f.chip.command b }

def nandaddr (f : Flash) (b : UInt8) : Flash :=
  { f with chip := { f.chip with addr := f.chip.addr ++ [b] } }

def nandread (f : Flash) : UInt8 × Flash :=
  if f.chip.cmd = Readstatus then
    (f.chip.status 0,
      { f with chip := { f.chip with status := fun k => f.chip.status (k + 1) } })
  else
    (f.chip.data.headD 0xff, { f with chip := { f.chip with data := f.chip.data.tail } })

def nandreadn (f : Flash) : Nat → Bytes × Flash
  | 0 => ([], f)
  | n + 1 =>
    let (b, f) := f.nandread
    let (bs, f) := f.nandreadn n
    (b :: bs, f)

def nandwrite (f : Flash) (b : UInt8) : Flash :=
  { f with chip := { f.chip with data := f.chip.data ++ [b] } }

def nandwriten (f : Flash) : Bytes → Flash
  | [] => f
  | b :: bs => (f.nandwrite b).nandwriten bs

def NandActCEBoot : BitVec 32 := 1 <<< 1

def nandclaim (f : Flash) : Flash := { f with ctl := f.ctl ||| NandActCEBoot }

def nandunclaim (f : Flash) : Flash := { f with ctl := f.ctl &&& ~~~NandActCEBoot }

end Flash

/-- What `nandecccorrect` returns. -/
inductive NandEccError where
  | NandEccErrorBad
  | NandEccErrorOneBit
  | NandEccErrorOneBitInEcc
  | NandEccErrorGood
deriving DecidableEq, Repr

/-- `v>>k`, stored in an `uchar`. -/
def uchar (v : BitVec 32) (k : Nat) : UInt8 := ⟨(v >>> k).setWidth 8⟩

def widen (b : UInt8) : BitVec 32 := b.toBitVec.setWidth 32

/-- A code from its three bytes, as `read` puts it together. -/
def word (e0 e1 e2 : UInt8) : BitVec 32 :=
  (widen e0 <<< 8) ||| (widen e1 <<< 0) ||| (widen e2 <<< 16)

section
variable (nandecc : Bytes → BitVec 32)
variable (nandecccorrect :
  Bytes → BitVec 32 → BitVec 32 → Int → NandEccError × Bytes × BitVec 32)

/-- The loop of `write` that fills in the codes, with `n` chunks to go. -/
def eccloop (buf : Bytes) : Nat → Nat → Nat → Bytes → Bytes
  | 0, _, _, oob => oob
  | n + 1, p, eccp, oob =>
    let v := nandecc (part buf p 256)
    eccloop buf n (p + 256) (eccp + 3)
      (((oob.set eccp (uchar v 8)).set (eccp + 1) (uchar v 0)).set (eccp + 2)
        (uchar v 16))

/-- The spare bytes that `write` makes for a page. -/
def writeoob (buf : Bytes) : Bytes :=
  eccloop nandecc buf (2048 / 256) 0 (64 - 24) (List.replicate 64 0xff)

/-- The loop of `write` that waits for the chip. -/
def waitloop : Nat → Flash → Int × Flash
  | 0, f => (-1, f.nandunclaim)
  | n + 1, f =>
    let (s, f) := f.nandread
    if s &&& SReady ≠ 0 then
      if s &&& SFail ≠ 0 then (-1, f.nandunclaim) else (0, f.nandunclaim)
    else waitloop n f

/-- The command, address and data bytes by which `write` programs a page. -/
def program (f : Flash) (page : BitVec 32) (buf oob : Bytes) : Flash :=
  let f := f.nandcmd Program
  let f := ((f.nandaddr 0).nandaddr 0)
  let f := ((f.nandaddr (uchar page 0)).nandaddr (uchar page 8)).nandaddr (uchar page 16)
  let f := (f.nandwriten (buf.take 2048)).nandwriten (oob.take 64)
  f.nandcmd Programstart

/-- `write`. -/
def write (f : Flash) (offset : BitVec 32) (buf : Bytes) (n : Int) : Int × Flash :=
  let page := offset >>> 11
  if n ≠ 2048 then (-1, f)
  else if offset &&& (2048 - 1) ≠ 0 then (-1, f)
  else
    let oob := writeoob nandecc buf
    let f := f.nandclaim.nandcmd Readstatus
    let (s, f) := f.nandread
    if s &&& (SIdle ||| SReady) ≠ SIdle ||| SReady then (-1, f.nandunclaim)
    else waitloop 100 ((program f page buf oob).nandcmd Readstatus)

/-- The loop of `read` that verifies and corrects, with `n` chunks to go. -/
def checkloop (oob : Bytes) : Nat → Nat → Nat → Bytes → Int × Bytes
  | 0, _, _, buf => (0, buf)
  | n + 1, p, eccp, buf =>
    let v := nandecc (part buf p 256)
    let w := word (oob.getD eccp 0) (oob.getD (eccp + 1) 0) (oob.getD (eccp + 2) 0)
    match nandecccorrect (part buf p 256) v w 1 with
    | (.NandEccErrorBad, chunk, _) => (-1, patch buf p chunk)
    | (_, chunk, _) => checkloop oob n (p + 256) (eccp + 3) (patch buf p chunk)

/-- The command and address bytes by which `read` fetches a page. -/
def fetch (f : Flash) (addr page : BitVec 32) : Flash :=
  let f := f.nandcmd Read
  let f := (f.nandaddr (uchar addr 0)).nandaddr (uchar addr 8)
  let f := ((f.nandaddr (uchar page 0)).nandaddr (uchar page 8)).nandaddr (uchar page 16)
  f.nandcmd Readstart

/-- `read`, into a buffer that held `buf`: what it returns, the buffer and the
flash. -/
def read (f : Flash) (offset : BitVec 32) (buf : Bytes) (n : Int) :
    Int × Bytes × Flash :=
  let addr := offset &&& (f.pagesize - 1)
  let page := offset >>> 11
  if addr ≠ 0 ∨ n ≠ 2048 then (-1, buf, f)
  else
    let f := fetch f.nandclaim addr page
    let data := f.nandreadn n.toNat
    let oob := data.2.nandreadn 64
    let checked :=
      checkloop nandecc nandecccorrect oob.1 (2048 / 256) 0 (64 - 24) data.1
    (checked.1, checked.2, oob.2.nandunclaim)

/-- What the driver relies on: the code has 24 bits, the chunk is mended in place,
and where at most one bit of chunk and code is flipped the chunk is mended to what
the code was computed of. -/
structure EccOk : Prop where
  code24 : ∀ p, p.length = 256 → nandecc p >>> 24 = 0#32
  inplace : ∀ p v w, (nandecccorrect p v w 1).2.1.length = p.length
  good : ∀ p, p.length = 256 →
    (nandecccorrect p (nandecc p) (nandecc p) 1).1 ≠ .NandEccErrorBad ∧
      (nandecccorrect p (nandecc p) (nandecc p) 1).2.1 = p
  data : ∀ p j b, p.length = 256 → j < 256 →
    (nandecccorrect (flipbit p j b) (nandecc (flipbit p j b)) (nandecc p) 1).1 ≠
        .NandEccErrorBad ∧
      (nandecccorrect (flipbit p j b) (nandecc (flipbit p j b)) (nandecc p) 1).2.1 = p
  code : ∀ p i, p.length = 256 → i < 24 →
    (nandecccorrect p (nandecc p) (nandecc p ^^^ (1#32 <<< i)) 1).1 ≠ .NandEccErrorBad ∧
      (nandecccorrect p (nandecc p) (nandecc p ^^^ (1#32 <<< i)) 1).2.1 = p

end

/-! ## Codes in three bytes -/

private theorem getLsbD_word (e0 e1 e2 : UInt8) {i : Nat} (hi : i < 32) :
    (word e0 e1 e2).getLsbD i = (decide (16 ≤ i) && e2.toBitVec.getLsbD (i - 16) ||
      decide (8 ≤ i) && e0.toBitVec.getLsbD (i - 8) || e1.toBitVec.getLsbD i) := by
  simp only [word, widen, BitVec.getLsbD_or, BitVec.getLsbD_shiftLeft,
    BitVec.getLsbD_setWidth]
  grind

/-- The code that `write` scatters is the one that `read` puts together. -/
theorem word_uchar {v : BitVec 32} (h : v >>> 24 = 0#32) :
    word (uchar v 8) (uchar v 0) (uchar v 16) = v := by
  apply BitVec.eq_of_getLsbD_eq
  intro i hi
  rw [getLsbD_word _ _ _ hi]
  simp only [uchar, BitVec.getLsbD_setWidth, BitVec.getLsbD_ushiftRight]
  have hhigh : 24 ≤ i → v.getLsbD i = false := by
    intro h24
    have hbit := congrArg (fun x : BitVec 32 => x.getLsbD (i - 24)) h
    rw [BitVec.getLsbD_ushiftRight, Nat.add_sub_cancel' h24] at hbit
    simpa using hbit
  grind

/-- Where the bits of the three bytes stand in the code. -/
def wordbit (j : Nat) (b : Fin 8) : Nat :=
  (if j = 0 then 8 else if j = 1 then 0 else 16) + b.val

private theorem getLsbD_flip (x : UInt8) (b : Fin 8) (n : Nat) :
    (flipbyte x b).toBitVec.getLsbD n = (x.toBitVec.getLsbD n ^^ decide (n = b.val)) := by
  by_cases hn : n < 8
  · have hbit := getLsbD_flipbyte x b ⟨n, hn⟩
    simp only [Fin.ext_iff] at hbit
    exact hbit
  · have hne : n ≠ b.val := by omega
    rw [BitVec.getLsbD_of_ge _ n (by omega), BitVec.getLsbD_of_ge _ n (by omega)]
    simp [hne]

private theorem getLsbD_one_shift {k i : Nat} (hk : k < 32) (hi : i < 32) :
    (1#32 <<< k).getLsbD i = decide (i = k) := by
  have hbit := Mask.getLsbD_bit (⟨k, hk⟩ : Fin 32) ⟨i, hi⟩
  simp only [Fin.ext_iff] at hbit
  exact hbit

/-- A bit flipped in one of the three bytes is a bit flipped in the code. -/
theorem word_flip (e0 e1 e2 : UInt8) {j : Nat} (b : Fin 8) (hj : j < 3) :
    ∃ x0 x1 x2, flipbit [e0, e1, e2] j b = [x0, x1, x2] ∧
      word x0 x1 x2 = word e0 e1 e2 ^^^ (1#32 <<< wordbit j b) := by
  have hb := b.isLt
  have hall : ∀ {x0 x1 x2 k}, k < 32 → (∀ i < 32, (word x0 x1 x2).getLsbD i =
      ((word e0 e1 e2).getLsbD i ^^ decide (i = k))) →
      word x0 x1 x2 = word e0 e1 e2 ^^^ (1#32 <<< k) := by
    intro x0 x1 x2 k hk h
    apply BitVec.eq_of_getLsbD_eq
    intro i hi
    rw [BitVec.getLsbD_xor, getLsbD_one_shift hk hi, h i hi]
  have hout : ∀ (x : UInt8) n, 8 ≤ n → x.toBitVec.getLsbD n = false :=
    fun x n hn => BitVec.getLsbD_of_ge _ n hn
  obtain rfl | rfl | rfl : j = 0 ∨ j = 1 ∨ j = 2 := by omega
  · refine ⟨flipbyte e0 b, e1, e2, rfl, hall (k := 8 + b.val) (by omega) fun i hi => ?_⟩
    rw [getLsbD_word _ _ _ hi, getLsbD_word _ _ _ hi, getLsbD_flip]
    grind
  · refine ⟨e0, flipbyte e1 b, e2, rfl, hall (k := 0 + b.val) (by omega) fun i hi => ?_⟩
    rw [getLsbD_word _ _ _ hi, getLsbD_word _ _ _ hi, getLsbD_flip]
    grind
  · refine ⟨e0, e1, flipbyte e2 b, rfl, hall (k := 16 + b.val) (by omega) fun i hi => ?_⟩
    rw [getLsbD_word _ _ _ hi, getLsbD_word _ _ _ hi, getLsbD_flip]
    grind

theorem wordbit_lt {j : Nat} (b : Fin 8) : wordbit j b < 24 := by
  have hb := b.isLt
  unfold wordbit
  split
  · omega
  · split
    · omega
    · omega

/-! ## Parts of a buffer -/

theorem part_three {xs : Bytes} {q : Nat} {a b c : UInt8} (ha : xs[q]? = some a)
    (hb : xs[q + 1]? = some b) (hc : xs[q + 2]? = some c) : part xs q 3 = [a, b, c] := by
  apply List.ext_getElem?
  intro k
  rw [part, List.getElem?_take, List.getElem?_drop]
  rcases k with _ | _ | _ | k
  · exact ha
  · exact hb
  · exact hc
  · simp

/-- The three bytes of a part of that length. -/
theorem getD_of_part {xs : Bytes} {q : Nat} {a b c : UInt8} (h : part xs q 3 = [a, b, c]) :
    xs.getD q 0 = a ∧ xs.getD (q + 1) 0 = b ∧ xs.getD (q + 2) 0 = c := by
  have hget : ∀ k < 3, xs[q + k]? = [a, b, c][k]? := by
    intro k hk
    rw [← h, part, List.getElem?_take, if_pos hk, List.getElem?_drop]
  have h0 := hget 0 (by decide)
  rw [Nat.add_zero] at h0
  simp only [List.getD_eq_getElem?_getD, h0, hget 1 (by decide), hget 2 (by decide)]
  exact ⟨rfl, rfl, rfl⟩

/-- A chunk of a page, and the three bytes of its code. -/
def unit (page : Bytes) (i : Nat) : Bytes :=
  part page (256 * i) 256 ++ part page (2048 + (40 + 3 * i)) 3

/-! ## The codes of a page -/

section
variable {nandecc : Bytes → BitVec 32}
variable {nandecccorrect :
  Bytes → BitVec 32 → BitVec 32 → Int → NandEccError × Bytes × BitVec 32}

theorem eccloop_spec (buf : Bytes) (n p eccp : Nat) (oob : Bytes)
    (h : eccp + 3 * n ≤ oob.length) :
    (eccloop nandecc buf n p eccp oob).length = oob.length ∧
    (∀ k < eccp, (eccloop nandecc buf n p eccp oob)[k]? = oob[k]?) ∧
    ∀ i < n, part (eccloop nandecc buf n p eccp oob) (eccp + 3 * i) 3 =
      [uchar (nandecc (part buf (p + 256 * i) 256)) 8,
        uchar (nandecc (part buf (p + 256 * i) 256)) 0,
        uchar (nandecc (part buf (p + 256 * i) 256)) 16] := by
  induction n generalizing p eccp oob with
  | zero => exact ⟨rfl, fun _ _ => rfl, fun _ hi => absurd hi (Nat.not_lt_zero _)⟩
  | succ n ih =>
      obtain ⟨v, hv⟩ : ∃ v, v = nandecc (part buf p 256) := ⟨_, rfl⟩
      obtain ⟨oob', hoob⟩ : ∃ oob', oob' = ((oob.set eccp (uchar v 8)).set (eccp + 1)
        (uchar v 0)).set (eccp + 2) (uchar v 16) := ⟨_, rfl⟩
      have hlen' : oob'.length = oob.length := by
        rw [hoob, List.length_set, List.length_set, List.length_set]
      obtain ⟨hlen, hkept, hcodes⟩ := ih (p + 256) (eccp + 3) oob' (by omega)
      have heq : eccloop nandecc buf (n + 1) p eccp oob =
          eccloop nandecc buf n (p + 256) (eccp + 3) oob' := by
        rw [eccloop, hoob, hv]
      rw [heq]
      refine ⟨hlen.trans hlen', fun k hk => ?_, fun i hi => ?_⟩
      · rw [hkept k (by omega), hoob, List.getElem?_set_ne (by omega),
          List.getElem?_set_ne (by omega), List.getElem?_set_ne (by omega)]
      · cases i with
        | zero =>
            simp only [Nat.mul_zero, Nat.add_zero, ← hv]
            apply part_three
            · rw [hkept eccp (by omega), hoob, List.getElem?_set_ne (by omega),
                List.getElem?_set_ne (by omega), List.getElem?_set_self (by omega)]
            · rw [hkept (eccp + 1) (by omega), hoob, List.getElem?_set_ne (by omega),
                List.getElem?_set_self (by rw [List.length_set]; omega)]
            · rw [hkept (eccp + 2) (by omega), hoob,
                List.getElem?_set_self (by
                  rw [List.length_set, List.length_set]
                  omega)]
        | succ i =>
            have hcode := hcodes i (Nat.lt_of_succ_lt_succ hi)
            have hp : p + 256 + 256 * i = p + 256 * (i + 1) := by omega
            have hecc : eccp + 3 + 3 * i = eccp + 3 * (i + 1) := by omega
            rw [hp, hecc] at hcode
            exact hcode

/-- The spare bytes of a page hold the codes of its chunks. -/
theorem writeoob_part (buf : Bytes) {i : Nat} (hi : i < 8) :
    part (writeoob nandecc buf) (40 + 3 * i) 3 =
      [uchar (nandecc (part buf (256 * i) 256)) 8,
        uchar (nandecc (part buf (256 * i) 256)) 0,
        uchar (nandecc (part buf (256 * i) 256)) 16] := by
  have hspec := (@eccloop_spec nandecc buf 8 0 40 (List.replicate 64 0xff)
    (by decide)).2.2 i hi
  rw [Nat.zero_add] at hspec
  exact hspec

theorem writeoob_length (buf : Bytes) : (writeoob nandecc buf).length = 64 := by
  have hlen := (@eccloop_spec nandecc buf 8 0 40 (List.replicate 64 0xff)
    (by decide)).1
  rw [List.length_replicate] at hlen
  exact hlen

/-! ## Checking and mending -/

/-- What `nandecccorrect` makes of a chunk and the code stored for it. -/
def mended (nandecc : Bytes → BitVec 32)
    (nandecccorrect : Bytes → BitVec 32 → BitVec 32 → Int →
      NandEccError × Bytes × BitVec 32)
    (buf oob : Bytes) (i : Nat) : NandEccError × Bytes × BitVec 32 :=
  nandecccorrect (part buf (256 * i) 256) (nandecc (part buf (256 * i) 256))
    (word (oob.getD (40 + 3 * i) 0) (oob.getD (40 + 3 * i + 1) 0)
      (oob.getD (40 + 3 * i + 2) 0)) 1

/-- One turn of the loop. -/
private theorem checkloop_succ (buf oob : Bytes) (n i : Nat) :
    checkloop nandecc nandecccorrect oob (n + 1) (256 * i) (40 + 3 * i) buf =
      if (mended nandecc nandecccorrect buf oob i).1 = .NandEccErrorBad then
        (-1, patch buf (256 * i) (mended nandecc nandecccorrect buf oob i).2.1)
      else checkloop nandecc nandecccorrect oob n (256 * (i + 1)) (40 + 3 * (i + 1))
        (patch buf (256 * i) (mended nandecc nandecccorrect buf oob i).2.1) := by
  have hp : 256 * (i + 1) = 256 * i + 256 := by omega
  have hecc : 40 + 3 * (i + 1) = 40 + 3 * i + 3 := by omega
  rw [checkloop, hp, hecc]
  unfold mended
  obtain ⟨r, chunk, w⟩ := nandecccorrect (part buf (256 * i) 256)
    (nandecc (part buf (256 * i) 256)) (word (oob.getD (40 + 3 * i) 0)
      (oob.getD (40 + 3 * i + 1) 0) (oob.getD (40 + 3 * i + 2) 0)) 1
  cases r with
  | _ => rfl

/-- A chunk that is reported as bad is reached and ends the loop, and the loop has
mended the chunks before it only. -/
theorem checkloop_bad (hecc : EccOk nandecc nandecccorrect) (oob : Bytes) (n i k : Nat)
    (buf : Bytes) (hbuf : 256 * (i + n) ≤ buf.length) (hik : i ≤ k) (hk : k < i + n)
    (hbad : (mended nandecc nandecccorrect buf oob k).1 = .NandEccErrorBad) :
    (checkloop nandecc nandecccorrect oob n (256 * i) (40 + 3 * i) buf).1 = -1 := by
  induction n generalizing i buf with
  | zero => omega
  | succ n ih =>
      rw [checkloop_succ]
      by_cases hi : (mended nandecc nandecccorrect buf oob i).1 = .NandEccErrorBad
      · rw [if_pos hi]
      · rw [if_neg hi]
        have hne : i ≠ k := by
          rintro rfl
          exact hi hbad
        have hlen : (mended nandecc nandecccorrect buf oob i).2.1.length = 256 := by
          rw [mended, hecc.inplace, part_length (by omega)]
        refine ih (i + 1) _ ?_ (by omega) (by omega) ?_
        · rw [patch_length (by omega)]
          omega
        · rw [mended, part_patch (by omega) (by omega)]
          exact hbad

/-- Where every chunk is mended to that of `orig`, the loop makes the buffer
`orig`. -/
theorem checkloop_good (oob orig : Bytes) (n i : Nat) (buf : Bytes)
    (hn : 256 * (i + n) = orig.length) (hlen : buf.length = orig.length)
    (hdone : buf.take (256 * i) = orig.take (256 * i))
    (hmend : ∀ k, i ≤ k → k < i + n →
      (mended nandecc nandecccorrect buf oob k).1 ≠ .NandEccErrorBad ∧
        (mended nandecc nandecccorrect buf oob k).2.1 = part orig (256 * k) 256) :
    checkloop nandecc nandecccorrect oob n (256 * i) (40 + 3 * i) buf = (0, orig) := by
  induction n generalizing i buf with
  | zero =>
      have hall : buf = orig := by
        rw [Nat.add_zero] at hn
        rwa [List.take_of_length_le (by omega), List.take_of_length_le (by omega)] at hdone
      rw [checkloop, hall]
  | succ n ih =>
      obtain ⟨hgood, hchunk⟩ := hmend i (Nat.le_refl i) (by omega)
      have hpart : (part orig (256 * i) 256).length = 256 := part_length (by omega)
      rw [checkloop_succ, if_neg hgood, hchunk]
      refine ih (i + 1) _ (by omega) ?_ ?_ ?_
      · rw [patch_length (by omega), hlen]
      · have hp : 256 * (i + 1) = 256 * i + 256 := by omega
        rw [hp]
        exact take_patch hlen (by omega) hdone
      · intro k hik hk
        have hkept : mended nandecc nandecccorrect
            (patch buf (256 * i) (part orig (256 * i) 256)) oob k =
            mended nandecc nandecccorrect buf oob k := by
          rw [mended, part_patch (by omega) (by omega)]
          rfl
        rw [hkept]
        exact hmend k (by omega) (by omega)

/-- A chunk with at most one flipped bit in it or in its code is mended. -/
theorem mended_good (hecc : EccOk nandecc nandecccorrect) {chunk : Bytes}
    (hchunk : chunk.length = 256) {buf oob : Bytes} {i : Nat}
    (hlen : (part buf (256 * i) 256).length = 256)
    (h : Flipped (chunk ++ [uchar (nandecc chunk) 8, uchar (nandecc chunk) 0,
        uchar (nandecc chunk) 16])
      (part buf (256 * i) 256 ++ part oob (40 + 3 * i) 3)) :
    (mended nandecc nandecccorrect buf oob i).1 ≠ .NandEccErrorBad ∧
      (mended nandecc nandecccorrect buf oob i).2.1 = chunk := by
  have hcode := word_uchar (hecc.code24 chunk hchunk)
  unfold mended
  obtain ⟨hflip, hsame⟩ | ⟨hsame, hflip⟩ := h.append (by rw [hlen, hchunk])
  · obtain ⟨h0, h1, h2⟩ := getD_of_part hsame
    rw [h0, h1, h2, hcode]
    obtain heq | ⟨j, hj, b, heq⟩ := hflip
    · rw [heq]
      exact hecc.good chunk hchunk
    · rw [heq]
      exact hecc.data chunk j b hchunk (by omega)
  · rw [hsame]
    obtain heq | ⟨j, hj, b, heq⟩ := hflip
    · obtain ⟨h0, h1, h2⟩ := getD_of_part heq
      rw [h0, h1, h2, hcode]
      exact hecc.good chunk hchunk
    · obtain ⟨x0, x1, x2, hbytes, hword⟩ := word_flip (uchar (nandecc chunk) 8)
        (uchar (nandecc chunk) 0) (uchar (nandecc chunk) 16) b hj
      rw [hbytes] at heq
      obtain ⟨h0, h1, h2⟩ := getD_of_part heq
      rw [h0, h1, h2, hword, hcode]
      exact hecc.code chunk _ hchunk (wordbit_lt b)

end

/-! ## Pages in the chip -/

/-- The number of a page, from the address bytes that are sent of it. -/
def rowof (page : BitVec 32) : Nat :=
  pagenumber (uchar page 0) (uchar page 8) (uchar page 16)

theorem nandwriten_eq (f : Flash) (bs : Bytes) :
    f.nandwriten bs = { f with chip := { f.chip with data := f.chip.data ++ bs } } := by
  induction bs generalizing f with
  | nil =>
      rw [Flash.nandwriten, List.append_nil]
  | cons b bs ih =>
      rw [Flash.nandwriten, ih]
      simp only [Flash.nandwrite, List.append_assoc, List.singleton_append]

theorem nandcmd_status (f : Flash) : (f.nandcmd Readstatus).pagesize = f.pagesize ∧
    (f.nandcmd Readstatus).chip.page = f.chip.page :=
  ⟨rfl, rfl⟩

theorem nandreadn_eq (f : Flash) (n : Nat) (hcmd : f.chip.cmd ≠ Readstatus)
    (hn : n ≤ f.chip.data.length) :
    f.nandreadn n = (f.chip.data.take n,
      { f with chip := { f.chip with data := f.chip.data.drop n } }) := by
  induction n generalizing f with
  | zero => rfl
  | succ n ih =>
      cases hdata : f.chip.data with
      | nil =>
          rw [hdata] at hn
          exact absurd hn (Nat.not_succ_le_zero n)
      | cons b bs =>
          rw [hdata] at hn
          have hread : f.nandread = (b, { f with chip := { f.chip with data := bs } }) := by
            rw [Flash.nandread, if_neg hcmd, hdata]
            rfl
          simp only [Flash.nandreadn, hread]
          rw [List.length_cons] at hn
          rw [ih { f with chip := { f.chip with data := bs } } hcmd
            (Nat.le_of_succ_le_succ hn)]
          rfl

/-- Two reads in a row. -/
theorem nandreadn_twice (f : Flash) (n m : Nat) (hcmd : f.chip.cmd ≠ Readstatus)
    (h : n + m ≤ f.chip.data.length) :
    (f.nandreadn n).1 = part f.chip.data 0 n ∧
      ((f.nandreadn n).2.nandreadn m).1 = part f.chip.data n m := by
  rw [nandreadn_eq f n hcmd (by omega)]
  refine ⟨rfl, ?_⟩
  rw [nandreadn_eq { f with chip := { f.chip with data := f.chip.data.drop n } } m hcmd
    (by
      show m ≤ (f.chip.data.drop n).length
      rw [List.length_drop]
      omega)]
  rfl

theorem nandwriten_append (f : Flash) (as bs : Bytes) :
    (f.nandwriten as).nandwriten bs = f.nandwriten (as ++ bs) := by
  rw [nandwriten_eq, nandwriten_eq, nandwriten_eq]
  simp only [List.append_assoc]

/-- Five address bytes. -/
def address (f : Flash) (a0 a1 a2 a3 a4 : UInt8) : Flash :=
  ((((f.nandaddr a0).nandaddr a1).nandaddr a2).nandaddr a3).nandaddr a4

private theorem column_zero : columnnumber 0 0 = 0 := by
  decide

/-- A program operation: its command, address and data, and its start. -/
theorem programmed (f : Flash) (a2 a3 a4 : UInt8) (data : Bytes) :
    (((address (f.nandcmd Program) 0 0 a2 a3 a4).nandwriten data).nandcmd
      Programstart) =
    { f with chip := { f.chip with
      cmd := Programstart
      addr := [0, 0, a2, a3, a4]
      data := data
      page := Function.update f.chip.page (pagenumber a2 a3 a4)
        ((f.chip.page (pagenumber a2 a3 a4)).program 0 data) } } := by
  rw [nandwriten_eq, ← column_zero]
  rfl

/-- A read operation: its command and address, and its start. -/
theorem fetched (f : Flash) (a2 a3 a4 : UInt8) :
    ((address (f.nandcmd Read) 0 0 a2 a3 a4).nandcmd Readstart) =
    { f with chip := { f.chip with
      cmd := Readstart
      addr := [0, 0, a2, a3, a4]
      data := (f.chip.page (pagenumber a2 a3 a4)).val } } := by
  have hdrop : (f.chip.page (pagenumber a2 a3 a4)).val =
      (f.chip.page (pagenumber a2 a3 a4)).val.drop (columnnumber 0 0) := by
    rw [column_zero, List.drop_zero]
  rw [hdrop]
  rfl

/-- What `program` leaves in the chip. -/
theorem program_page (f : Flash) (page : BitVec 32) (buf oob : Bytes) :
    (program f page buf oob).pagesize = f.pagesize ∧
      (program f page buf oob).chip.page (rowof page) =
        (f.chip.page (rowof page)).program 0 (buf.take 2048 ++ oob.take 64) := by
  have heq : program f page buf oob =
      ((address (f.nandcmd Program) 0 0 (uchar page 0) (uchar page 8)
        (uchar page 16)).nandwriten (buf.take 2048 ++ oob.take 64)).nandcmd
        Programstart := by
    rw [← nandwriten_append]
    rfl
  rw [heq, programmed]
  exact ⟨rfl, Function.update_self ..⟩

/-- The chip, ready to give the bytes of a page. -/
theorem fetch_data (f : Flash) (page : BitVec 32) :
    (fetch f 0 page).chip.data = (f.chip.page (rowof page)).val ∧
      (fetch f 0 page).chip.cmd = Readstart := by
  have heq : fetch f 0 page = (address (f.nandcmd Read) 0 0 (uchar page 0)
      (uchar page 8) (uchar page 16)).nandcmd Readstart := rfl
  rw [heq, fetched]
  exact ⟨rfl, rfl⟩

/-- The wait ends with the pages as they were. -/
theorem waitloop_page (n : Nat) (f : Flash) :
    (waitloop n f).2.pagesize = f.pagesize ∧ (waitloop n f).2.chip.page = f.chip.page := by
  induction n generalizing f with
  | zero => exact ⟨rfl, rfl⟩
  | succ n ih =>
      have hread : f.nandread.2.pagesize = f.pagesize ∧
          f.nandread.2.chip.page = f.chip.page := by
        unfold Flash.nandread
        split
        · exact ⟨rfl, rfl⟩
        · exact ⟨rfl, rfl⟩
      unfold waitloop
      simp only
      split
      · split
        · exact hread
        · exact hread
      · rw [(ih _).1, (ih _).2]
        exact hread

section
variable {nandecc : Bytes → BitVec 32}
variable {nandecccorrect :
  Bytes → BitVec 32 → BitVec 32 → Int → NandEccError × Bytes × BitVec 32}

/-- A successful `write` is given an aligned page, and its wait for the chip ends
well. -/
private theorem write_waits {f f1 : Flash} {offset : BitVec 32} {buf : Bytes} {n : Int}
    (h : write nandecc f offset buf n = (0, f1)) :
    n = 2048 ∧ offset &&& (2048 - 1) = 0 ∧
      ∃ g : Flash, g.pagesize = f.pagesize ∧ g.chip.page = f.chip.page ∧ waitloop 100
        ((program g (offset >>> 11) buf (writeoob nandecc buf)).nandcmd Readstatus) =
          (0, f1) := by
  have hfail : ∀ {g : Flash}, ((-1 : Int), g) ≠ (0, f1) := by
    intro g hg
    have hzero : (-1 : Int) = 0 := congrArg Prod.fst hg
    exact absurd hzero (by decide)
  unfold write at h
  by_cases hn : n = 2048
  · rw [if_neg (not_not.2 hn)] at h
    by_cases hoff : offset &&& (2048 - 1) = 0
    · rw [if_neg (not_not.2 hoff)] at h
      simp only at h
      split at h
      · exact absurd h hfail
      · refine ⟨hn, hoff, _, ?_, ?_, h⟩
        · unfold Flash.nandread
          split
          · rfl
          · rfl
        · unfold Flash.nandread
          split
          · rfl
          · rfl
    · rw [if_pos hoff] at h
      exact absurd h hfail
  · rw [if_pos hn] at h
    exact absurd h hfail

/-- A successful `write` programs the page and its codes. -/
theorem write_programs {f f1 : Flash} {offset : BitVec 32} {buf : Bytes} {n : Int}
    (hbuf : buf.length = n) (h : write nandecc f offset buf n = (0, f1)) :
    n = 2048 ∧ offset &&& (2048 - 1) = 0 ∧ f1.pagesize = f.pagesize ∧
      f1.chip.page (rowof (offset >>> 11)) =
        (f.chip.page (rowof (offset >>> 11))).program 0 (buf ++ writeoob nandecc buf) := by
  obtain ⟨hn, hoff, g, hg, hgpage, hwait⟩ := write_waits h
  have hoob := @writeoob_length nandecc buf
  have hlen : buf.length = 2048 := by omega
  obtain ⟨hsize, hpage⟩ := program_page g (offset >>> 11) buf (writeoob nandecc buf)
  obtain ⟨hwsize, hwpage⟩ := waitloop_page 100
    ((program g (offset >>> 11) buf (writeoob nandecc buf)).nandcmd Readstatus)
  obtain ⟨hcsize, hcpage⟩ :=
    nandcmd_status (program g (offset >>> 11) buf (writeoob nandecc buf))
  rw [hwait, hcsize] at hwsize
  rw [hwait, hcpage] at hwpage
  refine ⟨hn, hoff, hwsize.trans (hsize.trans hg), ?_⟩
  have hstored : f1.chip.page (rowof (offset >>> 11)) =
      (program g (offset >>> 11) buf (writeoob nandecc buf)).chip.page
        (rowof (offset >>> 11)) := congrFun hwpage _
  rw [hstored, hpage, List.take_of_length_le (Nat.le_of_eq hlen),
    List.take_of_length_le (Nat.le_of_eq hoob), hgpage]

/-- What `read` gives is what its loop makes of the bytes of the page. -/
theorem read_page (f : Flash) (offset : BitVec 32) (buf : Bytes)
    (haddr : offset &&& (f.pagesize - 1) = 0) {page : Bytes}
    (hpage : page = (f.chip.page (rowof (offset >>> 11))).val) :
    ∃ f', read nandecc nandecccorrect f offset buf 2048 =
      ((checkloop nandecc nandecccorrect (part page 2048 64) 8 0 40 (part page 0 2048)).1,
        (checkloop nandecc nandecccorrect (part page 2048 64) 8 0 40 (part page 0 2048)).2,
        f') := by
  obtain ⟨hdata, hcmd⟩ := fetch_data f.nandclaim (offset >>> 11)
  have hlen : page.length = 2048 + 64 := by
    rw [hpage]
    exact (f.chip.page (rowof (offset >>> 11))).property
  have hdata' : (fetch f.nandclaim 0 (offset >>> 11)).chip.data = page := by
    rw [hdata, hpage]
    rfl
  have hne : (fetch f.nandclaim 0 (offset >>> 11)).chip.cmd ≠ Readstatus := by
    rw [hcmd]
    decide
  obtain ⟨hbuf, hoob⟩ := nandreadn_twice _ 2048 64 hne (by rw [hdata', hlen])
  rw [hdata'] at hbuf hoob
  have hok : ¬ ((0 : BitVec 32) ≠ 0 ∨ (2048 : Int) ≠ 2048) := by decide
  have hnat : (2048 : Int).toNat = 2048 := rfl
  unfold read
  simp only [haddr, if_neg hok, hnat, hbuf, hoob]
  exact ⟨_, rfl⟩

/-! ## There and back -/

/-- The unit that `write` makes of a chunk. -/
private theorem unit_written {buf : Bytes} (hbuf : buf.length = 2048) {i : Nat}
    (hi : i < 8) : unit (buf ++ writeoob nandecc buf) i =
      part buf (256 * i) 256 ++ [uchar (nandecc (part buf (256 * i) 256)) 8,
        uchar (nandecc (part buf (256 * i) 256)) 0,
        uchar (nandecc (part buf (256 * i) 256)) 16] := by
  rw [unit, part_left (by omega), ← hbuf, part_right, writeoob_part buf hi]

/-- The unit that `read` finds. -/
private theorem unit_read (page : Bytes) {i : Nat} (hi : i < 8) :
    unit page i = part (part page 0 2048) (256 * i) 256 ++
      part (part page 2048 64) (40 + 3 * i) 3 := by
  rw [part_part (by omega), part_part (by omega), Nat.zero_add, unit]

/-- The bytes of a written page, with at most one bit flipped in each chunk and its
code, are checked and mended to what was written. -/
theorem checkloop_written (hecc : EccOk nandecc nandecccorrect) {buf page : Bytes}
    (hbuf : buf.length = 2048) (hlen : page.length = 2048 + 64)
    (hflip : ∀ i < 8, Flipped (unit (buf ++ writeoob nandecc buf) i) (unit page i)) :
    checkloop nandecc nandecccorrect (part page 2048 64) 8 0 40 (part page 0 2048) =
      (0, buf) := by
  have hdata : (part page 0 2048).length = 2048 := part_length (by omega)
  have hcheck := @checkloop_good nandecc nandecccorrect
    (part page 2048 64) buf 8 0 (part page 0 2048) (by omega) (by omega) rfl
    fun k _ hk => by
      have hunit := hflip k (by omega)
      rw [unit_written hbuf (by omega), unit_read page (by omega)] at hunit
      exact mended_good hecc (part_length (by omega)) (part_length (by omega)) hunit
  simp only [Nat.mul_zero, Nat.add_zero] at hcheck
  exact hcheck

/-- A successful `write` leaves the data and its codes in a page that takes them, as an
erased page does.  When at most one bit of what was written is flipped in each chunk and its
code, whatever the other spare bytes hold, the page is read back as it was written.  And a
page with a chunk that `nandecccorrect` reports as bad is not read. -/
theorem page_round_trip (hecc : EccOk nandecc nandecccorrect) :
    (∀ (f f1 : Flash) (offset : BitVec 32) (buf : Bytes) (n : Int),
      buf.length = n → write nandecc f offset buf n = (0, f1) →
      Takes (f.chip.page (rowof (offset >>> 11))).val (buf ++ writeoob nandecc buf) →
      (f1.chip.page (rowof (offset >>> 11))).val = buf ++ writeoob nandecc buf) ∧
    (∀ (f f1 f2 : Flash) (offset : BitVec 32) (buf : Bytes) (n : Int),
      f.pagesize = 2048 → buf.length = n → write nandecc f offset buf n = (0, f1) →
      f2.pagesize = f1.pagesize →
      (∀ i < 8, Flipped (unit (buf ++ writeoob nandecc buf) i)
        (unit (f2.chip.page (rowof (offset >>> 11))).val i)) →
      ∀ buf0, ∃ f3, read nandecc nandecccorrect f2 offset buf0 n = (0, buf, f3)) ∧
    ∀ (f : Flash) (offset : BitVec 32) (page buf0 : Bytes),
      page = (f.chip.page (rowof (offset >>> 11))).val →
      (∃ i < 8, (mended nandecc nandecccorrect (part page 0 2048) (part page 2048 64)
        i).1 = .NandEccErrorBad) →
      (read nandecc nandecccorrect f offset buf0 2048).1 = -1 := by
  refine ⟨?_, ?_, ?_⟩
  · intro f f1 offset buf n hbuf hwrite htakes
    obtain ⟨-, -, -, hpage⟩ := write_programs hbuf hwrite
    rw [hpage]
    exact htakes.cleared
  · intro f f1 f2 offset buf n hsize hbuf hwrite hsize2 hflip buf0
    obtain ⟨rfl, hoff, hsize1, -⟩ := write_programs hbuf hwrite
    obtain ⟨page, hpage⟩ : ∃ page, page = (f2.chip.page (rowof (offset >>> 11))).val :=
      ⟨_, rfl⟩
    have haddr : offset &&& (f2.pagesize - 1) = 0 := by
      rw [hsize2, hsize1, hsize]
      exact hoff
    have hlen : page.length = 2048 + 64 := by
      rw [hpage]
      exact (f2.chip.page (rowof (offset >>> 11))).property
    have hbuflen : buf.length = 2048 := by omega
    rw [← hpage] at hflip
    have hcheck := checkloop_written hecc hbuflen hlen hflip
    obtain ⟨f3, hread⟩ := @read_page nandecc nandecccorrect f2 offset buf0 haddr
      page hpage
    refine ⟨f3, ?_⟩
    rw [hread, hcheck]
  · rintro f offset page buf0 hpage ⟨i, hi, hbad⟩
    have hlen : page.length = 2048 + 64 := by
      rw [hpage]
      exact (f.chip.page (rowof (offset >>> 11))).property
    by_cases haddr : offset &&& (f.pagesize - 1) = 0
    · have hdata : (part page 0 2048).length = 2048 := part_length (by omega)
      have hcheck := checkloop_bad hecc (part page 2048 64) 8 0 i (part page 0 2048)
        (by omega) (Nat.zero_le i) (by omega) hbad
      obtain ⟨f3, hread⟩ := @read_page nandecc nandecccorrect f offset buf0
        haddr page hpage
      simp only [Nat.mul_zero, Nat.add_zero] at hcheck
      rw [hread, hcheck]
    · unfold read
      simp only
      rw [if_pos (Or.inl haddr)]

end

/-! ## A code of parities

For each of the eleven address bits of a bit in a chunk, the parity of the bits with
that address bit set and that of the bits with it clear: an instance of what the
driver relies on. -/

/-- The column of bit `i` of a chunk: its address and the complement of it. -/
def paritycol (i : Nat) : BitVec 24 := BitVec.ofNat 24 (i + (2047 - i) * 2048)

def parityecc (p : Bytes) : BitVec 32 := (code paritycol 0 p).setWidth 32

def paritycorrect (p : Bytes) (v w : BitVec 32) (_ : Int) :
    NandEccError × Bytes × BitVec 32 :=
  if v ^^^ w = 0 then (.NandEccErrorGood, p, w)
  else
    match locate paritycol 2048 ((v ^^^ w).setWidth 24) with
    | some i =>
      (.NandEccErrorOneBit, flipbit p (i / 8) ⟨i % 8, Nat.mod_lt _ (by decide)⟩, w)
    | none =>
      if ∃ i < 24, v ^^^ w = 1#32 <<< i then (.NandEccErrorOneBitInEcc, p, v)
      else (.NandEccErrorBad, p, w)

private theorem paritycol_toNat {i : Nat} (hi : i < 2048) :
    (paritycol i).toNat = i + (2047 - i) * 2048 := by
  rw [paritycol, BitVec.toNat_ofNat]
  omega

private theorem paritycol_inj {i j : Nat} (hi : i < 2048) (hj : j < 2048)
    (h : paritycol j = paritycol i) : j = i := by
  have hnat := congrArg BitVec.toNat h
  rw [paritycol_toNat hi, paritycol_toNat hj] at hnat
  omega

private theorem widen24 (x : BitVec 24) : (x.setWidth 32).setWidth 24 = x := by
  rw [BitVec.setWidth_setWidth_of_le x (by decide), BitVec.setWidth_eq]

/-- No column is a single bit. -/
private theorem paritycol_ne {k i : Nat} (hk : k < 2048) (hi : i < 24) :
    paritycol k ≠ (1#32 <<< i).setWidth 24 := by
  have hbit : ∀ i : Fin 24, ((1#32 <<< i.val).setWidth 24).toNat = 2 ^ i.val := by
    decide
  intro h
  have hnat := congrArg BitVec.toNat h
  rw [paritycol_toNat hk, hbit ⟨i, hi⟩] at hnat
  have hpow : ∀ i : Fin 24, 2 ^ i.val % 2048 = 0 ∨ 2 ^ i.val < 2048 := by
    decide
  have hall : ∀ i : Fin 24, 2 ^ i.val ≠ 2047 ∧ 2 ^ i.val ≠ 2047 * 2048 := by
    decide
  have hne := hall ⟨i, hi⟩
  simp only at hnat hne
  obtain hlow | hlow := hpow ⟨i, hi⟩
  · simp only at hlow
    omega
  · simp only at hlow
    omega

private theorem nonzero_of_locate {x y : BitVec 32} (h : (x ^^^ y).setWidth 24 ≠ 0#24) :
    x ^^^ y ≠ 0 := by
  intro hzero
  rw [hzero] at h
  exact h rfl

/-- The syndrome of one wrong bit is the column of the bit. -/
private theorem syndrome_flipbit {p : Bytes} {j : Nat} (b : Fin 8) (hj : j < p.length) :
    (parityecc (flipbit p j b) ^^^ parityecc p).setWidth 24 = paritycol (8 * j + b.val) := by
  rw [parityecc, parityecc, BitVec.setWidth_xor, widen24, widen24, code_flipbit 0 p b hj,
    Nat.zero_add, BitVec.xor_comm, ← BitVec.xor_assoc, BitVec.xor_self, BitVec.zero_xor]

private theorem paritycol_ne_zero {i : Nat} (hi : i < 2048) : paritycol i ≠ 0#24 := by
  intro hzero
  have hnat := congrArg BitVec.toNat hzero
  rw [paritycol_toNat hi] at hnat
  have hz : (0#24).toNat = 0 := rfl
  omega

/-- The parities are such a code. -/
theorem parity_ok : EccOk parityecc paritycorrect where
  code24 := by
    intro p _
    apply BitVec.eq_of_getLsbD_eq
    intro i _
    rw [BitVec.getLsbD_ushiftRight, parityecc, BitVec.getLsbD_setWidth,
      BitVec.getLsbD_of_ge _ (24 + i) (by omega)]
    simp
  inplace := by
    intro p v w
    unfold paritycorrect
    split
    · rfl
    · split
      · exact flipbit_length ..
      · split
        · rfl
        · rfl
  good := by
    intro p _
    have hzero : parityecc p ^^^ parityecc p = 0 := BitVec.xor_self
    unfold paritycorrect
    rw [if_pos hzero]
    exact ⟨nofun, rfl⟩
  data := by
    intro p j b hp hj
    have hb := b.isLt
    have hs := syndrome_flipbit (p := p) b (by omega : j < p.length)
    have hloc : locate paritycol 2048 (paritycol (8 * j + b.val)) = some (8 * j + b.val) :=
      locate_eq (by omega) fun k hk h => paritycol_inj (by omega) hk h
    have hne : parityecc (flipbit p j b) ^^^ parityecc p ≠ 0 := by
      apply nonzero_of_locate
      rw [hs]
      exact paritycol_ne_zero (by omega)
    have hdiv : (8 * j + b.val) / 8 = j := by omega
    have hmod : (⟨(8 * j + b.val) % 8, Nat.mod_lt _ (by decide)⟩ : Fin 8) = b := by
      apply Fin.ext
      show (8 * j + b.val) % 8 = b.val
      omega
    unfold paritycorrect
    rw [if_neg hne, hs, hloc]
    simp only [hdiv, hmod]
    exact ⟨nofun, flipbit_flipbit p j b⟩
  code := by
    intro p i _ hi
    have hs : parityecc p ^^^ (parityecc p ^^^ (1#32 <<< i)) = 1#32 <<< i := by
      rw [← BitVec.xor_assoc, BitVec.xor_self, BitVec.zero_xor]
    have hne : (1#32 <<< i) ≠ 0 := by
      have hall : ∀ i : Fin 24, (1#32 <<< i.val) ≠ 0 := by decide
      exact hall ⟨i, hi⟩
    have hloc : locate paritycol 2048 ((1#32 <<< i).setWidth 24) = none :=
      locate_eq_none fun k hk => paritycol_ne hk hi
    unfold paritycorrect
    rw [hs, if_neg hne, hloc]
    simp only
    rw [if_pos ⟨i, hi, rfl⟩]
    exact ⟨nofun, rfl⟩

/-- An erased chip that is always ready. -/
def erased : Flash where
  pagesize := 2048
  ctl := 0
  chip := {
    page := fun _ => ⟨List.replicate (2048 + 64) 0xff, List.length_replicate ..⟩
    cmd := 0
    addr := []
    data := []
    status := fun _ => SIdle ||| SReady }

def zeros : Bytes := List.replicate 2048 0

private theorem erased_pagesize : erased.pagesize = 2048 := by
  simp only [erased]

private theorem erased_takes (offset : BitVec 32) {data : Bytes}
    (h : data.length = 2048 + 64) :
    Takes (erased.chip.page (rowof (offset >>> 11))).val data := by
  have hpage : (erased.chip.page (rowof (offset >>> 11))).val =
      List.replicate data.length 0xff := by
    rw [h]
    simp only [erased]
  rw [hpage]
  exact takes_blank data

private theorem zeros_length : (zeros.length : Int) = 2048 := by
  simp only [zeros, List.length_replicate, Nat.cast_ofNat]

private theorem bit0_lt : 0 < 8 := by decide

/-- The first bit of every page flipped. -/
def firstflipped (f : Flash) : Flash :=
  { f with chip := { f.chip with page := fun r =>
      ⟨flipbit (f.chip.page r).val 0 ⟨0, bit0_lt⟩,
        (flipbit_length ..).trans (f.chip.page r).property⟩ } }

private theorem firstflipped_pagesize (f : Flash) :
    (firstflipped f).pagesize = f.pagesize := rfl

private theorem part_tail (x y : UInt8) (xs : Bytes) {q : Nat} (n : Nat) (hq : 0 < q) :
    part (y :: xs) q n = part (x :: xs) q n := by
  cases q with
  | zero => exact absurd hq (Nat.lt_irrefl 0)
  | succ q => rfl

private theorem unit_flip_first (page : Bytes) (i : Nat) :
    Flipped (unit page i) (unit (flipbit page 0 0) i) := by
  cases page with
  | nil => exact .inl rfl
  | cons x xs =>
      have hflip : flipbit (x :: xs) 0 0 = flipbyte x 0 :: xs := rfl
      rw [hflip, unit, unit, part_tail x (flipbyte x 0) xs 3 (by omega)]
      by_cases hi : i = 0
      · have hpart : ∀ y, part (y :: xs) (256 * i) 256 = y :: xs.take 255 := by
          intro y
          rw [hi, Nat.mul_zero, part, List.drop_zero]
          exact List.take_succ_cons
        rw [hpart, hpart]
        exact .inr ⟨0, Nat.succ_pos _, 0, rfl⟩
      · rw [part_tail x (flipbyte x 0) xs 256 (by omega)]
        exact .inl rfl

private theorem firstflipped_unit (f : Flash) (r i : Nat) :
    Flipped (unit (f.chip.page r).val i) (unit ((firstflipped f).chip.page r).val i) :=
  unit_flip_first (f.chip.page r).val i

/-- A page of zeros is written and read back with its first bit flipped in
between. -/
theorem page_round_trip_zeros :
    ∃ f1 f3, write parityecc erased 0 zeros 2048 = (0, f1) ∧
      read parityecc paritycorrect (firstflipped f1) 0 [] 2048 = (0, zeros, f3) := by
  have hret : (write parityecc erased 0 zeros 2048).1 = 0 := by
    decide +kernel
  have hwrite : write parityecc erased 0 zeros 2048 =
      (0, (write parityecc erased 0 zeros 2048).2) := by
    rw [← hret]
  obtain ⟨hstored, hback, -⟩ := page_round_trip parity_ok
  have hlen : (zeros ++ writeoob parityecc zeros).length = 2048 + 64 := by
    rw [List.length_append, writeoob_length, zeros, List.length_replicate]
  have hpage := hstored erased _ 0 zeros 2048 zeros_length hwrite (erased_takes 0 hlen)
  have hflip : ∀ i < 8, Flipped (unit (zeros ++ writeoob parityecc zeros) i)
      (unit ((firstflipped (write parityecc erased 0 zeros 2048).2).chip.page
        (rowof ((0 : BitVec 32) >>> 11))).val i) := by
    intro i _
    rw [← hpage]
    exact firstflipped_unit _ _ i
  obtain ⟨f3, hread⟩ := hback erased _
    (firstflipped (write parityecc erased 0 zeros 2048).2) 0 zeros 2048 erased_pagesize
    zeros_length hwrite (firstflipped_pagesize _) hflip []
  exact ⟨_, f3, hwrite, hread⟩

end Kirkwood.Ports.KwNand
