import Kirkwood.Ports.KwNand
import Kirkwood.Verified.Trans

/-!
# Addresses of the NAND flash

`idchip` of `kwnand.c` reads the size of a page and of an erase block from the
identification of the chip, while `read`, `write` and `erasezone` shift and mask
offsets by the sizes of one chip.  Here the chip has the geometry that its
identification describes, and keeps a record of the commands it is given and of the
operations it starts: the page and column of a read and how many bytes were taken, the
page, column and bytes of a program operation, the page whose block is erased.  Bits are only
set when a block is erased.

## Main results

* `faithful_iff`: a call is refused, or works on exactly the page or block at its
  offset, if and only if the chip is of the right geometry or a check refuses the call;
* `read_last`: a page that was erased is read as it was last written, whatever calls come in
  between;
* `addressing_faithful_iff`: both, for every chip that `idchip` accepts.
-/

namespace Kirkwood.Ports.NandGeometry

open Kirkwood.Verified.ByteMem
open Kirkwood.Verified
open Kirkwood.Verified.Trans
open Kirkwood.Ports.KwNand (Readstatus Read Readstart Program Programstart SFail SIdle
  SReady columnnumber pagenumber NandEccError uchar writeoob checkloop EccOk parityecc
  paritycorrect cleared cleared_length Takes takes_blank)

/-! ## The chip -/

def Readid : UInt8 := 0x90
def Erase : UInt8 := 0x60
def Erasestart : UInt8 := 0xd0

/-- What a chip answers to `Readid`. -/
structure Ident where
  maker : UInt8
  device : UInt8
  id3 : UInt8
  id4 : UInt8
deriving DecidableEq, Repr

/-- The table `pagesizes` of `idchip`, at the bits that `id4` has for it. -/
def pagesizes (id4 : UInt8) : Nat := [1024, 2 * 1024, 0, 0].getD (id4 &&& 3).toNat 0

/-- The table `blocksizes` of `idchip`. -/
def blocksizes (id4 : UInt8) : Nat :=
  [64 * 1024, 128 * 1024, 256 * 1024, 0].getD ((id4 >>> 4) &&& 3).toNat 0

/-- The table `spares` of `idchip`, per 512 bytes. -/
def spares (id4 : UInt8) : Nat := [8, 16].getD ((id4 >>> 2) &&& 1).toNat 0

namespace Ident

/-- The bytes of a page. -/
def pagesize (i : Ident) : Nat := pagesizes i.id4

/-- The bytes of an erase block. -/
def erasesize (i : Ident) : Nat := blocksizes i.id4

/-- The spare bytes of a page. -/
def spare (i : Ident) : Nat := i.pagesize / 512 * spares i.id4

/-- The pages of an erase block. -/
def rows (i : Ident) : Nat := i.erasesize / i.pagesize

end Ident

/-- The bytes of a page with its spare bytes. -/
abbrev Page (i : Ident) := { bs : Bytes // bs.length = i.pagesize + i.spare }

/-- The page with `data` programmed from `column` on, as far as the page goes. -/
def Page.program {i : Ident} (page : Page i) (column : Nat) (data : Bytes) : Page i :=
  ⟨cleared page.val column data, (cleared_length ..).trans page.property⟩

/-- A page of an erased block. -/
def Page.blank (i : Ident) : Page i :=
  ⟨List.replicate (i.pagesize + i.spare) 0xff, List.length_replicate ..⟩

/-- What a chip was made to do: read `count` bytes of a page, program bytes of a page,
erase the block of a page. -/
inductive Op where
  | read (row column count : Nat)
  | program (row column : Nat) (data : Bytes)
  | erase (row : Nat)
deriving DecidableEq, Repr

/-- The chip: its pages, the last command, the address bytes after it, the bytes it was
given to program or still gives to a reader, and the answers to the status reads to
come; with the commands it was given and what they made it do, last one first. -/
structure Chip (i : Ident) where
  page : Nat → Page i
  cmd : UInt8
  addr : List UInt8
  data : Bytes
  status : Nat → UInt8
  cmds : List UInt8
  ops : List Op

namespace Chip

variable {i : Ident}

/-- The column that the first two address bytes give. -/
def column (c : Chip i) : Nat := columnnumber (c.addr.getD 0 0) (c.addr.getD 1 0)

/-- The page that the three address bytes from byte `k` on give. -/
def row (c : Chip i) (k : Nat) : Nat :=
  pagenumber (c.addr.getD k 0) (c.addr.getD (k + 1) 0) (c.addr.getD (k + 2) 0)

/-- The pages after an erase operation on the block of a page. -/
def erased (page : Nat → Page i) (row : Nat) : Nat → Page i := fun r =>
  if r / i.rows = row / i.rows then Page.blank i else page r

/-- A command byte: `Read`, `Program` and `Erase` start an address, `Readid` has the
identification read, `Readstart` fetches the page, `Programstart` programs it and
`Erasestart` erases its block. -/
def command (c : Chip i) (b : UInt8) : Chip i :=
  let c := { c with cmd := b, cmds := b :: c.cmds }
  if b = Read ∨ b = Program ∨ b = Erase then { c with addr := [], data := [] }
  else if b = Readid then
    { c with addr := [], data := [i.maker, i.device, i.id3, i.id4] }
  else if b = Readstart then
    { c with
      data := (c.page (c.row 2)).val.drop c.column
      ops := .read (c.row 2) c.column 0 :: c.ops }
  else if b = Programstart then
    { c with
      page := Function.update c.page (c.row 2) ((c.page (c.row 2)).program c.column c.data)
      ops := .program (c.row 2) c.column c.data :: c.ops }
  else if b = Erasestart then
    { c with page := erased c.page (c.row 0), ops := .erase (c.row 0) :: c.ops }
  else c

/-- One more byte taken by the read operation that came last. -/
def taken : List Op → List Op
  | .read row column count :: ops => .read row column (count + 1) :: ops
  | ops => ops

end Chip

/-! ## The code -/

/-- `Flashregion`; `last` is its field `end`. -/
structure Flashregion where
  n : BitVec 32
  start : BitVec 32
  last : BitVec 32
  pagesize : BitVec 32
  erasesize : BitVec 32

/-- `Flash`: what `idchip` sets in it, the first of its regions, its chip, and the
register `NANDFREG->ctl`. -/
structure Flash (i : Ident) where
  id : Nat
  devid : Nat
  width : Nat
  nr : Nat
  size : BitVec 32
  region : Flashregion
  chip : Chip i
  ctl : BitVec 32

namespace Flash

variable {i : Ident}

def nandcmd (f : Flash i) (b : UInt8) : Flash i := { f with chip := f.chip.command b }

def nandaddr (f : Flash i) (b : UInt8) : Flash i :=
  { f with chip := { f.chip with addr := f.chip.addr ++ [b] } }

def nandread (f : Flash i) : UInt8 × Flash i :=
  if f.chip.cmd = Readstatus then
    (f.chip.status 0,
      { f with chip := { f.chip with status := fun k => f.chip.status (k + 1) } })
  else
    (f.chip.data.headD 0xff,
      { f with chip := { f.chip with
        data := f.chip.data.tail
        ops := Chip.taken f.chip.ops } })

def nandreadn (f : Flash i) : Nat → Bytes × Flash i
  | 0 => ([], f)
  | n + 1 =>
    let (b, f) := f.nandread
    let (bs, f) := f.nandreadn n
    (b :: bs, f)

def nandwrite (f : Flash i) (b : UInt8) : Flash i :=
  { f with chip := { f.chip with data := f.chip.data ++ [b] } }

def nandwriten (f : Flash i) : Bytes → Flash i
  | [] => f
  | b :: bs => (f.nandwrite b).nandwriten bs

def nandclaim (f : Flash i) : Flash i :=
  { f with ctl := f.ctl ||| KwNand.Flash.NandActCEBoot }

def nandunclaim (f : Flash i) : Flash i :=
  { f with ctl := f.ctl &&& ~~~KwNand.Flash.NandActCEBoot }

end Flash

/-- `Nandtab`, but for the name that is printed. -/
structure Nandtab where
  vid : Nat
  did : Nat
  size : Nat

def Hynix : Nat := 0xad
def Samsung : Nat := 0xec
def Hy27UF084G2M : Nat := 0xdc

def nandtab : List Nandtab :=
  [⟨Hynix, Hy27UF084G2M, 512 * 1024 * 1024⟩, ⟨Samsung, 0xdc, 512 * 1024 * 1024⟩]

section
variable {i : Ident}

/-- The loop of `idchip` over the entries of the table that are left.  Where the erase
size is zero the division is undefined, and the region useless. -/
def idloop (maker device id4 : UInt8) (f : Flash i) : List Nandtab → Int × Flash i
  | [] => (-1, f)
  | chip :: rest =>
    if chip.vid = maker.toNat ∧ chip.did = device.toNat then
      let size := BitVec.ofNat 32 chip.size
      let erasesize := BitVec.ofNat 32 (blocksizes id4)
      (0, { f with
        id := maker.toNat
        devid := device.toNat
        width := 1
        nr := 1
        size := size
        region := {
          pagesize := BitVec.ofNat 32 (pagesizes id4)
          erasesize := erasesize
          n := size / erasesize
          start := 0
          last := size } })
    else idloop maker device id4 f rest

/-- `idchip`. -/
def idchip (f : Flash i) : Int × Flash i :=
  let f := { f with id := 0, devid := 0, width := 1 }
  let f := (f.nandclaim.nandcmd Readid).nandaddr 0
  let (maker, f) := f.nandread
  let (device, f) := f.nandread
  let (_, f) := f.nandread
  let (id4, f) := f.nandread
  idloop maker device id4 f.nandunclaim nandtab

/-- The loop of `write` and `erasezone` that waits for the chip. -/
def waitloop : Nat → Flash i → Int × Flash i
  | 0, f => (-1, f.nandunclaim)
  | n + 1, f =>
    let (s, f) := f.nandread
    if s &&& SReady ≠ 0 then
      if s &&& SFail ≠ 0 then (-1, f.nandunclaim) else (0, f.nandunclaim)
    else waitloop n f

/-- The command and address bytes by which `erasezone` erases a block. -/
def eraseblock (f : Flash i) (page : BitVec 32) : Flash i :=
  let f := f.nandcmd Erase
  let f := ((f.nandaddr (uchar page 0)).nandaddr (uchar page 8)).nandaddr (uchar page 16)
  f.nandcmd Erasestart

/-- `erasezone`. -/
def erasezone (f : Flash i) (offset : BitVec 32) : Int × Flash i :=
  if offset &&& (128 * 1024 - 1) ≠ 0 then (-1, f)
  else
    let page := offset >>> 11
    let f := f.nandclaim.nandcmd Readstatus
    let (s, f) := f.nandread
    if s &&& (SIdle ||| SReady) ≠ SIdle ||| SReady then (-1, f.nandunclaim)
    else waitloop 100 ((eraseblock f page).nandcmd Readstatus)

/-- The command, address and data bytes by which `write` programs a page. -/
def program (f : Flash i) (page : BitVec 32) (buf oob : Bytes) : Flash i :=
  let f := f.nandcmd Program
  let f := ((f.nandaddr 0).nandaddr 0)
  let f := ((f.nandaddr (uchar page 0)).nandaddr (uchar page 8)).nandaddr (uchar page 16)
  let f := (f.nandwriten (buf.take 2048)).nandwriten (oob.take 64)
  f.nandcmd Programstart

/-- The command and address bytes by which `read` fetches a page. -/
def fetch (f : Flash i) (addr page : BitVec 32) : Flash i :=
  let f := f.nandcmd Read
  let f := (f.nandaddr (uchar addr 0)).nandaddr (uchar addr 8)
  let f := ((f.nandaddr (uchar page 0)).nandaddr (uchar page 8)).nandaddr (uchar page 16)
  f.nandcmd Readstart

end

section
variable (nandecc : Bytes → BitVec 32)
variable (nandecccorrect :
  Bytes → BitVec 32 → BitVec 32 → Int → NandEccError × Bytes × BitVec 32)
variable {i : Ident}

/-- `write`. -/
def write (f : Flash i) (offset : BitVec 32) (buf : Bytes) (n : Int) : Int × Flash i :=
  let page := offset >>> 11
  if n ≠ 2048 then (-1, f)
  else if offset &&& (2048 - 1) ≠ 0 then (-1, f)
  else
    let oob := writeoob nandecc buf
    let f := f.nandclaim.nandcmd Readstatus
    let (s, f) := f.nandread
    if s &&& (SIdle ||| SReady) ≠ SIdle ||| SReady then (-1, f.nandunclaim)
    else waitloop 100 ((program f page buf oob).nandcmd Readstatus)

/-- `read`, into a buffer that held `buf`: what it returns, the buffer and the
flash. -/
def read (f : Flash i) (offset : BitVec 32) (buf : Bytes) (n : Int) :
    Int × Bytes × Flash i :=
  let addr := offset &&& (f.region.pagesize - 1)
  let page := offset >>> 11
  if addr ≠ 0 ∨ n ≠ 2048 then (-1, buf, f)
  else
    let f := fetch f.nandclaim addr page
    let data := f.nandreadn n.toNat
    let oob := data.2.nandreadn 64
    let checked :=
      checkloop nandecc nandecccorrect oob.1 (2048 / 256) 0 (64 - 24) data.1
    (checked.1, checked.2, oob.2.nandunclaim)

/-- A call of the driver. -/
inductive Call where
  | read (offset : BitVec 32) (buf : Bytes) (n : Int)
  | write (offset : BitVec 32) (buf : Bytes) (n : Int)
  | erasezone (offset : BitVec 32)

/-- What a call returns, and the flash after it. -/
def perform (f : Flash i) : Call → Int × Flash i
  | .read offset buf n =>
    let (ret, _, f) := read nandecc nandecccorrect f offset buf n
    (ret, f)
  | .write offset buf n => write nandecc f offset buf n
  | .erasezone offset => erasezone f offset

def step (f : Flash i) (c : Call) : Option (Flash i) :=
  some (perform nandecc nandecccorrect f c).2

end

/-! ## What the calls are for -/

/-- The offset of a call is below `size`, and a buffer is as long as the call says. -/
def Call.Fits (size : BitVec 32) : Call → Prop
  | .read offset _ _ => offset < size
  | .write offset buf n => offset < size ∧ buf.length = n.toNat
  | .erasezone offset => offset < size

section
variable {i : Ident}

/-- The operation is on exactly the page, or the erase block, at the offset of the
call: the bytes of a page of the region, with the spare bytes of the chip, or the block
of the region that starts there. -/
def Exact (r : Flashregion) (i : Ident) : Call → Op → Prop
  | .read offset _ _, .read row column count =>
      row * r.pagesize.toNat = offset.toNat ∧ column = 0 ∧
        count = r.pagesize.toNat + i.spare
  | .write offset buf _, .program row column data =>
      row * r.pagesize.toNat = offset.toNat ∧ column = 0 ∧
        data.length = r.pagesize.toNat + i.spare ∧ data.take r.pagesize.toNat = buf
  | .erasezone offset, .erase row =>
      row / i.rows * r.erasesize.toNat = offset.toNat
  | _, _ => False

/-- No read, program or erase command was sent. -/
def Unsent (f f' : Flash i) : Prop :=
  ∃ cmds, f'.chip.cmds = cmds ++ f.chip.cmds ∧
    ∀ b ∈ cmds, b ≠ Read ∧ b ≠ Program ∧ b ≠ Erase

/-- From `f` to `f'` a call that returns `ret` either refuses, or starts one operation,
on exactly what it names. -/
def Faithful (f : Flash i) (c : Call) (ret : Int) (f' : Flash i) : Prop :=
  (ret = -1 ∧ Unsent f f') ∨
    ∃ op, f'.chip.ops = op :: f.chip.ops ∧ Exact f.region i c op

/-- The chip is idle and ready. -/
def Ready (f : Flash i) : Prop :=
  f.chip.status 0 &&& (SIdle ||| SReady) = SIdle ||| SReady

/-- Pages of the size that the shifts are made for, with room for the codes. -/
def Standard (i : Ident) : Prop := i.pagesize = 2048 ∧ i.spare = 64

/-- A check refuses the call. -/
def Refuses (f : Flash i) : Call → Prop
  | .read offset _ n => n ≠ 2048 ∨ offset &&& (f.region.pagesize - 1) ≠ 0
  | .write offset _ n => n ≠ 2048 ∨ offset &&& (2048 - 1) ≠ 0 ∨ ¬ Ready f
  | .erasezone offset => offset &&& (128 * 1024 - 1) ≠ 0 ∨ ¬ Ready f

/-- The chip has the geometry that the call is made for. -/
def Suits (i : Ident) : Call → Prop
  | .read _ _ _ => Standard i
  | .write _ _ _ => Standard i
  | .erasezone offset => offset = 0 ∨ i.pagesize = 2048 ∧ i.erasesize ∣ offset.toNat

/-- The call neither writes the page at an offset nor erases its block. -/
def Call.Spares (i : Ident) (offset : BitVec 32) : Call → Prop
  | .read _ _ _ => True
  | .write offset' _ _ => offset' ≠ offset
  | .erasezone offset' =>
      ¬ (offset'.toNat ≤ offset.toNat ∧ offset.toNat < offset'.toNat + i.erasesize)

end

/-! ## Sizes -/

private theorem and_three_lt (b : UInt8) : (b &&& 3).toNat < 4 := by
  rw [UInt8.toNat_and]
  exact Nat.and_lt_two_pow (n := 2) _ (by decide)

/-- The page sizes that `idchip` knows of. -/
theorem pagesize_cases (i : Ident) (h : i.pagesize ≠ 0) :
    i.pagesize = 1024 ∨ i.pagesize = 2048 := by
  have hlt := and_three_lt i.id4
  unfold Ident.pagesize pagesizes at h ⊢
  generalize (i.id4 &&& 3).toNat = k at h hlt ⊢
  match k, hlt with
  | 0, _ => exact .inl rfl
  | 1, _ => exact .inr rfl
  | 2, _ => exact absurd rfl h
  | 3, _ => exact absurd rfl h

/-- The erase sizes that `idchip` knows of. -/
theorem erasesize_cases (i : Ident) (h : i.erasesize ≠ 0) :
    i.erasesize = 65536 ∨ i.erasesize = 131072 ∨ i.erasesize = 262144 := by
  have hlt := and_three_lt (i.id4 >>> 4)
  unfold Ident.erasesize blocksizes at h ⊢
  generalize (i.id4 >>> 4 &&& 3).toNat = k at h hlt ⊢
  match k, hlt with
  | 0, _ => exact .inl rfl
  | 1, _ => exact .inr (.inl rfl)
  | 2, _ => exact .inr (.inr rfl)
  | 3, _ => exact absurd rfl h

/-- A page has fewer spare bytes than bytes. -/
theorem spare_lt (i : Ident) : i.spare ≤ i.pagesize / 512 * 16 := by
  unfold Ident.spare
  apply Nat.mul_le_mul_left
  unfold spares
  generalize (i.id4 >>> 2 &&& 1).toNat = k
  match k with
  | 0 => decide
  | 1 => decide
  | k + 2 => exact Nat.zero_le _

/-- The number of a page, as its three bytes give it. -/
theorem pagenumber_offset (offset : BitVec 32) :
    pagenumber (uchar (offset >>> 11) 0) (uchar (offset >>> 11) 8)
      (uchar (offset >>> 11) 16) = offset.toNat / 2048 := by
  have hlt := offset.isLt
  simp only [pagenumber, uchar, UInt8.toNat, BitVec.toNat_setWidth,
    BitVec.toNat_ushiftRight, Nat.shiftRight_eq_div_pow]
  omega

/-! ## What a call does to the chip -/

section
variable {i : Ident}

theorem command_begin (c : Chip i) {b : UInt8} (h : b = Read ∨ b = Program ∨ b = Erase) :
    c.command b = { c with cmd := b, cmds := b :: c.cmds, addr := [], data := [] } := by
  rw [Chip.command, if_pos h]

theorem command_readstart (c : Chip i) : c.command Readstart = { c with
    cmd := Readstart
    cmds := Readstart :: c.cmds
    data := (c.page (c.row 2)).val.drop c.column
    ops := .read (c.row 2) c.column 0 :: c.ops } := by
  rw [Chip.command, if_neg (by decide), if_neg (by decide), if_pos rfl]
  rfl

theorem command_programstart (c : Chip i) : c.command Programstart = { c with
    cmd := Programstart
    cmds := Programstart :: c.cmds
    page := Function.update c.page (c.row 2) ((c.page (c.row 2)).program c.column c.data)
    ops := .program (c.row 2) c.column c.data :: c.ops } := by
  rw [Chip.command, if_neg (by decide), if_neg (by decide), if_neg (by decide), if_pos rfl]
  rfl

theorem command_erasestart (c : Chip i) : c.command Erasestart = { c with
    cmd := Erasestart
    cmds := Erasestart :: c.cmds
    page := Chip.erased c.page (c.row 0)
    ops := .erase (c.row 0) :: c.ops } := by
  rw [Chip.command, if_neg (by decide), if_neg (by decide), if_neg (by decide),
    if_neg (by decide), if_pos rfl]
  rfl

theorem command_readstatus (c : Chip i) : c.command Readstatus =
    { c with cmd := Readstatus, cmds := Readstatus :: c.cmds } := by
  rw [Chip.command, if_neg (by decide), if_neg (by decide), if_neg (by decide),
    if_neg (by decide), if_neg (by decide)]

theorem nandwriten_eq (f : Flash i) (bs : Bytes) :
    f.nandwriten bs = { f with chip := { f.chip with data := f.chip.data ++ bs } } := by
  induction bs generalizing f with
  | nil =>
      rw [Flash.nandwriten, List.append_nil]
  | cons b bs ih =>
      rw [Flash.nandwriten, ih]
      simp only [Flash.nandwrite, List.append_assoc, List.singleton_append]

/-- The two zeros of a column and the three bytes of a page. -/
private theorem column_address (c : Chip i) (a2 a3 a4 : UInt8)
    (h : c.addr = [0, 0, a2, a3, a4]) :
    c.column = 0 ∧ c.row 2 = pagenumber a2 a3 a4 := by
  have hzero : columnnumber 0 0 = 0 := by decide
  unfold Chip.column Chip.row
  simp only [h, List.getD_cons_zero, List.getD_cons_succ, hzero, and_self]

private theorem row_address (c : Chip i) (a0 a1 a2 : UInt8) (h : c.addr = [a0, a1, a2]) :
    c.row 0 = pagenumber a0 a1 a2 := by
  unfold Chip.row
  simp only [h, List.getD_cons_zero, List.getD_cons_succ]

/-- A read operation: its command and address, and its start. -/
theorem fetch_eq (f : Flash i) (page : BitVec 32) {row : Nat}
    (hrow : pagenumber (uchar page 0) (uchar page 8) (uchar page 16) = row) :
    fetch f 0 page = { f with chip := { f.chip with
      cmd := Readstart
      addr := [0, 0, uchar page 0, uchar page 8, uchar page 16]
      data := (f.chip.page row).val
      cmds := Readstart :: Read :: f.chip.cmds
      ops := .read row 0 0 :: f.chip.ops } } := by
  have hzero : uchar 0 0 = 0 ∧ uchar 0 8 = 0 := by decide
  unfold fetch
  simp only [Flash.nandcmd, Flash.nandaddr, command_begin _ (Or.inl rfl), hzero,
    List.nil_append, List.cons_append, command_readstart]
  obtain ⟨hcolumn, hrow'⟩ := column_address { f.chip with
    cmd := Read
    cmds := Read :: f.chip.cmds
    addr := [0, 0, uchar page 0, uchar page 8, uchar page 16]
    data := [] } _ _ _ rfl
  simp only [hcolumn, hrow', hrow, List.drop_zero]

/-- A program operation: its command, address and data, and its start. -/
theorem program_eq (f : Flash i) (page : BitVec 32) (buf oob : Bytes) {row : Nat}
    (hrow : pagenumber (uchar page 0) (uchar page 8) (uchar page 16) = row) :
    program f page buf oob = { f with chip := { f.chip with
      cmd := Programstart
      addr := [0, 0, uchar page 0, uchar page 8, uchar page 16]
      data := buf.take 2048 ++ oob.take 64
      page := Function.update f.chip.page row
        ((f.chip.page row).program 0 (buf.take 2048 ++ oob.take 64))
      cmds := Programstart :: Program :: f.chip.cmds
      ops := .program row 0 (buf.take 2048 ++ oob.take 64) :: f.chip.ops } } := by
  unfold program
  simp only [nandwriten_eq, Flash.nandcmd, Flash.nandaddr,
    command_begin _ (Or.inr (Or.inl rfl)), List.nil_append, List.cons_append,
    command_programstart]
  obtain ⟨hcolumn, hrow'⟩ := column_address { f.chip with
    cmd := Program
    cmds := Program :: f.chip.cmds
    addr := [0, 0, uchar page 0, uchar page 8, uchar page 16]
    data := buf.take 2048 ++ oob.take 64 } _ _ _ rfl
  simp only [hcolumn, hrow', hrow]

/-- An erase operation: its command and address, and its start. -/
theorem eraseblock_eq (f : Flash i) (page : BitVec 32) {row : Nat}
    (hrow : pagenumber (uchar page 0) (uchar page 8) (uchar page 16) = row) :
    eraseblock f page = { f with chip := { f.chip with
      cmd := Erasestart
      addr := [uchar page 0, uchar page 8, uchar page 16]
      data := []
      page := Chip.erased f.chip.page row
      cmds := Erasestart :: Erase :: f.chip.cmds
      ops := .erase row :: f.chip.ops } } := by
  unfold eraseblock
  simp only [Flash.nandcmd, Flash.nandaddr, command_begin _ (Or.inr (Or.inr rfl)),
    List.nil_append, List.cons_append, command_erasestart]
  have hrow' := row_address { f.chip with
    cmd := Erase
    cmds := Erase :: f.chip.cmds
    addr := [uchar page 0, uchar page 8, uchar page 16]
    data := [] } _ _ _ rfl
  simp only [hrow', hrow]

/-- What no call changes, and what a read, program or erase operation on its way leaves
as it is: `f'` has the chip of `f`, with the commands `cmds` sent to it since, the
pages `page` and the operations `ops`. -/
structure Left (f f' : Flash i) (cmds : List UInt8) (page : Nat → Page i)
    (ops : List Op) : Prop where
  size : f'.size = f.size
  region : f'.region = f.region
  cmds : f'.chip.cmds = cmds ++ f.chip.cmds
  page : f'.chip.page = page
  ops : f'.chip.ops = ops

theorem Left.trans {f g h : Flash i} {cmds cmds' : List UInt8} {page page' : Nat → Page i}
    {ops ops' : List Op} (hfg : Left f g cmds page ops) (hgh : Left g h cmds' page' ops') :
    Left f h (cmds' ++ cmds) page' ops' where
  size := hgh.size.trans hfg.size
  region := hgh.region.trans hfg.region
  cmds := by rw [hgh.cmds, hfg.cmds, List.append_assoc]
  page := hgh.page
  ops := hgh.ops

theorem nandread_status (f : Flash i) (h : f.chip.cmd = Readstatus) :
    f.nandread = (f.chip.status 0, { f with chip := { f.chip with
      status := fun k => f.chip.status (k + 1) } }) := by
  rw [Flash.nandread, if_pos h]

/-- The bytes of a read operation are taken, and counted. -/
theorem nandreadn_taken (f : Flash i) (n : Nat) (hcmd : f.chip.cmd ≠ Readstatus)
    {row column count : Nat} {ops : List Op}
    (hops : f.chip.ops = .read row column count :: ops) :
    (f.nandreadn n).2 = { f with chip := { f.chip with
      data := f.chip.data.drop n, ops := .read row column (count + n) :: ops } } := by
  induction n generalizing f count with
  | zero =>
      rw [Flash.nandreadn, List.drop_zero, Nat.add_zero, ← hops]
  | succ n ih =>
      have hread : f.nandread.2 = { f with chip := { f.chip with
          data := f.chip.data.tail, ops := .read row column (count + 1) :: ops } } := by
        rw [Flash.nandread, if_neg hcmd, hops]
        rfl
      have hrest : (f.nandreadn (n + 1)).2 = (f.nandread.2.nandreadn n).2 := rfl
      have htaken := ih f.nandread.2 (by rw [hread]; exact hcmd) (by rw [hread])
      rw [hrest, htaken, hread]
      simp only [List.drop_tail, Nat.add_assoc, Nat.add_comm n 1]

/-- The bytes that are taken, where the chip has as many. -/
theorem nandreadn_data (f : Flash i) (n : Nat) (hcmd : f.chip.cmd ≠ Readstatus)
    (hn : n ≤ f.chip.data.length) : (f.nandreadn n).1 = f.chip.data.take n := by
  induction n generalizing f with
  | zero => rfl
  | succ n ih =>
      cases hdata : f.chip.data with
      | nil =>
          rw [hdata] at hn
          exact absurd hn (Nat.not_succ_le_zero n)
      | cons b bs =>
          have hbs : n ≤ bs.length := by
            rw [hdata] at hn
            exact Nat.le_of_succ_le_succ hn
          have hread : f.nandread = (b, { f with chip := { f.chip with
              data := bs, ops := Chip.taken f.chip.ops } }) := by
            rw [Flash.nandread, if_neg hcmd, hdata]
            rfl
          simp only [Flash.nandreadn, hread]
          rw [ih { f with chip := { f.chip with
            data := bs, ops := Chip.taken f.chip.ops } } hcmd hbs]
          rfl

/-- Two reads in a row. -/
theorem nandreadn_twice (f : Flash i) (n m : Nat) (hcmd : f.chip.cmd ≠ Readstatus)
    {row column : Nat} {ops : List Op} (hops : f.chip.ops = .read row column 0 :: ops) :
    ((f.nandreadn n).2.nandreadn m).2 = { f with chip := { f.chip with
        data := f.chip.data.drop (n + m), ops := .read row column (n + m) :: ops } } ∧
      (n + m ≤ f.chip.data.length →
        (f.nandreadn n).1 = part f.chip.data 0 n ∧
          ((f.nandreadn n).2.nandreadn m).1 = part f.chip.data n m) := by
  have hfirst := nandreadn_taken f n hcmd hops
  rw [Nat.zero_add] at hfirst
  have hcmd' : (f.nandreadn n).2.chip.cmd ≠ Readstatus := by
    rw [hfirst]
    exact hcmd
  have hops' : (f.nandreadn n).2.chip.ops = .read row column n :: ops := by
    rw [hfirst]
  have hdata' : (f.nandreadn n).2.chip.data = f.chip.data.drop n := by
    rw [hfirst]
  refine ⟨?_, fun hlen => ⟨nandreadn_data f n hcmd (by omega), ?_⟩⟩
  · rw [nandreadn_taken _ m hcmd' hops', hdata', List.drop_drop, hfirst]
  · rw [nandreadn_data _ m hcmd' (by rw [hdata', List.length_drop]; omega), hdata']
    rfl

/-- The wait reads the status, and changes nothing. -/
theorem waitloop_left (n : Nat) (f : Flash i) (hcmd : f.chip.cmd = Readstatus) :
    Left f (waitloop n f).2 [] f.chip.page f.chip.ops := by
  induction n generalizing f with
  | zero => exact ⟨rfl, rfl, rfl, rfl, rfl⟩
  | succ n ih =>
      unfold waitloop
      simp only [nandread_status f hcmd]
      split
      · split
        · exact ⟨rfl, rfl, rfl, rfl, rfl⟩
        · exact ⟨rfl, rfl, rfl, rfl, rfl⟩
      · obtain ⟨hsize, hregion, hcmds, hpage, hops⟩ :=
          ih { f with chip := { f.chip with
            status := fun k => f.chip.status (k + 1) } } hcmd
        exact ⟨hsize, hregion, hcmds, hpage, hops⟩

/-- What an operation makes of the pages. -/
def Op.pages (page : Nat → Page i) : Op → Nat → Page i
  | .read _ _ _ => page
  | .program row column data => Function.update page row ((page row).program column data)
  | .erase row => Chip.erased page row

section
variable (nandecc : Bytes → BitVec 32)
variable (nandecccorrect :
  Bytes → BitVec 32 → BitVec 32 → Int → NandEccError × Bytes × BitVec 32)

/-- The operation that a call starts, unless it refuses. -/
def started : Call → Op
  | .read offset _ _ => .read (offset.toNat / 2048) 0 (2048 + 64)
  | .write offset buf _ =>
      .program (offset.toNat / 2048) 0 (buf.take 2048 ++ (writeoob nandecc buf).take 64)
  | .erasezone offset => .erase (offset.toNat / 2048)

/-- `f'` comes of a refusal. -/
def Kept (f f' : Flash i) : Prop :=
  ∃ cmds, Left f f' cmds f.chip.page f.chip.ops ∧ ∀ b ∈ cmds, b = Readstatus

/-- `f'` comes of an operation. -/
def Worked (f f' : Flash i) (op : Op) : Prop :=
  ∃ cmds, Left f f' cmds (op.pages f.chip.page) (op :: f.chip.ops) ∧
    ∃ b ∈ cmds, b = Read ∨ b = Program ∨ b = Erase

/-- A `read` that does not refuse checks the bytes of the page, and what comes after
them. -/
theorem read_eq (f : Flash i) {offset : BitVec 32} {buf : Bytes} {n : Int}
    (h : ¬ Refuses f (.read offset buf n)) :
    ∃ g : Flash i, (g.chip.cmd ≠ Readstatus ∧ Left f g [Readstart, Read] f.chip.page
        (.read (offset.toNat / 2048) 0 0 :: f.chip.ops) ∧
        g.chip.data = (f.chip.page (offset.toNat / 2048)).val) ∧
      read nandecc nandecccorrect f offset buf n =
        ((checkloop nandecc nandecccorrect ((g.nandreadn 2048).2.nandreadn 64).1 8 0 40
            (g.nandreadn 2048).1).1,
          (checkloop nandecc nandecccorrect ((g.nandreadn 2048).2.nandreadn 64).1 8 0 40
            (g.nandreadn 2048).1).2,
          ((g.nandreadn 2048).2.nandreadn 64).2.nandunclaim) := by
  obtain ⟨hn, haddr⟩ := not_or.1 h
  obtain rfl : n = 2048 := not_not.1 hn
  have haddr' : offset &&& (f.region.pagesize - 1) = 0 := not_not.1 haddr
  have hok : ¬ ((0 : BitVec 32) ≠ 0 ∨ (2048 : Int) ≠ 2048) := by decide
  have hnat : (2048 : Int).toNat = 2048 := rfl
  refine ⟨fetch f.nandclaim 0 (offset >>> 11), ?_, ?_⟩
  · rw [fetch_eq _ _ (pagenumber_offset offset)]
    have hne : Readstart ≠ Readstatus := by decide
    exact ⟨hne, ⟨rfl, rfl, rfl, rfl, rfl⟩, rfl⟩
  · unfold read
    simp only [haddr', if_neg hok, hnat]

theorem kept_refl (f : Flash i) : Kept f f :=
  ⟨[], ⟨rfl, rfl, rfl, rfl, rfl⟩, nofun⟩

theorem read_spec (f : Flash i) (offset : BitVec 32) (buf : Bytes) (n : Int) :
    (Refuses f (.read offset buf n) ∧
      read nandecc nandecccorrect f offset buf n = (-1, buf, f)) ∨
    (¬ Refuses f (.read offset buf n) ∧
      Worked f (read nandecc nandecccorrect f offset buf n).2.2
        (started nandecc (.read offset buf n))) := by
  by_cases hrefuse : Refuses f (.read offset buf n)
  · refine .inl ⟨hrefuse, ?_⟩
    unfold read
    exact if_pos (Or.comm.1 hrefuse)
  · refine .inr ⟨hrefuse, ?_⟩
    obtain ⟨g, ⟨hcmd, hleft, -⟩, hread⟩ := read_eq nandecc nandecccorrect f hrefuse
    obtain ⟨htwice, -⟩ := nandreadn_twice g 2048 64 hcmd hleft.ops
    rw [hread]
    simp only [htwice]
    exact ⟨_, ⟨hleft.size, hleft.region, hleft.cmds, hleft.page, rfl⟩, Read,
      List.mem_cons_of_mem _ (List.mem_singleton_self _), .inl rfl⟩

/-- What `write` and `erasezone` do once they have checked the offset: they read the
status, and refuse, or start an operation and wait for its end. -/
private theorem ready_spec (f : Flash i) (start : Flash i → Flash i) {op : Op}
    {cmds : List UInt8} (hcmds : ∃ b ∈ cmds, b = Read ∨ b = Program ∨ b = Erase)
    (hstart : ∀ g : Flash i,
      Left g (start g) cmds (op.pages g.chip.page) (op :: g.chip.ops)) :
    let r := (f.nandclaim.nandcmd Readstatus).nandread
    let ret : Int × Flash i :=
      if r.1 &&& (SIdle ||| SReady) ≠ SIdle ||| SReady then (-1, r.2.nandunclaim)
      else waitloop 100 ((start r.2).nandcmd Readstatus)
    (¬ Ready f ∧ ret.1 = -1 ∧ Kept f ret.2) ∨ (Ready f ∧ Worked f ret.2 op) := by
  have hcmd : (f.nandclaim.nandcmd Readstatus).chip.cmd = Readstatus := by
    rw [Flash.nandcmd, command_readstatus]
  have hread := nandread_status _ hcmd
  have hstatus : (f.nandclaim.nandcmd Readstatus).chip.status = f.chip.status := by
    rw [Flash.nandcmd, command_readstatus]
    rfl
  have hleft : Left f (f.nandclaim.nandcmd Readstatus).nandread.2 [Readstatus] f.chip.page
      f.chip.ops := by
    rw [hread, Flash.nandcmd, command_readstatus]
    exact ⟨rfl, rfl, rfl, rfl, rfl⟩
  have hready : (f.nandclaim.nandcmd Readstatus).nandread.1 &&& (SIdle ||| SReady) =
      SIdle ||| SReady ↔ Ready f := by
    rw [hread, hstatus]
    exact Iff.rfl
  generalize (f.nandclaim.nandcmd Readstatus).nandread = r at hleft hready
  simp only
  by_cases h : Ready f
  · refine .inr ⟨h, ?_⟩
    rw [if_neg (not_not.2 (hready.2 h))]
    have hwork := hstart r.2
    have hwait := waitloop_left 100 ((start r.2).nandcmd Readstatus) (by
      rw [Flash.nandcmd, command_readstatus])
    have hsent : Left (start r.2) ((start r.2).nandcmd Readstatus) [Readstatus]
        (start r.2).chip.page (start r.2).chip.ops := by
      rw [Flash.nandcmd, command_readstatus]
      exact ⟨rfl, rfl, rfl, rfl, rfl⟩
    obtain ⟨b, hb, hkind⟩ := hcmds
    rw [hleft.page, hleft.ops] at hwork
    rw [hsent.page, hsent.ops, hwork.page, hwork.ops] at hwait
    refine ⟨_, ((hleft.trans hwork).trans hsent).trans hwait, b, ?_, hkind⟩
    simp [hb]
  · refine .inl ⟨h, ?_⟩
    rw [if_pos fun heq => h (hready.1 heq)]
    refine ⟨rfl, [Readstatus], ⟨hleft.size, hleft.region, hleft.cmds, hleft.page,
      hleft.ops⟩, fun b hb => List.eq_of_mem_singleton hb⟩

theorem write_spec (f : Flash i) (offset : BitVec 32) (buf : Bytes) (n : Int) :
    (Refuses f (.write offset buf n) ∧ (write nandecc f offset buf n).1 = -1 ∧
      Kept f (write nandecc f offset buf n).2) ∨
    (¬ Refuses f (.write offset buf n) ∧
      Worked f (write nandecc f offset buf n).2
        (started nandecc (.write offset buf n))) := by
  unfold write
  by_cases hn : n ≠ 2048
  · simp only [if_pos hn]
    exact .inl ⟨.inl hn, trivial, kept_refl f⟩
  · by_cases hoffset : offset &&& (2048 - 1) ≠ 0
    · simp only [if_neg hn, if_pos hoffset]
      exact .inl ⟨.inr (.inl hoffset), trivial, kept_refl f⟩
    · simp only [if_neg hn, if_neg hoffset]
      have hstart : ∀ g : Flash i, Left g
          (program g (offset >>> 11) buf (writeoob nandecc buf)) [Programstart, Program]
          ((started nandecc (.write offset buf n)).pages g.chip.page)
          (started nandecc (.write offset buf n) :: g.chip.ops) := by
        intro g
        rw [program_eq _ _ _ _ (pagenumber_offset offset)]
        exact ⟨rfl, rfl, rfl, rfl, rfl⟩
      obtain ⟨hready, hret, hkept⟩ | ⟨hready, hworked⟩ := ready_spec f _
        ⟨Program, List.mem_cons_of_mem _ (List.mem_singleton_self _), .inr (.inl rfl)⟩
        hstart
      · exact .inl ⟨.inr (.inr hready), hret, hkept⟩
      · exact .inr ⟨not_or.2 ⟨hn, not_or.2 ⟨hoffset, not_not.2 hready⟩⟩, hworked⟩

theorem erasezone_spec (f : Flash i) (offset : BitVec 32) :
    (Refuses f (.erasezone offset) ∧ (erasezone f offset).1 = -1 ∧
      Kept f (erasezone f offset).2) ∨
    (¬ Refuses f (.erasezone offset) ∧
      Worked f (erasezone f offset).2 (started nandecc (.erasezone offset))) := by
  unfold erasezone
  by_cases hoffset : offset &&& (128 * 1024 - 1) ≠ 0
  · simp only [if_pos hoffset]
    exact .inl ⟨.inl hoffset, trivial, kept_refl f⟩
  · simp only [if_neg hoffset]
    have hstart : ∀ g : Flash i, Left g (eraseblock g (offset >>> 11)) [Erasestart, Erase]
        ((started nandecc (.erasezone offset)).pages g.chip.page)
        (started nandecc (.erasezone offset) :: g.chip.ops) := by
      intro g
      rw [eraseblock_eq _ _ (pagenumber_offset offset)]
      exact ⟨rfl, rfl, rfl, rfl, rfl⟩
    obtain ⟨hready, hret, hkept⟩ | ⟨hready, hworked⟩ := ready_spec f _
      ⟨Erase, List.mem_cons_of_mem _ (List.mem_singleton_self _), .inr (.inr rfl)⟩ hstart
    · exact .inl ⟨.inr hready, hret, hkept⟩
    · exact .inr ⟨not_or.2 ⟨hoffset, not_not.2 hready⟩, hworked⟩

/-- Every call refuses, or starts its operation. -/
theorem perform_spec (f : Flash i) (c : Call) :
    (Refuses f c ∧ (perform nandecc nandecccorrect f c).1 = -1 ∧
      Kept f (perform nandecc nandecccorrect f c).2) ∨
    (¬ Refuses f c ∧
      Worked f (perform nandecc nandecccorrect f c).2 (started nandecc c)) := by
  cases c with
  | read offset buf n =>
      obtain ⟨hrefuse, hread⟩ | hworked := read_spec nandecc nandecccorrect f offset buf n
      · refine .inl ⟨hrefuse, ?_⟩
        unfold perform
        simp only [hread]
        exact ⟨trivial, kept_refl f⟩
      · exact .inr hworked
  | write offset buf n => exact write_spec nandecc f offset buf n
  | erasezone offset => exact erasezone_spec nandecc f offset

end

/-! ## The region of an accepted chip -/

/-- The sizes that the flash and its region have are those of the chip, and useful. -/
structure Accepted (f : Flash i) : Prop where
  size : f.size = BitVec.ofNat 32 (512 * 1024 * 1024)
  pagesize : f.region.pagesize = BitVec.ofNat 32 i.pagesize
  erasesize : f.region.erasesize = BitVec.ofNat 32 i.erasesize
  page : i.pagesize = 1024 ∨ i.pagesize = 2048
  erase : i.erasesize = 65536 ∨ i.erasesize = 131072 ∨ i.erasesize = 262144

theorem Accepted.left {f f' : Flash i} {cmds : List UInt8} {page : Nat → Page i}
    {ops : List Op} (h : Accepted f) (hleft : Left f f' cmds page ops) : Accepted f' where
  size := hleft.size.trans h.size
  pagesize := by rw [hleft.region, h.pagesize]
  erasesize := by rw [hleft.region, h.erasesize]
  page := h.page
  erase := h.erase

theorem Accepted.region_pagesize {f : Flash i} (h : Accepted f) :
    f.region.pagesize.toNat = i.pagesize := by
  have hpage := h.page
  rw [h.pagesize, BitVec.toNat_ofNat]
  exact Nat.mod_eq_of_lt (by omega)

theorem Accepted.region_erasesize {f : Flash i} (h : Accepted f) :
    f.region.erasesize.toNat = i.erasesize := by
  have herase := h.erase
  rw [h.erasesize, BitVec.toNat_ofNat]
  exact Nat.mod_eq_of_lt (by omega)

/-- The bytes of the identification, as `idchip` reads them. -/
theorem idchip_eq (f : Flash i) : ∃ g : Flash i,
    idchip f = idloop i.maker i.device i.id4 g nandtab := by
  unfold idchip
  have hid : ∀ g : Flash i, (g.nandcmd Readid).chip.cmd = Readid ∧
      (g.nandcmd Readid).chip.data = [i.maker, i.device, i.id3, i.id4] := by
    intro g
    rw [Flash.nandcmd, Chip.command, if_neg (by decide), if_pos rfl]
    exact ⟨rfl, rfl⟩
  have hne : Readid ≠ Readstatus := by decide
  simp only [Flash.nandaddr, Flash.nandread, (hid _).1, (hid _).2, if_neg hne,
    List.headD_cons, List.tail_cons]
  exact ⟨_, rfl⟩

/-- `idchip` records the geometry of the chip. -/
theorem idchip_accepted {f0 f : Flash i} (h : idchip f0 = (0, f))
    (hpage : f.region.pagesize ≠ 0) (herase : f.region.erasesize ≠ 0) : Accepted f := by
  obtain ⟨g, hg⟩ := idchip_eq f0
  rw [hg] at h
  have hentry : ∀ size : Nat, size = 512 * 1024 * 1024 → ∀ f1 : Flash i,
      f1.size = BitVec.ofNat 32 size →
      f1.region.pagesize = BitVec.ofNat 32 i.pagesize →
      f1.region.erasesize = BitVec.ofNat 32 i.erasesize → f1 = f → Accepted f := by
    rintro _ rfl f1 hsize hp he rfl
    have hp0 : i.pagesize ≠ 0 := by
      intro hzero
      rw [hp, hzero] at hpage
      exact hpage rfl
    have he0 : i.erasesize ≠ 0 := by
      intro hzero
      rw [he, hzero] at herase
      exact herase rfl
    exact ⟨hsize, hp, he, pagesize_cases i hp0, erasesize_cases i he0⟩
  have hnone : ((-1 : Int), g) ≠ (0, f) := by
    intro heq
    have hret : (-1 : Int) = 0 := congrArg Prod.fst heq
    exact absurd hret (by decide)
  simp only [nandtab, idloop] at h
  split at h
  · exact hentry _ rfl _ rfl rfl rfl (congrArg Prod.snd h)
  · split at h
    · exact hentry _ rfl _ rfl rfl rfl (congrArg Prod.snd h)
    · exact absurd h hnone

/-- A page offset of the region is a multiple of the size of a page. -/
theorem Accepted.aligned {f : Flash i} (h : Accepted f) {offset : BitVec 32}
    (haddr : offset &&& (f.region.pagesize - 1) = 0) : offset.toNat % i.pagesize = 0 := by
  rw [h.pagesize] at haddr
  obtain hpage | hpage := h.page
  · rw [hpage] at haddr ⊢
    exact (Mask.and_low_eq_zero offset (k := 10) (by decide)).1 haddr
  · rw [hpage] at haddr ⊢
    exact (Mask.and_low_eq_zero offset (k := 11) (by decide)).1 haddr

section
variable {nandecc : Bytes → BitVec 32}

/-- The page at a shift of eleven is the page at the offset in a chip with pages of 2048
bytes and 64 spare ones, and in no other is as much of a page to be read or written. -/
private theorem page_iff {f : Flash i} (h : Accepted f) {offset : BitVec 32} :
    (offset.toNat % i.pagesize = 0 ∧ offset.toNat / 2048 * i.pagesize = offset.toNat ∧
      2048 + 64 = i.pagesize + i.spare) ↔ offset.toNat % 2048 = 0 ∧ Standard i := by
  have hspare := spare_lt i
  unfold Standard
  obtain hpage | hpage := h.page
  · rw [hpage] at hspare ⊢
    omega
  · rw [hpage] at hspare ⊢
    omega

/-- The block of the page at a shift of eleven starts at the offset in a chip with pages of
2048 bytes, where the offset is one of a block, and else at offset 0 alone. -/
private theorem block_iff {f : Flash i} (h : Accepted f) {offset : BitVec 32} :
    offset.toNat / 2048 / i.rows * i.erasesize = offset.toNat ↔
      offset = 0 ∨ i.pagesize = 2048 ∧ i.erasesize ∣ offset.toNat := by
  have hzero : offset = 0 ↔ offset.toNat = 0 := by
    rw [← BitVec.toNat_inj]
    rfl
  rw [hzero, Nat.dvd_iff_mod_eq_zero]
  unfold Ident.rows
  obtain hpage | hpage := h.page
  · obtain herase | herase | herase := h.erase
    · rw [hpage, herase]
      omega
    · rw [hpage, herase]
      omega
    · rw [hpage, herase]
      omega
  · obtain herase | herase | herase := h.erase
    · rw [hpage, herase]
      omega
    · rw [hpage, herase]
      omega
    · rw [hpage, herase]
      omega

/-- The operation that a call starts is on what the call names if the geometry suits, and
only then. -/
theorem exact_iff {f : Flash i} (h : Accepted f) {c : Call} (hfits : c.Fits f.size)
    (hrefuse : ¬ Refuses f c) : Exact f.region i c (started nandecc c) ↔ Suits i c := by
  have hpage := h.region_pagesize
  cases c with
  | read offset buf n =>
      obtain ⟨-, haddr⟩ := not_or.1 hrefuse
      have halign := h.aligned (not_not.1 haddr)
      unfold Exact started Suits
      simp only [hpage]
      constructor
      · rintro ⟨hrow, -, hcount⟩
        exact ((page_iff h).1 ⟨halign, hrow, hcount⟩).2
      · intro hstd
        have hmod : offset.toNat % 2048 = 0 := by
          rw [← hstd.1]
          exact halign
        obtain ⟨-, hrow, hcount⟩ := (page_iff h).2 ⟨hmod, hstd⟩
        exact ⟨hrow, trivial, hcount⟩
  | write offset buf n =>
      obtain ⟨hn, hrest⟩ := not_or.1 hrefuse
      obtain ⟨haddr, -⟩ := not_or.1 hrest
      obtain rfl : n = 2048 := not_not.1 hn
      have hmod : offset.toNat % 2048 = 0 :=
        (Mask.and_low_eq_zero offset (k := 11) (by decide)).1 (not_not.1 haddr)
      have hbuf : buf.length = 2048 := hfits.2
      have htake : buf.take 2048 = buf := List.take_of_length_le (Nat.le_of_eq hbuf)
      have hoob : ((writeoob nandecc buf).take 64).length = 64 := by
        rw [List.length_take, KwNand.writeoob_length, Nat.min_self]
      have hlen : (buf.take 2048 ++ (writeoob nandecc buf).take 64).length = 2048 + 64 := by
        rw [List.length_append, htake, hbuf, hoob]
      unfold Exact started Suits
      simp only [hpage, hlen]
      constructor
      · rintro ⟨hrow, -, hcount, -⟩
        have hdiv : offset.toNat % i.pagesize = 0 := by
          rw [← hrow]
          exact Nat.mul_mod_left ..
        exact ((page_iff h).1 ⟨hdiv, hrow, hcount⟩).2
      · intro hstd
        obtain ⟨-, hrow, hcount⟩ := (page_iff h).2 ⟨hmod, hstd⟩
        refine ⟨hrow, trivial, hcount, ?_⟩
        rw [hstd.1, htake, List.take_append_of_le_length (Nat.le_of_eq hbuf.symm), htake]
  | erasezone offset =>
      have herase := h.region_erasesize
      unfold Exact started Suits
      simp only [herase]
      exact block_iff h

end

section
variable {nandecc : Bytes → BitVec 32}
variable {nandecccorrect :
  Bytes → BitVec 32 → BitVec 32 → Int → NandEccError × Bytes × BitVec 32}

private theorem Kept.unsent {f f' : Flash i} (h : Kept f f') : Unsent f f' := by
  obtain ⟨cmds, hleft, hcmds⟩ := h
  refine ⟨cmds, hleft.cmds, fun b hb => ?_⟩
  rw [hcmds b hb]
  decide

private theorem Worked.not_unsent {f f' : Flash i} {op : Op} (h : Worked f f' op) :
    ¬ Unsent f f' := by
  obtain ⟨cmds, hleft, b, hb, hkind⟩ := h
  rintro ⟨cmds', heq, hnone⟩
  obtain rfl : cmds = cmds' := List.append_cancel_right (hleft.cmds.symm.trans heq)
  obtain ⟨hread, hprogram, herase⟩ := hnone b hb
  obtain rfl | rfl | rfl := hkind
  · exact hread rfl
  · exact hprogram rfl
  · exact herase rfl

/-- A call is faithful where it refuses or the chip has the geometry it is made for, and
nowhere else. -/
theorem faithful_iff {f : Flash i} (h : Accepted f) {c : Call} (hfits : c.Fits f.size) :
    Faithful f c (perform nandecc nandecccorrect f c).1
      (perform nandecc nandecccorrect f c).2 ↔ Refuses f c ∨ Suits i c := by
  obtain ⟨hrefuse, hret, hkept⟩ | ⟨hrefuse, hworked⟩ :=
    perform_spec nandecc nandecccorrect f c
  · exact iff_of_true (.inl ⟨hret, hkept.unsent⟩) (.inl hrefuse)
  · rw [or_iff_right hrefuse, ← @exact_iff i nandecc f h c hfits hrefuse]
    unfold Faithful
    constructor
    · rintro (⟨-, hunsent⟩ | ⟨op, hops, hexact⟩)
      · exact absurd hunsent hworked.not_unsent
      · obtain ⟨cmds, hleft, -⟩ := hworked
        rw [hleft.ops] at hops
        rw [(List.cons.inj hops).1]
        exact hexact
    · intro hexact
      obtain ⟨cmds, hleft, -⟩ := hworked
      exact .inr ⟨_, hleft.ops, hexact⟩

theorem perform_accepted {f : Flash i} (h : Accepted f) (c : Call) :
    Accepted (perform nandecc nandecccorrect f c).2 := by
  obtain ⟨-, -, cmds, hleft, -⟩ | ⟨-, cmds, hleft, -⟩ :=
    perform_spec nandecc nandecccorrect f c
  · exact h.left hleft
  · exact h.left hleft

/-- The pages of the block at an offset. -/
private theorem same_block {f : Flash i} (h : Accepted f) {offset : BitVec 32}
    (hsuits : Suits i (.erasezone offset)) (row : Nat) :
    row / i.rows = offset.toNat / 2048 / i.rows ↔
      offset.toNat ≤ row * i.pagesize ∧
        row * i.pagesize < offset.toNat + i.erasesize := by
  have hblock : offset.toNat = 0 ∨ i.pagesize = 2048 ∧ offset.toNat % i.erasesize = 0 := by
    obtain rfl | ⟨hpage, hdvd⟩ := hsuits
    · exact .inl rfl
    · exact .inr ⟨hpage, Nat.mod_eq_zero_of_dvd hdvd⟩
  unfold Ident.rows
  obtain hpage | hpage := h.page
  · obtain herase | herase | herase := h.erase
    · rw [hpage, herase] at hblock ⊢
      omega
    · rw [hpage, herase] at hblock ⊢
      omega
    · rw [hpage, herase] at hblock ⊢
      omega
  · obtain herase | herase | herase := h.erase
    · rw [hpage, herase] at hblock ⊢
      omega
    · rw [hpage, herase] at hblock ⊢
      omega
    · rw [hpage, herase] at hblock ⊢
      omega

/-- A call of the right geometry leaves the page that it spares. -/
theorem perform_spares {f : Flash i} (h : Accepted f) {c : Call} {offset : BitVec 32}
    (hstd : Standard i) (halign : offset.toNat % 2048 = 0)
    (hok : Refuses f c ∨ Suits i c) (hspares : c.Spares i offset) :
    (perform nandecc nandecccorrect f c).2.chip.page (offset.toNat / 2048) =
      f.chip.page (offset.toNat / 2048) := by
  obtain ⟨-, -, cmds, hleft, -⟩ | ⟨hrefuse, cmds, hleft, -⟩ :=
    perform_spec nandecc nandecccorrect f c
  · rw [hleft.page]
  · rw [hleft.page]
    cases c with
    | read offset' buf n => rfl
    | write offset' buf n =>
        obtain ⟨-, hrest⟩ := not_or.1 hrefuse
        obtain ⟨haddr, -⟩ := not_or.1 hrest
        have halign' : offset'.toNat % 2048 = 0 :=
          (Mask.and_low_eq_zero offset' (k := 11) (by decide)).1 (not_not.1 haddr)
        have hne : offset'.toNat ≠ offset.toNat := fun heq =>
          hspares (BitVec.eq_of_toNat_eq heq)
        exact Function.update_of_ne (by omega) ..
    | erasezone offset' =>
        have hblock := same_block h (hok.resolve_left hrefuse) (offset.toNat / 2048)
        have hrow : offset.toNat / 2048 * i.pagesize = offset.toNat := by
          rw [hstd.1]
          omega
        rw [hrow] at hblock
        exact if_neg fun heq => hspares (hblock.1 heq)

/-- The page at an offset has each bit set that the data and its codes have. -/
def TakesAt (page : Nat → Page i) (offset : BitVec 32) (data : Bytes) : Prop :=
  ∀ row, row * i.pagesize = offset.toNat → Takes (page row).val data

/-- A `write` that succeeds leaves the data and its codes in a page that takes them. -/
theorem write_stored {f : Flash i} {offset : BitVec 32} {buf : Bytes} {n : Int}
    (hstd : Standard i) (hbuf : buf.length = n.toNat)
    (htakes : TakesAt f.chip.page offset (buf ++ writeoob nandecc buf))
    (h : (write nandecc f offset buf n).1 = 0) :
    offset.toNat % 2048 = 0 ∧ n = 2048 ∧
      ((write nandecc f offset buf n).2.chip.page (offset.toNat / 2048)).val =
        buf ++ writeoob nandecc buf := by
  obtain ⟨-, hret, -⟩ | ⟨hrefuse, cmds, hleft, -⟩ := write_spec nandecc f offset buf n
  · rw [hret] at h
    exact absurd h (by decide)
  · obtain ⟨hn, hrest⟩ := not_or.1 hrefuse
    obtain ⟨haddr, -⟩ := not_or.1 hrest
    obtain rfl : n = 2048 := not_not.1 hn
    have halign : offset.toNat % 2048 = 0 :=
      (Mask.and_low_eq_zero offset (k := 11) (by decide)).1 (not_not.1 haddr)
    refine ⟨halign, rfl, ?_⟩
    have hlen : buf.length = 2048 := hbuf
    have hoob := @KwNand.writeoob_length nandecc buf
    have hrow : offset.toNat / 2048 * i.pagesize = offset.toNat := by
      rw [hstd.1]
      omega
    rw [hleft.page]
    simp only [started, Op.pages, Function.update_self, Page.program]
    rw [List.take_of_length_le (Nat.le_of_eq hlen),
      List.take_of_length_le (Nat.le_of_eq hoob)]
    exact (htakes _ hrow).cleared

/-- What `read` gives of a page that was written. -/
theorem read_written (hecc : EccOk nandecc nandecccorrect) {f : Flash i} (h : Accepted f)
    (hstd : Standard i) {offset : BitVec 32} {buf : Bytes}
    (halign : offset.toNat % 2048 = 0) (hbuf : buf.length = 2048)
    (hpage : (f.chip.page (offset.toNat / 2048)).val = buf ++ writeoob nandecc buf)
    (buf0 : Bytes) :
    ∃ f', read nandecc nandecccorrect f offset buf0 2048 = (0, buf, f') := by
  have haddr : offset &&& (f.region.pagesize - 1) = 0 := by
    rw [h.pagesize, hstd.1]
    exact (Mask.and_low_eq_zero offset (k := 11) (by decide)).2 halign
  have hrefuse : ¬ Refuses f (.read offset buf0 2048) :=
    not_or.2 ⟨not_not.2 rfl, not_not.2 haddr⟩
  obtain ⟨g, ⟨hcmd, hleft, hdata⟩, hread⟩ := read_eq nandecc nandecccorrect f hrefuse
  rw [hpage] at hdata
  have hoob := @KwNand.writeoob_length nandecc buf
  have hlen : (buf ++ writeoob nandecc buf).length = 2048 + 64 := by
    rw [List.length_append, hbuf, hoob]
  obtain ⟨-, hparts⟩ := nandreadn_twice g 2048 64 hcmd hleft.ops
  rw [hdata] at hparts
  obtain ⟨hfirst, hsecond⟩ := hparts (Nat.le_of_eq hlen.symm)
  have hcheck := KwNand.checkloop_written hecc hbuf hlen fun i _ => .inl rfl
  rw [hfirst, hsecond, hcheck] at hread
  exact ⟨_, hread⟩

/-- Calls of the right geometry keep the flash accepted, and the page that they
spare. -/
theorem run_spares {offset : BitVec 32} (hstd : Standard i)
    (halign : offset.toNat % 2048 = 0) {f f' : Flash i} (cs : List Call) (h : Accepted f)
    (hrun : run (step nandecc nandecccorrect) f cs = some f')
    (hok : AllSteps (step nandecc nandecccorrect)
      (fun f c => (Refuses f c ∨ Suits i c) ∧ c.Spares i offset) f cs) :
    Accepted f' ∧ f'.chip.page (offset.toNat / 2048) =
      f.chip.page (offset.toNat / 2048) := by
  induction cs generalizing f with
  | nil =>
      cases hrun
      exact ⟨h, rfl⟩
  | cons c cs ih =>
      have hstep : step nandecc nandecccorrect f c =
        some (perform nandecc nandecccorrect f c).2 := rfl
      rw [run_cons cs hstep] at hrun
      simp only [AllSteps, hstep] at hok
      obtain ⟨⟨hgeometry, hspares⟩, hrest⟩ := hok
      obtain ⟨hkeep, hpage⟩ := ih (perform_accepted h c) hrun hrest
      exact ⟨hkeep, hpage.trans (perform_spares h hstd halign hgeometry hspares)⟩

theorem run_accepted {f f' : Flash i} (cs : List Call) (h : Accepted f)
    (hrun : run (step nandecc nandecccorrect) f cs = some f') : Accepted f' := by
  have hstart : Reach (step nandecc nandecccorrect) Free Accepted f := .start h
  refine (Reach.of_run_free cs hstart hrun).invariant (fun _ h => h) ?_
  rintro s c s' h - ⟨⟩
  exact perform_accepted h c

/-- After a `write` that succeeds, to a page that takes the data, and any calls of the right
geometry that spare the page, `read` gives what was written. -/
theorem read_last (hecc : EccOk nandecc nandecccorrect) {f f' : Flash i} (h : Accepted f)
    {offset : BitVec 32} {buf : Bytes} {n : Int}
    (hfits : (Call.write offset buf n).Fits f.size)
    (htakes : TakesAt f.chip.page offset (buf ++ writeoob nandecc buf))
    (hwrite : (write nandecc f offset buf n).1 = 0)
    (hgeometry : Refuses f (.write offset buf n) ∨ Suits i (.write offset buf n))
    (cs : List Call)
    (hrun : run (step nandecc nandecccorrect) (write nandecc f offset buf n).2 cs = some f')
    (hok : AllSteps (step nandecc nandecccorrect)
      (fun f c => (Refuses f c ∨ Suits i c) ∧ c.Spares i offset)
      (write nandecc f offset buf n).2 cs) (buf0 : Bytes) :
    ∃ f'', read nandecc nandecccorrect f' offset buf0 n = (0, buf, f'') := by
  have hstd : Standard i := by
    obtain ⟨-, hret, -⟩ | ⟨hrefuse, -⟩ := write_spec nandecc f offset buf n
    · rw [hret] at hwrite
      exact absurd hwrite (by decide)
    · exact hgeometry.resolve_left hrefuse
  obtain ⟨halign, rfl, hpage⟩ := write_stored hstd hfits.2 htakes hwrite
  have hkeep : Accepted (write nandecc f offset buf 2048).2 :=
    @perform_accepted i nandecc nandecccorrect f h (.write offset buf 2048)
  obtain ⟨hkeep', hsame⟩ := run_spares hstd halign cs hkeep hrun hok
  exact read_written hecc hkeep' hstd halign hfits.2 (by rw [hsame, hpage]) buf0

/-- `erasezone` of the right geometry, unless it refuses, erases the pages of the block at
the offset, and no other. -/
theorem erasezone_pages {f : Flash i} (h : Accepted f) {offset : BitVec 32}
    (hrefuse : ¬ Refuses f (.erasezone offset)) (hsuits : Suits i (.erasezone offset))
    (row : Nat) :
    (erasezone f offset).2.chip.page row =
      if offset.toNat ≤ row * i.pagesize ∧
          row * i.pagesize < offset.toNat + i.erasesize then Page.blank i
      else f.chip.page row := by
  obtain ⟨hcontra, -⟩ | ⟨-, cmds, hleft, -⟩ := erasezone_spec (fun _ => 0) f offset
  · exact absurd hcontra hrefuse
  · rw [hleft.page]
    exact if_congr (same_block h hsuits row) rfl rfl

/-! ## Every accepted chip -/

/-- For every chip that `idchip` accepts with sizes that are not zero, and after whatever
calls.  A call below the size refuses, or works on exactly the page or block at its offset,
if and only if a check refuses it, or the pages have 2048 bytes and 64 spare ones, or the
block to erase is the first or starts at the offset in a chip with pages of 2048 bytes.
Where all calls are so, a page is read as it was last written, if no bit that was to be set
had been cleared since its block was erased, and exactly the block named is erased. -/
theorem addressing_faithful_iff (hecc : EccOk nandecc nandecccorrect) {f0 f g : Flash i}
    (hid : idchip f0 = (0, f)) (hpage : f.region.pagesize ≠ 0)
    (herase : f.region.erasesize ≠ 0) (before : List Call)
    (hbefore : run (step nandecc nandecccorrect) f before = some g) :
    (∀ c : Call, c.Fits g.size →
      (Faithful g c (perform nandecc nandecccorrect g c).1
        (perform nandecc nandecccorrect g c).2 ↔ Refuses g c ∨ Suits i c)) ∧
    (∀ (offset : BitVec 32) (buf : Bytes) (n : Int),
      (Call.write offset buf n).Fits g.size →
      TakesAt g.chip.page offset (buf ++ writeoob nandecc buf) →
      (write nandecc g offset buf n).1 = 0 →
      (Refuses g (.write offset buf n) ∨ Suits i (.write offset buf n)) →
      ∀ (cs : List Call) (g' : Flash i),
        run (step nandecc nandecccorrect) (write nandecc g offset buf n).2 cs = some g' →
        AllSteps (step nandecc nandecccorrect)
          (fun f c => (Refuses f c ∨ Suits i c) ∧ c.Spares i offset)
          (write nandecc g offset buf n).2 cs →
        ∀ buf0, ∃ g'', read nandecc nandecccorrect g' offset buf0 n = (0, buf, g'')) ∧
    ∀ offset : BitVec 32, ¬ Refuses g (.erasezone offset) → Suits i (.erasezone offset) →
      ∀ row, (erasezone g offset).2.chip.page row =
        if offset.toNat ≤ row * i.pagesize ∧
            row * i.pagesize < offset.toNat + i.erasesize then Page.blank i
        else g.chip.page row := by
  have hkeep : Accepted g :=
    run_accepted before (idchip_accepted hid hpage herase) hbefore
  refine ⟨fun c hfits => faithful_iff hkeep hfits, ?_, ?_⟩
  · intro offset buf n hfits htakes hwrite hgeometry cs g' hrun hok buf0
    exact read_last hecc hkeep hfits htakes hwrite hgeometry cs hrun hok buf0
  · intro offset hrefuse hsuits row
    exact erasezone_pages hkeep hrefuse hsuits row

end

/-! ## Two chips -/

/-- A chip as it comes, always ready. -/
def fresh (i : Ident) : Flash i where
  id := 0
  devid := 0
  width := 0
  nr := 0
  size := 0
  region := ⟨0, 0, 0, 0, 0⟩
  ctl := 0
  chip := {
    page := fun _ => Page.blank i
    cmd := 0
    addr := []
    data := []
    status := fun _ => SIdle ||| SReady
    cmds := []
    ops := [] }

/-- The chip of the board. -/
def hynix : Ident := ⟨0xad, 0xdc, 0x80, 0x95⟩

/-- One with pages of 1024 bytes. -/
def smallpaged : Ident := ⟨0xad, 0xdc, 0x80, 0x94⟩

private theorem hynix_suits (f : Flash hynix) (c : Call) : Refuses f c ∨ Suits hynix c := by
  have hstd : Standard hynix := by
    unfold Standard
    decide
  have herase : hynix.erasesize = 2 ^ 17 := by decide
  cases c with
  | read offset buf n => exact .inr hstd
  | write offset buf n => exact .inr hstd
  | erasezone offset =>
      by_cases haddr : offset &&& (128 * 1024 - 1) = 0
      · refine .inr (.inr ⟨hstd.1, ?_⟩)
        rw [herase]
        exact Nat.dvd_of_mod_eq_zero
          ((Mask.and_low_eq_zero offset (k := 17) (by decide)).1 haddr)
      · exact .inl (.inl haddr)

/-- The pages of the chip take whatever is written to them. -/
private theorem hynix_takes (offset : BitVec 32) {data : Bytes}
    (h : data.length = 2048 + 64) :
    TakesAt (idchip (fresh hynix)).2.chip.page offset data := by
  intro row _
  have hpage : ((idchip (fresh hynix)).2.chip.page row).val =
      List.replicate data.length 0xff := by
    rw [h]
    rfl
  rw [hpage]
  exact takes_blank data

/-- The chip of the board is accepted, every call is faithful on it, and a page that is
written is read back. -/
theorem hynix_faithful : (idchip (fresh hynix)).1 = 0 ∧
    (∀ c : Call, c.Fits (idchip (fresh hynix)).2.size →
      Faithful (idchip (fresh hynix)).2 c
        (perform parityecc paritycorrect (idchip (fresh hynix)).2 c).1
        (perform parityecc paritycorrect (idchip (fresh hynix)).2 c).2) ∧
    ∀ (offset : BitVec 32) (buf : Bytes), offset < (idchip (fresh hynix)).2.size →
      buf.length = 2048 →
      (write parityecc (idchip (fresh hynix)).2 offset buf 2048).1 = 0 →
      ∀ buf0, ∃ f, read parityecc paritycorrect
        (write parityecc (idchip (fresh hynix)).2 offset buf 2048).2 offset buf0 2048 =
          (0, buf, f) := by
  have hid : idchip (fresh hynix) = (0, (idchip (fresh hynix)).2) := by rfl
  obtain ⟨hiff, hback, -⟩ :=
    addressing_faithful_iff KwNand.parity_ok hid (by decide) (by decide) [] rfl
  refine ⟨rfl, fun c hfits => (hiff c hfits).2 (hynix_suits _ c), ?_⟩
  intro offset buf hoffset hbuf hwrite
  have hlen : (buf ++ writeoob parityecc buf).length = 2048 + 64 := by
    rw [List.length_append, KwNand.writeoob_length, hbuf]
  exact hback offset buf 2048 ⟨hoffset, hbuf⟩ (hynix_takes offset hlen) hwrite
    (hynix_suits _ _) [] _ rfl trivial

/-- On a chip with pages of 1024 bytes, `erasezone` at the second block erases the
first. -/
theorem smallpaged_unfaithful :
    ¬ ∀ (i : Ident) (f0 f : Flash i), idchip f0 = (0, f) → f.region.pagesize ≠ 0 →
      f.region.erasesize ≠ 0 → ∀ c : Call, c.Fits f.size →
        Faithful f c (perform parityecc paritycorrect f c).1
          (perform parityecc paritycorrect f c).2 := by
  intro h
  have hid : idchip (fresh smallpaged) = (0, (idchip (fresh smallpaged)).2) := by rfl
  have hkeep := idchip_accepted hid (by decide) (by decide)
  have hfits : (Call.erasezone (128 * 1024)).Fits (idchip (fresh smallpaged)).2.size := by
    unfold Call.Fits
    decide
  obtain hrefuse | hsuits := (faithful_iff hkeep hfits).1
    (h _ _ _ hid (by decide) (by decide) _ hfits)
  · obtain haddr | hready := hrefuse
    · exact haddr (by decide)
    · exact hready rfl
  · obtain hzero | ⟨hpage, -⟩ := hsuits
    · exact absurd hzero (by decide)
    · exact absurd hpage (by decide)

end

end Kirkwood.Ports.NandGeometry
