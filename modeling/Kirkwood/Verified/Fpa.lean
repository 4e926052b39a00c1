import Kirkwood.Verified.Arm
import Kirkwood.Verified.Fields

/-!
# The instructions of the FPA

The floating-point coprocessor of the early ARMs: what its instructions are, and which bits
of a word make each of them.

## Main results

* `decode_eq_some_iff`: a word is decoded to an instruction exactly when it has the bits of
  its `template`;
* `decode_encode`: every instruction is decoded from its word, under any condition.
-/

namespace Kirkwood.Verified.Fpa

open Kirkwood.Verified.Arm (Word)
open Kirkwood.Verified.Fields

/-! ## Instructions -/

/-- `Fm`, a register or one of eight constants. -/
inductive Operand where
  | reg (f : BitVec 3)
  | const (c : BitVec 3)
  deriving DecidableEq, Repr

structure Address where
  base : BitVec 4
  pre : Bool
  up : Bool
  writeback : Bool
  offset : BitVec 8
  deriving DecidableEq, Repr

/-- A register other than the program counter. -/
structure Dest where
  reg : BitVec 4
  ne_pc : reg ≠ 15#4
  deriving DecidableEq, Repr

inductive Insn where
  | load (long : Bool) (fd : BitVec 3) (a : Address)
  | store (long : Bool) (fd : BitVec 3) (a : Address)
  | compare (negated exception : Bool) (fn : BitVec 3) (fm : Operand)
  | flt (fn : BitVec 3) (rd : BitVec 4)
  | fix (rd : Dest) (fm : BitVec 3)
  | wfs (rd : BitVec 4)
  | rfs (rd : Dest)
  | wfc (rd : BitVec 4)
  | rfc (rd : Dest)
  | dyadic (op : BitVec 4) (fd fn : BitVec 3) (fm : Operand)
  | monadic (op : BitVec 4) (fd : BitVec 3) (fm : Operand)
  deriving DecidableEq, Repr

/-! ## Their bits -/

def Operand.code : Operand → Nat
  | .reg f => f.toNat
  | .const c => 8 + c.toNat

/-- A transfer between a register and memory, `LDF` where bit 20 is set. -/
def transferTemplate (isLoad : Bool) (long : Bool) (fd : BitVec 3) (a : Address) :
    List Field :=
  [⟨a.offset.toNat, 0, 8⟩, ⟨1, 8, 4⟩, ⟨fd.toNat, 12, 3⟩, ⟨long.toNat, 15, 1⟩,
    ⟨a.base.toNat, 16, 4⟩, ⟨isLoad.toNat, 20, 1⟩, ⟨a.writeback.toNat, 21, 1⟩, ⟨0, 22, 1⟩,
    ⟨a.up.toNat, 23, 1⟩, ⟨a.pre.toNat, 24, 1⟩, ⟨6, 25, 3⟩]

/-- A transfer from a register of the processor to the coprocessor, or back. -/
def moveTemplate (op rd : Nat) : List Field :=
  [⟨1, 4, 1⟩, ⟨1, 8, 4⟩, ⟨rd, 12, 4⟩, ⟨op, 20, 4⟩, ⟨0xE, 24, 4⟩]

/-- The fields of an instruction, from bit 0 on.  Bits in none of them may have any
value. -/
def Insn.template : Insn → List Field
  | .load long fd a => transferTemplate true long fd a
  | .store long fd a => transferTemplate false long fd a
  | .compare negated exception fn fm =>
      [⟨fm.code, 0, 4⟩, ⟨1, 4, 1⟩, ⟨1, 8, 4⟩, ⟨15, 12, 4⟩, ⟨fn.toNat, 16, 3⟩, ⟨1, 20, 1⟩,
        ⟨negated.toNat, 21, 1⟩, ⟨exception.toNat, 22, 1⟩, ⟨1, 23, 1⟩, ⟨0xE, 24, 4⟩]
  | .flt fn rd =>
      [⟨1, 4, 1⟩, ⟨1, 8, 4⟩, ⟨rd.toNat, 12, 4⟩, ⟨fn.toNat, 16, 3⟩, ⟨0, 20, 4⟩, ⟨0xE, 24, 4⟩]
  | .fix rd fm =>
      [⟨fm.toNat, 0, 3⟩, ⟨0, 3, 1⟩, ⟨1, 4, 1⟩, ⟨1, 8, 4⟩, ⟨rd.reg.toNat, 12, 4⟩, ⟨1, 20, 4⟩,
        ⟨0xE, 24, 4⟩]
  | .wfs rd => moveTemplate 2 rd.toNat
  | .rfs rd => moveTemplate 3 rd.reg.toNat
  | .wfc rd => moveTemplate 4 rd.toNat
  | .rfc rd => moveTemplate 5 rd.reg.toNat
  | .dyadic op fd fn fm =>
      [⟨fm.code, 0, 4⟩, ⟨0, 4, 1⟩, ⟨1, 8, 4⟩, ⟨fd.toNat, 12, 3⟩, ⟨0, 15, 1⟩,
        ⟨fn.toNat, 16, 3⟩, ⟨op.toNat, 20, 4⟩, ⟨0xE, 24, 4⟩]
  | .monadic op fd fm =>
      [⟨fm.code, 0, 4⟩, ⟨0, 4, 1⟩, ⟨1, 8, 4⟩, ⟨fd.toNat, 12, 3⟩, ⟨1, 15, 1⟩,
        ⟨op.toNat, 20, 4⟩, ⟨0xE, 24, 4⟩]

/-- The word has the bits of the instruction. -/
def Matches (op : Word) (i : Insn) : Prop :=
  ∀ f ∈ i.template, field op.toNat f.place f.width = f.value

instance (op : Word) (i : Insn) : Decidable (Matches op i) :=
  inferInstanceAs (Decidable (∀ f ∈ i.template, _))

/-! ## Decoding -/

def flag (op : Word) (o : Nat) : Bool := field op.toNat o 1 == 1

def operand (op : Word) : Operand :=
  if flag op 3 then .const (op.extractLsb' 0 3) else .reg (op.extractLsb' 0 3)

def address (op : Word) : Address where
  base := op.extractLsb' 16 4
  pre := flag op 24
  up := flag op 23
  writeback := flag op 21
  offset := op.extractLsb' 0 8

def decodeTransfer (op : Word) : Option Insn :=
  if flag op 22 then none
  else if flag op 20 then some (.load (flag op 15) (op.extractLsb' 12 3) (address op))
  else some (.store (flag op 15) (op.extractLsb' 12 3) (address op))

def dest (op : Word) : Option Dest :=
  if h : op.extractLsb' 12 4 = 15#4 then none else some ⟨op.extractLsb' 12 4, h⟩

/-- What would write the program counter is a comparison instead. -/
def decodeMove (op : Word) : Option Insn :=
  match field op.toNat 20 4 with
  | 0 => some (.flt (op.extractLsb' 16 3) (op.extractLsb' 12 4))
  | 1 => if flag op 3 then none else (dest op).map fun rd => .fix rd (op.extractLsb' 0 3)
  | 2 => some (.wfs (op.extractLsb' 12 4))
  | 3 => (dest op).map .rfs
  | 4 => some (.wfc (op.extractLsb' 12 4))
  | 5 => (dest op).map .rfc
  | _ =>
      if op.extractLsb' 12 4 = 15#4 ∧ flag op 20 ∧ flag op 23 then
        some (.compare (flag op 21) (flag op 22) (op.extractLsb' 16 3) (operand op))
      else none

def decodeArith (op : Word) : Insn :=
  if flag op 15 then .monadic (op.extractLsb' 20 4) (op.extractLsb' 12 3) (operand op)
  else
    .dyadic (op.extractLsb' 20 4) (op.extractLsb' 12 3) (op.extractLsb' 16 3) (operand op)

def decode (op : Word) : Option Insn :=
  if field op.toNat 8 4 = 1 then
    if field op.toNat 25 3 = 6 then decodeTransfer op
    else if field op.toNat 24 4 = 0xE then
      if flag op 4 then decodeMove op else some (decodeArith op)
    else none
  else none

section
variable {op : Word} {i : Insn} {o w : Nat}

theorem flag_eq {b : Bool} : flag op o = b ↔ field op.toNat o 1 = b.toNat := by
  have hlt := field_lt op.toNat o 1
  unfold flag
  cases b with
  | false =>
      rw [beq_eq_false_iff_ne]
      show _ ↔ _ = 0
      omega
  | true => exact beq_iff_eq

theorem extract_eq {x : BitVec w} :
    op.extractLsb' o w = x ↔ field op.toNat o w = x.toNat := by
  rw [← BitVec.toNat_inj, BitVec.extractLsb'_toNat, Nat.shiftRight_eq_div_pow]
  rfl

theorem operand_code : (operand op).code = field op.toNat 0 4 := by
  have happend : field op.toNat 0 4 = field op.toNat 0 3 + field op.toNat 3 1 * 2 ^ 3 :=
    field_append op.toNat 0 3 1
  have hlow : (op.extractLsb' 0 3).toNat = field op.toNat 0 3 := (extract_eq.1 rfl).symm
  unfold operand
  by_cases hflag : flag op 3 = true
  · have hfield := flag_eq.1 hflag
    rw [Bool.toNat_true] at hfield
    rw [if_pos hflag, Operand.code, hlow, happend, hfield]
    omega
  · have hfield := flag_eq.1 (Bool.eq_false_iff.2 hflag)
    rw [Bool.toNat_false] at hfield
    rw [if_neg hflag, Operand.code, hlow, happend, hfield]
    omega

theorem Operand.code_inj {m n : Operand} (h : m.code = n.code) : m = n := by
  cases m with
  | reg f =>
      have hf := f.isLt
      cases n with
      | reg g => rw [BitVec.eq_of_toNat_eq (show f.toNat = g.toNat from h)]
      | const c =>
          simp only [Operand.code] at h
          omega
  | const c =>
      have hc := c.isLt
      cases n with
      | reg g =>
          have hg := g.isLt
          simp only [Operand.code] at h
          omega
      | const d =>
          simp only [Operand.code, Nat.add_left_cancel_iff] at h
          rw [BitVec.eq_of_toNat_eq h]

theorem operand_eq {m : Operand} : operand op = m ↔ field op.toNat 0 4 = m.code := by
  rw [← operand_code]
  exact ⟨fun h => h ▸ rfl, Operand.code_inj⟩

theorem address_eq {a : Address} : address op = a ↔
    field op.toNat 16 4 = a.base.toNat ∧ field op.toNat 24 1 = a.pre.toNat ∧
      field op.toNat 23 1 = a.up.toNat ∧ field op.toNat 21 1 = a.writeback.toNat ∧
      field op.toNat 0 8 = a.offset.toNat := by
  obtain ⟨base, pre, up, writeback, offset⟩ := a
  rw [← extract_eq, ← flag_eq, ← flag_eq, ← flag_eq, ← extract_eq]
  exact Iff.of_eq (Address.mk.injEq ..)

theorem toNat_flag : (flag op o).toNat = field op.toNat o 1 := (flag_eq.1 rfl).symm

theorem toNat_extract : (op.extractLsb' o w).toNat = field op.toNat o w :=
  (extract_eq.1 rfl).symm

/-- The fields of a template, one by one. -/
theorem matches_iff {fs : List Field} (h : i.template = fs) :
    Matches op i ↔ fs.Forall fun f => field op.toNat f.place f.width = f.value := by
  rw [List.forall_iff_forall_mem, ← h]
  rfl

/-- The bits of a decoded transfer. -/
theorem decodeTransfer_matches (hcp : field op.toNat 8 4 = 1)
    (hop : field op.toNat 25 3 = 6) (h : decodeTransfer op = some i) : Matches op i := by
  unfold decodeTransfer at h
  split at h
  · cases h
  next hpacked =>
  have hpacked := flag_eq.1 (Bool.eq_false_iff.2 hpacked)
  split at h
  · next hload =>
      cases h
      exact (matches_iff rfl).2 ⟨toNat_extract.symm, hcp, toNat_extract.symm,
        toNat_flag.symm, toNat_extract.symm, flag_eq.1 hload, toNat_flag.symm, hpacked,
        toNat_flag.symm, toNat_flag.symm, hop⟩
  · next hstore =>
      cases h
      exact (matches_iff rfl).2 ⟨toNat_extract.symm, hcp, toNat_extract.symm,
        toNat_flag.symm, toNat_extract.symm, flag_eq.1 (Bool.eq_false_iff.2 hstore),
        toNat_flag.symm, hpacked, toNat_flag.symm, toNat_flag.symm, hop⟩

/-- The four bits of a transfer to or from the processor, one by one. -/
theorem field_bits (op : Word) : field op.toNat 20 4 = field op.toNat 20 1 +
    2 * field op.toNat 21 1 + 4 * field op.toNat 22 1 + 8 * field op.toNat 23 1 := by
  rw [field_append op.toNat 20 1 3, field_append op.toNat 21 1 2,
    field_append op.toNat 22 1 1]
  ring

theorem dest_eq {rd : Dest} : dest op = some rd ↔ field op.toNat 12 4 = rd.reg.toNat := by
  rw [← extract_eq]
  unfold dest
  constructor
  · intro h
    split at h
    · cases h
    · cases h
      rfl
  · intro h
    have hne : op.extractLsb' 12 4 ≠ 15#4 := h ▸ rd.ne_pc
    rw [dif_neg hne, Option.some.injEq]
    obtain ⟨r, hr⟩ := rd
    cases h
    rfl

theorem decodeMove_matches (hcp : field op.toNat 8 4 = 1) (hop : field op.toNat 24 4 = 0xE)
    (hmove : field op.toNat 4 1 = 1) (h : decodeMove op = some i) : Matches op i := by
  unfold decodeMove at h
  split at h
  · next hcode =>
      cases h
      exact (matches_iff rfl).2 ⟨hmove, hcp, toNat_extract.symm, toNat_extract.symm, hcode,
        hop⟩
  · next hcode =>
      split at h
      · cases h
      next hconst =>
      obtain ⟨rd, hrd, rfl⟩ := Option.map_eq_some_iff.1 h
      exact (matches_iff rfl).2 ⟨toNat_extract.symm, flag_eq.1 (Bool.eq_false_iff.2 hconst),
        hmove, hcp, dest_eq.1 hrd, hcode, hop⟩
  · next hcode =>
      cases h
      exact (matches_iff rfl).2 ⟨hmove, hcp, toNat_extract.symm, hcode, hop⟩
  · next hcode =>
      obtain ⟨rd, hrd, rfl⟩ := Option.map_eq_some_iff.1 h
      exact (matches_iff rfl).2 ⟨hmove, hcp, dest_eq.1 hrd, hcode, hop⟩
  · next hcode =>
      cases h
      exact (matches_iff rfl).2 ⟨hmove, hcp, toNat_extract.symm, hcode, hop⟩
  · next hcode =>
      obtain ⟨rd, hrd, rfl⟩ := Option.map_eq_some_iff.1 h
      exact (matches_iff rfl).2 ⟨hmove, hcp, dest_eq.1 hrd, hcode, hop⟩
  · split at h
    · next hcmp =>
        cases h
        obtain ⟨hpc, hread, hcmp⟩ := hcmp
        exact (matches_iff rfl).2 ⟨operand_code.symm, hmove, hcp, extract_eq.1 hpc,
          toNat_extract.symm, flag_eq.1 hread, toNat_flag.symm, toNat_flag.symm,
          flag_eq.1 hcmp, hop⟩
    · cases h

theorem decodeArith_matches (hcp : field op.toNat 8 4 = 1) (hop : field op.toNat 24 4 = 0xE)
    (hmove : field op.toNat 4 1 = 0) : Matches op (decodeArith op) := by
  unfold decodeArith
  split
  · next hmonadic =>
      exact (matches_iff rfl).2 ⟨operand_code.symm, hmove, hcp, toNat_extract.symm,
        flag_eq.1 hmonadic, toNat_extract.symm, hop⟩
  · next hdyadic =>
      exact (matches_iff rfl).2 ⟨operand_code.symm, hmove, hcp, toNat_extract.symm,
        flag_eq.1 (Bool.eq_false_iff.2 hdyadic), toNat_extract.symm, toNat_extract.symm,
        hop⟩

theorem decode_transfer (hcp : field op.toNat 8 4 = 1) (hop : field op.toNat 25 3 = 6) :
    decode op = decodeTransfer op := by
  unfold decode
  rw [if_pos hcp, if_pos hop]

/-- Bits 25 to 27 are all set. -/
theorem field_cprt (hop : field op.toNat 24 4 = 0xE) : field op.toNat 25 3 ≠ 6 := by
  have happend : field op.toNat 24 4 = field op.toNat 24 1 + field op.toNat 25 3 * 2 ^ 1 :=
    field_append op.toNat 24 1 3
  have hbit := field_lt op.toNat 24 1
  omega

theorem decode_move (hcp : field op.toNat 8 4 = 1) (hop : field op.toNat 24 4 = 0xE)
    (hmove : field op.toNat 4 1 = 1) : decode op = decodeMove op := by
  unfold decode
  rw [if_pos hcp, if_neg (field_cprt hop), if_pos hop, if_pos (flag_eq.2 hmove)]

theorem decode_arith (hcp : field op.toNat 8 4 = 1) (hop : field op.toNat 24 4 = 0xE)
    (hmove : field op.toNat 4 1 = 0) : decode op = some (decodeArith op) := by
  have hflag : flag op 4 = false := flag_eq.2 hmove
  unfold decode
  rw [if_pos hcp, if_neg (field_cprt hop), if_pos hop, hflag, if_neg Bool.false_ne_true]

theorem decode_matches (h : decode op = some i) : Matches op i := by
  unfold decode at h
  split at h
  · next hcp =>
      split at h
      · next hop => exact decodeTransfer_matches hcp hop h
      · split at h
        · next hop =>
            split at h
            · next hmove => exact decodeMove_matches hcp hop (flag_eq.1 hmove) h
            · next hmove =>
                cases h
                exact decodeArith_matches hcp hop (flag_eq.1 (Bool.eq_false_iff.2 hmove))
        · cases h
  · cases h

/-- Codes from 8 on are those of the comparisons. -/
theorem decodeMove_compare (hcmp : flag op 23 = true) : decodeMove op =
    if op.extractLsb' 12 4 = 15#4 ∧ flag op 20 ∧ flag op 23 then
      some (.compare (flag op 21) (flag op 22) (op.extractLsb' 16 3) (operand op))
    else none := by
  have hbits := field_bits op
  have hbit := flag_eq.1 hcmp
  rw [Bool.toNat_true] at hbit
  unfold decodeMove
  split
  · omega
  · omega
  · omega
  · omega
  · omega
  · omega
  · rfl

/-- With bit 20 set and 15 for `Rd` there is nothing but the comparisons. -/
theorem decodeMove_pc (hpc : op.extractLsb' 12 4 = 15#4) (hread : flag op 20 = true) :
    decodeMove op = if flag op 23 then
        some (.compare (flag op 21) (flag op 22) (op.extractLsb' 16 3) (operand op))
      else none := by
  by_cases hcmp : flag op 23 = true
  · rw [decodeMove_compare hcmp, if_pos ⟨hpc, hread, hcmp⟩, if_pos hcmp]
  · have hdest : dest op = none := dif_pos hpc
    have hbits := field_bits op
    have hbit := flag_eq.1 hread
    rw [Bool.toNat_true] at hbit
    rw [if_neg hcmp]
    unfold decodeMove
    rw [hdest]
    split
    · omega
    · split
      · rfl
      · rfl
    · omega
    · rfl
    · omega
    · rfl
    · exact if_neg fun h => hcmp h.2.2

theorem matches_decode (h : Matches op i) : decode op = some i := by
  cases i with
  | load long fd a =>
      obtain ⟨hoffset, hcp, hfd, hlong, hbase, hload, hwriteback, hpacked, hup, hpre,
        hop⟩ := (matches_iff rfl).1 h
      have hpacked : flag op 22 = false := flag_eq.2 hpacked
      have hload : flag op 20 = true := flag_eq.2 hload
      rw [decode_transfer hcp hop, decodeTransfer, hpacked, hload, flag_eq.2 hlong,
        extract_eq.2 hfd, address_eq.2 ⟨hbase, hpre, hup, hwriteback, hoffset⟩]
      rfl
  | store long fd a =>
      obtain ⟨hoffset, hcp, hfd, hlong, hbase, hload, hwriteback, hpacked, hup, hpre,
        hop⟩ := (matches_iff rfl).1 h
      have hpacked : flag op 22 = false := flag_eq.2 hpacked
      have hload : flag op 20 = false := flag_eq.2 hload
      rw [decode_transfer hcp hop, decodeTransfer, hpacked, hload, flag_eq.2 hlong,
        extract_eq.2 hfd, address_eq.2 ⟨hbase, hpre, hup, hwriteback, hoffset⟩]
      rfl
  | compare negated exception fn fm =>
      obtain ⟨hfm, hmove, hcp, hpc, hfn, hread, hnegated, hexception, hcmp, hop⟩ :=
        (matches_iff rfl).1 h
      have hread : flag op 20 = true := flag_eq.2 hread
      have hcmp : flag op 23 = true := flag_eq.2 hcmp
      have hpc : op.extractLsb' 12 4 = 15#4 := extract_eq.2 hpc
      rw [decode_move hcp hop hmove, decodeMove_compare hcmp, if_pos ⟨hpc, hread, hcmp⟩,
        flag_eq.2 hnegated, flag_eq.2 hexception, extract_eq.2 hfn, operand_eq.2 hfm]
  | flt fn rd =>
      obtain ⟨hmove, hcp, hrd, hfn, hcode, hop⟩ := (matches_iff rfl).1 h
      rw [decode_move hcp hop hmove, decodeMove, hcode, extract_eq.2 hfn, extract_eq.2 hrd]
      rfl
  | fix rd fm =>
      obtain ⟨hfm, hconst, hmove, hcp, hrd, hcode, hop⟩ := (matches_iff rfl).1 h
      have hconst : flag op 3 = false := flag_eq.2 hconst
      rw [decode_move hcp hop hmove, decodeMove, hcode, hconst, extract_eq.2 hfm,
        dest_eq.2 hrd]
      rfl
  | wfs rd =>
      obtain ⟨hmove, hcp, hrd, hcode, hop⟩ := (matches_iff rfl).1 h
      rw [decode_move hcp hop hmove, decodeMove, hcode, extract_eq.2 hrd]
      rfl
  | rfs rd =>
      obtain ⟨hmove, hcp, hrd, hcode, hop⟩ := (matches_iff rfl).1 h
      rw [decode_move hcp hop hmove, decodeMove, hcode, dest_eq.2 hrd]
      rfl
  | wfc rd =>
      obtain ⟨hmove, hcp, hrd, hcode, hop⟩ := (matches_iff rfl).1 h
      rw [decode_move hcp hop hmove, decodeMove, hcode, extract_eq.2 hrd]
      rfl
  | rfc rd =>
      obtain ⟨hmove, hcp, hrd, hcode, hop⟩ := (matches_iff rfl).1 h
      rw [decode_move hcp hop hmove, decodeMove, hcode, dest_eq.2 hrd]
      rfl
  | dyadic code fd fn fm =>
      obtain ⟨hfm, hmove, hcp, hfd, hdyadic, hfn, hcode, hop⟩ := (matches_iff rfl).1 h
      have hdyadic : flag op 15 = false := flag_eq.2 hdyadic
      rw [decode_arith hcp hop hmove, decodeArith, hdyadic, extract_eq.2 hcode,
        extract_eq.2 hfd, extract_eq.2 hfn, operand_eq.2 hfm]
      rfl
  | monadic code fd fm =>
      obtain ⟨hfm, hmove, hcp, hfd, hmonadic, hcode, hop⟩ := (matches_iff rfl).1 h
      have hmonadic : flag op 15 = true := flag_eq.2 hmonadic
      rw [decode_arith hcp hop hmove, decodeArith, hmonadic, extract_eq.2 hcode,
        extract_eq.2 hfd, operand_eq.2 hfm]
      rfl

/-- **Decoding.** A word is decoded to an instruction exactly when it has its bits. -/
theorem decode_eq_some_iff : decode op = some i ↔ Matches op i :=
  ⟨decode_matches, matches_decode⟩

end

/-! ## Encoding -/

/-- The word of an instruction under a condition, its free bits zero. -/
def encode (cond : BitVec 4) (i : Insn) : Word :=
  BitVec.ofNat 32 (word (i.template ++ [⟨cond.toNat, 28, 4⟩]))

theorem Operand.code_lt (m : Operand) : m.code < 2 ^ 4 := by
  cases m with
  | reg f =>
      have hf := f.isLt
      simp only [Operand.code]
      omega
  | const c =>
      have hc := c.isLt
      simp only [Operand.code]
      omega

/-- The values of the fields fit. -/
theorem template_fits (i : Insn) : i.template.Forall fun f => f.value < 2 ^ f.width := by
  cases i with
  | load long fd a =>
      exact ⟨a.offset.isLt, by decide, fd.isLt, long.toNat_lt, a.base.isLt, by decide,
        a.writeback.toNat_lt, by decide, a.up.toNat_lt, a.pre.toNat_lt, by decide⟩
  | store long fd a =>
      exact ⟨a.offset.isLt, by decide, fd.isLt, long.toNat_lt, a.base.isLt, by decide,
        a.writeback.toNat_lt, by decide, a.up.toNat_lt, a.pre.toNat_lt, by decide⟩
  | compare negated exception fn fm =>
      exact ⟨fm.code_lt, by decide, by decide, by decide, fn.isLt, by decide,
        negated.toNat_lt, exception.toNat_lt, by decide, by decide⟩
  | flt fn rd => exact ⟨by decide, by decide, rd.isLt, fn.isLt, by decide, by decide⟩
  | fix rd fm =>
      exact ⟨fm.isLt, by decide, by decide, by decide, rd.reg.isLt, by decide, by decide⟩
  | wfs rd => exact ⟨by decide, by decide, rd.isLt, by decide, by decide⟩
  | rfs rd => exact ⟨by decide, by decide, rd.reg.isLt, by decide, by decide⟩
  | wfc rd => exact ⟨by decide, by decide, rd.isLt, by decide, by decide⟩
  | rfc rd => exact ⟨by decide, by decide, rd.reg.isLt, by decide, by decide⟩
  | dyadic op fd fn fm =>
      exact ⟨fm.code_lt, by decide, by decide, fd.isLt, by decide, fn.isLt, op.isLt,
        by decide⟩
  | monadic op fd fm =>
      exact ⟨fm.code_lt, by decide, by decide, fd.isLt, by decide, op.isLt, by decide⟩

/-- The fields of an instruction and its condition lie apart. -/
theorem template_apart (cond : BitVec 4) (i : Insn) :
    Apart (i.template ++ [⟨cond.toNat, 28, 4⟩]) where
  fits f hf := by
    rcases List.mem_append.1 hf with hf | hf
    · exact List.forall_iff_forall_mem.1 (template_fits i) f hf
    · obtain rfl := List.mem_singleton.1 hf
      exact cond.isLt
  apart := by
    cases i <;> simp [Insn.template, transferTemplate, moveTemplate]

theorem field_ofNat (x : Nat) {o w : Nat} (h : o + w ≤ 32) :
    field (BitVec.ofNat 32 x).toNat o w = field x o w := by
  have hlow : (BitVec.ofNat 32 x).toNat = field x 0 32 := by
    rw [BitVec.toNat_ofNat, field, Nat.pow_zero, Nat.div_one]
  rw [hlow, field_field x 0 32 h, Nat.zero_add]

/-- The fields of a template are within a word. -/
theorem template_within (i : Insn) : i.template.Forall fun f => f.place + f.width ≤ 32 := by
  cases i <;> simp [Insn.template, transferTemplate, moveTemplate]

theorem encode_matches (cond : BitVec 4) (i : Insn) : Matches (encode cond i) i := by
  intro f hf
  rw [encode, field_ofNat _ (List.forall_iff_forall_mem.1 (template_within i) f hf)]
  exact field_word (template_apart cond i) (List.mem_append_left _ hf)

theorem encode_cond (cond : BitVec 4) (i : Insn) :
    (encode cond i).extractLsb' 28 4 = cond := by
  rw [extract_eq, encode, field_ofNat _ (by decide)]
  exact field_word (template_apart cond i)
    (List.mem_append_right _ (List.mem_singleton.2 rfl))

/-- Every instruction has a word. -/
theorem decode_encode (cond : BitVec 4) (i : Insn) : decode (encode cond i) = some i :=
  decode_eq_some_iff.2 (encode_matches cond i)

end Kirkwood.Verified.Fpa
