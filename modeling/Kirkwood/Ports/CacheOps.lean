import Kirkwood.Verified.Arm
import Kirkwood.Verified.Mask
import Kirkwood.Ports.EtherCache

/-!
# The cache operations of `l.s`

Lines are cleaned and invalidated by address, in a loop that is left behind its end, or by
set and way, in two loops that are left when a subtraction borrows.  Each routine is
followed up to what it has told the coprocessor.

## Main results

* `lines_exec`, `walk_exec`: the loops end, with their operations in order;
* `dcwb_did`, `dcwbinv_did`, `icinv_did`, `dcinv_did`: what the routines do, on both sides
  of the sizes from which on they do the whole cache;
* `sets_words`: the whole cache is each way of each set, once;
* `routines_refine`: they are the operations that the model of the ethernet driver has.
-/

namespace Kirkwood.Ports.CacheOps

open Kirkwood.Verified.Arm
open Kirkwood.Verified.Mask (toNat_clear_low)
open Kirkwood.Ports.EtherCache (CACHELINESIZE covers)

/-! ## mem.h -/

def CACHESIZE : Nat := 4096
def L2CACHESIZE : Nat := 262144
def PsrDfiq : Word := 0x00000040
def PsrDirq : Word := 0x00000080

/-! ## Operations of the coprocessor -/

/-- clean set/way -/
def cleanset : Mcr := ⟨0, 7, 10, 2⟩
/-- clean address -/
def cleanline : Mcr := ⟨0, 7, 10, 1⟩
/-- drain write buffer -/
def drain : Mcr := ⟨0, 7, 10, 4⟩
/-- clean & invalidate set/way -/
def flushset : Mcr := ⟨0, 7, 14, 2⟩
/-- clean & invalidate address -/
def flushline : Mcr := ⟨0, 7, 14, 1⟩
/-- invalidate dcache -/
def invall : Mcr := ⟨0, 7, 6, 0⟩
/-- invalidate dcache line -/
def invline : Mcr := ⟨0, 7, 6, 1⟩
/-- invalidate icache -/
def iall : Mcr := ⟨0, 7, 5, 0⟩
/-- invalidate icache line -/
def iline : Mcr := ⟨0, 7, 5, 1⟩
/-- invalidate l2 cache -/
def l2all : Mcr := ⟨1, 15, 11, 0⟩
/-- invalidate l2 cache line -/
def l2line : Mcr := ⟨1, 15, 11, 3⟩
/-- start addr -/
def l2start : Mcr := ⟨1, 15, 11, 4⟩
/-- end addr, inclusive.  go. -/
def l2end : Mcr := ⟨1, 15, 11, 5⟩

/-! ## l.s -/

/-- `MOVW 4(FP), R1`: the second argument, in a routine without a frame. -/
def second : Instr := .load 8 13#4 1#4

def line : Word := BitVec.ofNat 32 CACHELINESIZE

/-- `ADD R0, R1; BIC $(CACHELINESIZE-1), R0` -/
def ends : List Instr :=
  [.alu .add (.reg 0#4) 1#4 1#4,
    .alu .bic (.imm (line - 1)) 0#4 0#4]

/-- The loop over lines, with what is done to each. -/
def lines (ops : List Mcr) : Code :=
  .loop
    (.straight (ops.map (fun o => .mcr o 0#4) ++
      [.alu .add (.imm line) 0#4 0#4, .cmp (.reg 1#4) 0#4]))
    3#4

def draining : List Instr := [.mov (.imm 0) 0#4, .mcr drain 0#4]

def icinvall : Code := .straight [.mov (.imm 0) 0#4, .mcr iall 0#4]

def icinv : Code :=
  .seq (.straight [second, .cmp (.imm (BitVec.ofNat 32 (CACHESIZE / 2))) 1#4])
    (.branch 10#4 icinvall (.seq (.straight ends) (lines [iline])))

/-- The loop over the ways of a set, `wbway` and `wbinvway`. -/
def wayloop (op : Mcr) : Code :=
  .loop (.straight [.mcr op 0#4, .subs (.imm (1#32 <<< 30)) 0#4 0#4]) 2#4

/-- The loop over the sets, `wbset` and `wbinvset`. -/
def walk (op : Mcr) : Code :=
  .seq (.straight [.mov (.imm (127#32 <<< 5)) 1#4])
    (.loop
      (.seq (.straight [.alu .orr (.imm (3#32 <<< 30)) 1#4 0#4])
        (.seq (wayloop op) (.straight [.subs (.imm (1#32 <<< 5)) 1#4 1#4])))
      2#4)

def dcwball : Code := .seq (walk cleanset) (.straight draining)

def dcwb : Code :=
  .seq (.straight [second, .cmp (.imm (BitVec.ofNat 32 CACHESIZE)) 1#4])
    (.branch 2#4 dcwball
      (.seq (.straight ends) (.seq (lines [cleanline]) (.straight draining))))

/-- disable fiq/irq -/
def disabling (r : Reg) : List Instr :=
  [.fromCpsr 2#4,
    .alu .orr (.imm (PsrDfiq ||| PsrDirq)) 2#4 r,
    .toCpsr r]

def dcwbinvall : Code :=
  .seq (.straight (disabling 3#4))
    (.seq (walk flushset) (.straight (draining ++ [.mcr l2all 0#4, .toCpsr 2#4])))

/-- What `dcwbinv` does behind the lines. -/
def flushed : List Instr :=
  draining ++
    [.alu .bic (.imm (line - 1)) 1#4 1#4,
      .mcr l2start 3#4,
      .mcr l2end 1#4,
      .toCpsr 2#4]

def dcwbinv : Code :=
  .seq (.straight [second, .cmp (.imm (BitVec.ofNat 32 (L2CACHESIZE / 2))) 1#4])
    (.branch 2#4 dcwbinvall
      (.seq
        (.straight (ends ++ .mov (.reg 0#4) 3#4 :: disabling 4#4))
        (.seq (lines [flushline]) (.straight flushed))))

def dcinvall : Code := .straight [.mov (.imm 0) 0#4, .mcr invall 0#4, .mcr l2all 0#4]

def dcinv : Code :=
  .seq (.straight (second :: ends)) (lines [invline, l2line])

/-! ## Lines -/

/-- The lines from `l` on, each with what is done to it. -/
def told (ops : List Mcr) (masked : Bool) (ls : List Nat) : List Told :=
  ls.flatMap fun l => ops.map fun o => ⟨o, BitVec.ofNat 32 (CACHELINESIZE * l), masked⟩

section
variable {c : Cpu} {ops : List Mcr}

theorem mcrs_exec (ops : List Mcr) (c : Cpu) :
    execAll (ops.map fun o => .mcr o 0#4) c =
      { c with
        told :=
          (ops.map fun o => Told.mk o (c.get 0#4) (masked c.cpsr)).reverse ++ c.told } := by
  induction ops generalizing c with
  | nil => rfl
  | cons o ops ih =>
      rw [List.map_cons, execAll, List.foldl_cons]
      have hrest := ih (Instr.exec c (.mcr o 0#4))
      rw [execAll] at hrest
      rw [hrest]
      simp [Instr.exec, Cpu.get]

/-- The registers, the status and the coprocessor after `k` passes. -/
def passed (ops : List Mcr) (c : Cpu) (l k : Nat) (psr : Word) : Cpu :=
  { c with
    regs := Function.update c.regs (.core 0#4) (BitVec.ofNat 32 (CACHELINESIZE * (l + k)))
    cpsr := psr
    told := (told ops (masked c.cpsr) (List.range' l k)).reverse ++ c.told }

theorem told_snoc (ops : List Mcr) (masked : Bool) (l k : Nat) :
    told ops masked (List.range' l (k + 1)) = told ops masked (List.range' l k) ++
      ops.map fun o => Told.mk o (BitVec.ofNat 32 (CACHELINESIZE * (l + k))) masked := by
  unfold told
  rw [List.range'_concat, List.flatMap_append, Nat.one_mul, List.flatMap_singleton]

theorem next_line (l k : Nat) : BitVec.ofNat 32 (CACHELINESIZE * (l + k)) + line =
    BitVec.ofNat 32 (CACHELINESIZE * (l + (k + 1))) := by
  unfold line
  rw [← BitVec.ofNat_add, ← Nat.add_assoc, Nat.mul_succ]

/-- One pass. -/
theorem pass_exec {l k : Nat} {psr : Word} (halike : Alike psr c.cpsr) :
    execAll (ops.map (fun o => .mcr o 0#4) ++
        [.alu .add (.imm line) 0#4 0#4, .cmp (.reg 1#4) 0#4]) (passed ops c l k psr) =
      passed ops c l (k + 1) (withFlags psr (subFlags
        (BitVec.ofNat 32 (CACHELINESIZE * (l + (k + 1)))) (c.regs (.core 1#4)))) := by
  have hr0 : (passed ops c l k psr).get 0#4 =
      BitVec.ofNat 32 (CACHELINESIZE * (l + k)) := by
    rw [Cpu.get, slot_low _ (by decide)]
    simp only [passed, Function.update_self]
  rw [execAll_append, mcrs_exec, hr0]
  simp only [execAll, List.foldl_cons, List.foldl_nil, Instr.exec, Cpu.get, Cpu.set,
    Src.read, Alu.eval, slot_low _ (by decide : (0#4).toNat < 8),
    slot_low _ (by decide : (1#4).toNat < 8)]
  simp [passed, told_snoc, next_line, halike.masked]

/-- How many lines the loop does, from line `l` on to the address `stop`. -/
def count (l stop : Nat) : Nat :=
  max 1 ((stop - CACHELINESIZE * l + (CACHELINESIZE - 1)) / CACHELINESIZE)

theorem back_iff {l k stop : Nat} :
    CACHELINESIZE * (l + (k + 1)) < stop ↔ k + 1 < count l stop := by
  unfold count CACHELINESIZE
  omega

/-- The loop is left at the first line behind the end, and the first is always done. -/
theorem lines_exec (ops : List Mcr) {l stop fuel : Nat}
    (hr0 : c.regs (.core 0#4) = BitVec.ofNat 32 (CACHELINESIZE * l))
    (hr1 : c.regs (.core 1#4) = BitVec.ofNat 32 stop)
    (hstop : stop < 2 ^ 32 - CACHELINESIZE) (hl : CACHELINESIZE * l ≤ stop)
    (hfuel : count l stop ≤ fuel) :
    ∃ psr, Alike psr c.cpsr ∧
      (lines ops).exec fuel c = some (passed ops c l (count l stop) psr) := by
  have hstart : c = passed ops c l 0 c.cpsr := by
    have hr0' : c.regs (.core 0#4) = BitVec.ofNat 32 (CACHELINESIZE * (l + 0)) := hr0
    unfold passed
    rw [← hr0', Function.update_eq_self]
    rfl
  have hloop : ∃ c', (lines ops).exec fuel c = some c' ∧ ∃ psr, Alike psr c.cpsr ∧
      c' = passed ops c l (count l stop) psr := by
    refine loop_rule (fun k c' => ∃ psr, Alike psr c.cpsr ∧
      c' = passed ops c l k psr) ?_ ⟨c.cpsr, rfl, hstart⟩ (Nat.le_max_left ..) hfuel
    rintro k hk _ ⟨psr, halike, rfl⟩
    refine ⟨_, rfl, ⟨_, ?_, pass_exec halike⟩, ?_⟩
    · exact halike.withFlags _
    · have hbound : CACHELINESIZE * (l + (k + 1)) < 2 ^ 32 := by
        unfold count CACHELINESIZE at *
        omega
      have hat : (BitVec.ofNat 32 (CACHELINESIZE * (l + (k + 1)))).toNat =
          CACHELINESIZE * (l + (k + 1)) := by
        rw [BitVec.toNat_ofNat, Nat.mod_eq_of_lt hbound]
      have hend : (BitVec.ofNat 32 stop).toNat = stop := by
        rw [BitVec.toNat_ofNat, Nat.mod_eq_of_lt (by omega)]
      rw [← back_iff, pass_exec halike, passed, flags_withFlags, hr1]
      simp [holds, subFlags, BitVec.ule, hat, hend]
  obtain ⟨_, hexec, psr, halike, rfl⟩ := hloop
  exact ⟨psr, halike, hexec⟩

/-! ## Sets and ways -/

/-- Set `s` and way `w`, as the coprocessor takes them. -/
def setway (s w : Nat) : Word := BitVec.ofNat 32 (2 ^ 30 * w + 32 * s)

/-- The ways of a set, from the last on. -/
def ways (op : Mcr) (masked : Bool) (s k : Nat) : List Told :=
  (List.range k).map fun w => ⟨op, setway s (3 - w), masked⟩

/-- The sets, from the last on. -/
def sets (op : Mcr) (masked : Bool) (j : Nat) : List Told :=
  (List.range j).flatMap fun s => ways op masked (127 - s) 4

/-- The registers, the status and the coprocessor in the loops. -/
def walked (c : Cpu) (r1 r0 psr : Word) (ts : List Told) : Cpu :=
  { c with
    regs := Function.update (Function.update c.regs (.core 1#4) r1) (.core 0#4) r0
    cpsr := psr
    told := ts.reverse ++ c.told }

/-- After `k` ways. -/
def wayword (s k : Nat) : Word := setway s 3 - BitVec.ofNat 32 (2 ^ 30 * k)

theorem wayword_eq {s k : Nat} (hk : k < 4) : wayword s k = setway s (3 - k) := by
  unfold wayword setway
  apply BitVec.eq_of_toNat_eq
  rw [BitVec.toNat_sub, BitVec.toNat_ofNat, BitVec.toNat_ofNat, BitVec.toNat_ofNat]
  omega

theorem wayword_succ {s k : Nat} (hk : k < 4) :
    setway s (3 - k) - 1073741824#32 = wayword s (k + 1) := by
  have hsum : BitVec.ofNat 32 (2 ^ 30 * (k + 1)) =
      BitVec.ofNat 32 (2 ^ 30 * k) + 1073741824#32 := by
    rw [← BitVec.ofNat_add]
    rfl
  rw [← wayword_eq hk]
  unfold wayword
  rw [hsum, BitVec.sub_sub]

theorem ways_snoc (op : Mcr) (masked : Bool) (s k : Nat) : ways op masked s (k + 1) =
    ways op masked s k ++ [⟨op, setway s (3 - k), masked⟩] := by
  unfold ways
  rw [List.range_succ, List.map_append, List.map_singleton]

theorem way_exec {op : Mcr} {r1 psr : Word} {ts : List Told} {s k : Nat}
    (hk : k < 4) (halike : Alike psr c.cpsr) :
    execAll [.mcr op 0#4, .subs (.imm (1#32 <<< 30)) 0#4 0#4]
        (walked c r1 (wayword s k) psr (ts ++ ways op (masked c.cpsr) s k)) =
      walked c r1 (wayword s (k + 1))
        (withFlags psr (subFlags (setway s (3 - k)) (1#32 <<< 30)))
        (ts ++ ways op (masked c.cpsr) s (k + 1)) := by
  simp only [execAll, List.foldl_cons, List.foldl_nil, Instr.exec, Cpu.get, Cpu.set,
    Src.read, slot_low _ (by decide : (0#4).toNat < 8)]
  simp [walked, ways_snoc, halike.masked, wayword_succ hk, wayword_eq hk]

/-- A borrow ends each of the two loops. -/
theorem carry_iff (psr x y : Word) :
    holds (flags (withFlags psr (subFlags x y))) 2#4 = true ↔ y.toNat ≤ x.toNat := by
  rw [flags_withFlags]
  simp [holds, subFlags, BitVec.ule]

/-- The ways of a set: the last subtraction borrows. -/
theorem ways_exec (op : Mcr) (r1 : Word) (ts : List Told) {psr : Word} {s fuel : Nat}
    (hs : s < 128) (halike : Alike psr c.cpsr) (hfuel : 4 ≤ fuel) :
    ∃ psr', Alike psr' c.cpsr ∧
      (wayloop op).exec fuel (walked c r1 (setway s 3) psr ts) =
        some (walked c r1 (wayword s 4) psr' (ts ++ ways op (masked c.cpsr) s 4)) := by
  have hstart : setway s 3 = wayword s 0 := (wayword_eq (k := 0) (by decide)).symm
  have hloop : ∃ c', (wayloop op).exec fuel (walked c r1 (setway s 3) psr ts) = some c' ∧
      ∃ psr', Alike psr' c.cpsr ∧
        c' = walked c r1 (wayword s 4) psr' (ts ++ ways op (masked c.cpsr) s 4) := by
    refine loop_rule (fun k c' => ∃ psr', Alike psr' c.cpsr ∧
        c' = walked c r1 (wayword s k) psr' (ts ++ ways op (masked c.cpsr) s k)) ?_
      ⟨psr, halike, ?_⟩ (by decide) hfuel
    · rintro k hk _ ⟨psr', halike', rfl⟩
      refine ⟨_, rfl, ⟨_, ?_, way_exec hk halike'⟩, ?_⟩
      · exact halike'.withFlags _
      · have hword : (setway s (3 - k)).toNat = 2 ^ 30 * (3 - k) + 32 * s := by
          unfold setway
          rw [BitVec.toNat_ofNat, Nat.mod_eq_of_lt (by omega)]
        have hone : (1#32 <<< 30).toNat = 2 ^ 30 := rfl
        rw [way_exec hk halike', walked, carry_iff, hword, hone]
        omega
    · rw [hstart]
      simp [ways]
  obtain ⟨_, hexec, psr', halike', rfl⟩ := hloop
  exact ⟨psr', halike', hexec⟩

theorem sets_snoc (op : Mcr) (masked : Bool) (j : Nat) : sets op masked (j + 1) =
    sets op masked j ++ ways op masked (127 - j) 4 := by
  unfold sets
  rw [List.range_succ, List.flatMap_append, List.flatMap_singleton]

/-- After `j` sets. -/
def setword (j : Nat) : Word := 127#32 <<< 5 - BitVec.ofNat 32 (32 * j)

theorem setword_eq {j : Nat} (hj : j < 128) :
    setword j = BitVec.ofNat 32 (32 * (127 - j)) := by
  have hstart : 127#32 <<< 5 = BitVec.ofNat 32 (32 * 127) := rfl
  unfold setword
  rw [hstart]
  apply BitVec.eq_of_toNat_eq
  rw [BitVec.toNat_sub, BitVec.toNat_ofNat, BitVec.toNat_ofNat, BitVec.toNat_ofNat]
  omega

theorem setword_succ (j : Nat) : setword j - 1#32 <<< 5 = setword (j + 1) := by
  have hone : 1#32 <<< 5 = BitVec.ofNat 32 32 := rfl
  have hsum : BitVec.ofNat 32 (32 * (j + 1)) =
      BitVec.ofNat 32 (32 * j) + BitVec.ofNat 32 32 := by
    rw [← BitVec.ofNat_add]
    rfl
  unfold setword
  rw [hone, hsum, BitVec.sub_sub]

/-- The last way of a set. -/
theorem lastway_eq : ∀ s < 128, BitVec.ofNat 32 (32 * s) ||| 3#32 <<< 30 = setway s 3 := by
  decide

/-- One set. -/
theorem set_exec (op : Mcr) (r0 : Word) {psr : Word} {j fuel : Nat} (hj : j < 128)
    (halike : Alike psr c.cpsr) (hfuel : 4 ≤ fuel) :
    ∃ psr' r0', Alike psr' c.cpsr ∧
      (Code.seq (.straight [.alu .orr (.imm (3#32 <<< 30)) 1#4 0#4])
        (.seq (wayloop op) (.straight [.subs (.imm (1#32 <<< 5)) 1#4 1#4]))).exec fuel
          (walked c (setword j) r0 psr (sets op (masked c.cpsr) j)) =
        some (walked c (setword (j + 1)) r0'
          (withFlags psr' (subFlags (setword j) (1#32 <<< 5)))
          (sets op (masked c.cpsr) (j + 1))) := by
  obtain ⟨psr', halike', hways⟩ := ways_exec op (setword j) (sets op (masked c.cpsr) j)
    (by omega : 127 - j < 128) halike hfuel
  have horr : execAll [.alu .orr (.imm (3#32 <<< 30)) 1#4 0#4]
      (walked c (setword j) r0 psr (sets op (masked c.cpsr) j)) =
      walked c (setword j) (setway (127 - j) 3) psr (sets op (masked c.cpsr) j) := by
    have hlast := lastway_eq (127 - j) (by omega)
    rw [← setword_eq hj] at hlast
    simp only [execAll, List.foldl_cons, List.foldl_nil, Instr.exec, Cpu.get, Cpu.set,
      Src.read, Alu.eval, slot_low _ (by decide : (0#4).toNat < 8),
      slot_low _ (by decide : (1#4).toNat < 8)]
    simp [walked, ← hlast]
  refine ⟨psr', wayword (127 - j) 4, halike', ?_⟩
  show ((some (execAll _ _)).bind fun c => ((wayloop op).exec fuel c).bind fun c =>
    some (execAll _ c)) = _
  rw [horr, Option.bind_some, hways, Option.bind_some]
  have hr1 : (walked c (setword j) (wayword (127 - j) 4) psr'
      (sets op (masked c.cpsr) j ++ ways op (masked c.cpsr) (127 - j) 4)).get 1#4 =
        setword j := by
    rw [Cpu.get, slot_low _ (by decide)]
    simp [walked]
  simp only [execAll, List.foldl_cons, List.foldl_nil, Instr.exec, Src.read, hr1]
  simp only [Cpu.set, slot_low _ (by decide : (1#4).toNat < 8), walked, sets_snoc]
  have hne : Slot.core 1#4 ≠ Slot.core 0#4 := by decide
  rw [Function.update_comm hne, Function.update_idem, ← setword_succ,
    Function.update_comm hne.symm]

theorem walk_exec (op : Mcr) (c : Cpu) {fuel : Nat} (hfuel : 128 ≤ fuel) :
    ∃ r0 psr, Alike psr c.cpsr ∧
      (walk op).exec fuel c =
        some (walked c (setword 128) r0 psr (sets op (masked c.cpsr) 128)) := by
  have hstart : execAll [.mov (.imm (127#32 <<< 5)) 1#4] c =
      walked c (setword 0) (c.regs (.core 0#4)) c.cpsr (sets op (masked c.cpsr) 0) := by
    have hne : Slot.core 0#4 ≠ Slot.core 1#4 := by decide
    have hr0 : c.regs (.core 0#4) =
        Function.update c.regs (.core 1#4) (setword 0) (.core 0#4) :=
      (Function.update_of_ne hne ..).symm
    unfold walked
    rw [hr0, Function.update_eq_self]
    simp only [execAll, List.foldl_cons, List.foldl_nil, Instr.exec, Cpu.set, Src.read,
      slot_low _ (by decide : (1#4).toNat < 8)]
    rfl
  have hloop : ∃ c', (walk op).exec fuel c = some c' ∧ ∃ r0 psr, Alike psr c.cpsr ∧
        c' = walked c (setword 128) r0 psr (sets op (masked c.cpsr) 128) := by
    show ∃ c', (some (execAll _ c)).bind _ = some c' ∧ _
    rw [hstart, Option.bind_some]
    refine loop_rule (fun j c' => ∃ r0 psr, Alike psr c.cpsr ∧
      c' = walked c (setword j) r0 psr (sets op (masked c.cpsr) j)) ?_
      ⟨_, _, rfl, rfl⟩ (by decide) hfuel
    rintro j hj _ ⟨r0, psr, halike, rfl⟩
    obtain ⟨psr', r0', halike', hset⟩ :=
      set_exec op r0 hj halike (by omega : 4 ≤ fuel)
    refine ⟨_, hset, ⟨_, _, ?_, rfl⟩, ?_⟩
    · exact halike'.withFlags _
    · have hword : (setword j).toNat = 32 * (127 - j) := by
        rw [setword_eq hj, BitVec.toNat_ofNat, Nat.mod_eq_of_lt (by omega)]
      have hone : (1#32 <<< 5).toNat = 32 := rfl
      rw [walked, carry_iff, hword, hone]
      omega
  obtain ⟨_, hexec, r0, psr, halike, rfl⟩ := hloop
  exact ⟨r0, psr, halike, hexec⟩

/-! ## Routines -/

/-- The coprocessor has been told `ts`, and of the rest only the first five registers and
the flags are others. -/
structure Did (c c' : Cpu) (ts : List Told) : Prop where
  told : c'.told = ts.reverse ++ c.told
  regs : ∀ r, (∀ n, n.toNat < 5 → r ≠ .core n) → c'.regs r = c.regs r
  spsr : c'.spsr = c.spsr
  mem : c'.mem = c.mem
  psr : Alike c'.cpsr c.cpsr

/-- The arguments `a` and `n`. -/
structure Args (c : Cpu) (a n : Nat) : Prop where
  first : c.get 0#4 = BitVec.ofNat 32 a
  second : c.mem (c.get 13#4 + 8) = BitVec.ofNat 32 n

/-- At the comparison with the limit. -/
def compared (c : Cpu) (n limit : Nat) : Cpu :=
  { c with
    regs := Function.update c.regs (.core 1#4) (BitVec.ofNat 32 n)
    cpsr := withFlags c.cpsr (subFlags (BitVec.ofNat 32 n) (BitVec.ofNat 32 limit)) }

variable {a n limit fuel : Nat}

theorem compared_exec (h : Args c a n) :
    execAll [second, .cmp (.imm (BitVec.ofNat 32 limit)) 1#4] c = compared c n limit := by
  simp only [execAll, List.foldl_cons, List.foldl_nil, second, Instr.exec, Cpu.set,
    Src.read, h.second, slot_low _ (by decide : (1#4).toNat < 8)]
  simp [Cpu.get, compared, slot_low _ (by decide : (1#4).toNat < 8)]

/-- The end of the lines and their start. -/
def ended (c : Cpu) (a n : Nat) : Cpu :=
  { c with
    regs := Function.update (Function.update c.regs (.core 1#4) (BitVec.ofNat 32 (a + n)))
      (.core 0#4) (BitVec.ofNat 32 (CACHELINESIZE * (a / CACHELINESIZE))) }

theorem clear_low (a : Nat) : BitVec.ofNat 32 a &&& ~~~(line - 1) =
    BitVec.ofNat 32 (CACHELINESIZE * (a / CACHELINESIZE)) := by
  have hmask : line - (1 : Word) = 1#32 <<< 5 - 1#32 := rfl
  apply BitVec.eq_of_toNat_eq
  rw [hmask, toNat_clear_low _ (by decide), BitVec.toNat_ofNat, BitVec.toNat_ofNat]
  unfold CACHELINESIZE
  omega

theorem ended_exec (hr0 : c.regs (.core 0#4) = BitVec.ofNat 32 a)
    (hr1 : c.regs (.core 1#4) = BitVec.ofNat 32 n) : execAll ends c = ended c a n := by
  simp only [execAll, List.foldl_cons, List.foldl_nil, ends, Instr.exec, Cpu.get, Cpu.set,
    Src.read, Alu.eval, slot_low _ (by decide : (0#4).toNat < 8),
    slot_low _ (by decide : (1#4).toNat < 8), hr0, hr1]
  simp [ended, hr0, ← clear_low, BitVec.ofNat_add, BitVec.add_comm]

theorem covers_eq (a n : Nat) :
    covers a n = List.range' (a / CACHELINESIZE) (count (a / CACHELINESIZE) (a + n)) := by
  have hstart : a + n - CACHELINESIZE * (a / CACHELINESIZE) = a % CACHELINESIZE + n := by
    have hdiv := Nat.div_add_mod a CACHELINESIZE
    omega
  unfold covers count
  rw [hstart]

theorem count_eq (a n : Nat) :
    count (a / CACHELINESIZE) (a + n) = (covers a n).length := by
  rw [covers_eq, List.length_range']

/-- What is done behind the comparison, when there are not too many lines. -/
theorem ends_exec (ops : List Mcr) (hr0 : c.regs (.core 0#4) = BitVec.ofNat 32 a)
    (hr1 : c.regs (.core 1#4) = BitVec.ofNat 32 n) (hstop : a + n < 2 ^ 32 - CACHELINESIZE)
    (hfuel : (covers a n).length ≤ fuel) :
    ∃ psr, Alike psr c.cpsr ∧ (Code.seq (.straight ends) (lines ops)).exec fuel c =
      some (passed ops (ended c a n) (a / CACHELINESIZE) (covers a n).length psr) := by
  have hl : CACHELINESIZE * (a / CACHELINESIZE) ≤ a + n :=
    (Nat.mul_div_le a CACHELINESIZE).trans (Nat.le_add_right a n)
  have hcount : count (a / CACHELINESIZE) (a + n) ≤ fuel := by rwa [count_eq]
  obtain ⟨psr, halike, hlines⟩ := lines_exec (c := ended c a n) ops
    (by simp [ended]) (by simp [ended]) hstop hl hcount
  refine ⟨psr, halike, ?_⟩
  show (some (execAll ends c)).bind ((lines ops).exec fuel) = _
  rw [ended_exec hr0 hr1, Option.bind_some, hlines, count_eq]

/-- `BGE` -/
theorem ge_iff (psr x y : Word) :
    holds (flags (withFlags psr (subFlags x y))) 10#4 = true ↔ y.toInt ≤ x.toInt := by
  rw [flags_withFlags]
  simp only [holds, BitVec.toNat_ofNat, Nat.reducePow, Nat.reduceMod, subFlags,
    BitVec.msb_eq_decide, Nat.add_one_sub_one, BitVec.toNat_sub, beq_iff_eq,
    BitVec.toInt_eq_toNat_cond, Nat.cast_ofNat]
  have hx := x.isLt
  have hy := y.isLt
  rw [Bool.eq_iff_iff]
  simp only [decide_eq_true_eq, Bool.and_eq_true, bne_iff_ne, ne_eq, decide_eq_decide]
  split <;> split <;> omega

theorem compared_did (c : Cpu) (n limit : Nat) : Did c (compared c n limit) [] where
  told := rfl
  regs _ hr := Function.update_of_ne (hr 1#4 (by decide)) ..
  spsr := rfl
  mem := rfl
  psr := (Alike.refl c.cpsr).withFlags _

theorem Did.trans {c' c'' : Cpu} {ts ts' : List Told} (h : Did c c' ts)
    (h' : Did c' c'' ts') : Did c c'' (ts ++ ts') where
  told := by rw [h'.told, h.told, List.reverse_append, List.append_assoc]
  regs r hr := (h'.regs r hr).trans (h.regs r hr)
  spsr := h'.spsr.trans h.spsr
  mem := h'.mem.trans h.mem
  psr := h'.psr.trans h.psr

/-- `R0` becomes 0, and the coprocessor is told so. -/
theorem zero_did (ops : List Mcr) (c : Cpu) :
    Did c (execAll (.mov (.imm 0) 0#4 :: ops.map fun o => .mcr o 0#4) c)
      (ops.map fun o => ⟨o, 0, masked c.cpsr⟩) := by
  have hexec : execAll (.mov (.imm 0) 0#4 :: ops.map fun o => .mcr o 0#4) c =
      { c with
        regs := Function.update c.regs (.core 0#4) 0
        told := (ops.map fun o => Told.mk o 0 (masked c.cpsr)).reverse ++ c.told } := by
    rw [execAll, List.foldl_cons]
    have hmcrs := mcrs_exec ops (Instr.exec c (.mov (.imm 0) 0#4))
    rw [execAll] at hmcrs
    rw [hmcrs]
    simp [Instr.exec, Cpu.get, Cpu.set, Src.read, slot_low _ (by decide : (0#4).toNat < 8)]
  rw [hexec]
  exact ⟨rfl, fun r hr => Function.update_of_ne (hr 0#4 (by decide)) .., rfl, rfl,
    Alike.refl _⟩

theorem ends_did (ops : List Mcr) (hr0 : c.regs (.core 0#4) = BitVec.ofNat 32 a)
    (hr1 : c.regs (.core 1#4) = BitVec.ofNat 32 n) (hstop : a + n < 2 ^ 32 - CACHELINESIZE)
    (hfuel : (covers a n).length ≤ fuel) :
    ∃ c', (Code.seq (.straight ends) (lines ops)).exec fuel c = some c' ∧
      Did c c' (told ops (masked c.cpsr) (covers a n)) := by
  obtain ⟨psr, halike, hexec⟩ := ends_exec ops hr0 hr1 hstop hfuel
  refine ⟨_, hexec, ?_, fun r hr => ?_, rfl, rfl, halike⟩
  · rw [passed, ← count_eq, ← covers_eq]
    rfl
  · have hr0 := hr 0#4 (by decide)
    have hr1 := hr 1#4 (by decide)
    simp [passed, ended, hr0, hr1]

theorem walk_did (op : Mcr) (c : Cpu) (hfuel : 128 ≤ fuel) :
    ∃ c', (walk op).exec fuel c = some c' ∧ Did c c' (sets op (masked c.cpsr) 128) := by
  obtain ⟨r0, psr, halike, hexec⟩ := walk_exec op c hfuel
  refine ⟨_, hexec, rfl, fun r hr => ?_, rfl, rfl, halike⟩
  have hr0 := hr 0#4 (by decide)
  have hr1 := hr 1#4 (by decide)
  simp [walked, hr0, hr1]

theorem setway_inj {s s' w w' : Nat} (hs : s < 128) (hs' : s' < 128) (hw : w < 4)
    (hw' : w' < 4) (h : setway s w = setway s' w') : s = s' ∧ w = w' := by
  have hnat := congrArg BitVec.toNat h
  unfold setway at hnat
  rw [BitVec.toNat_ofNat, BitVec.toNat_ofNat] at hnat
  omega

theorem sets_map (op : Mcr) (masked : Bool) : (sets op masked 128).map Told.word =
    (List.range 128).flatMap fun s =>
      (List.range 4).map fun w => setway (127 - s) (3 - w) := by
  unfold sets ways
  rw [List.map_flatMap]
  exact congrArg (List.flatMap · _) (funext fun s => List.map_map)

/-- Every way of every set, once. -/
theorem sets_words (op : Mcr) (masked : Bool) :
    ((sets op masked 128).map Told.word).Nodup ∧
      ∀ x, x ∈ (sets op masked 128).map Told.word ↔ ∃ s < 128, ∃ w < 4, x = setway s w := by
  rw [sets_map]
  refine ⟨List.nodup_flatMap.2 ⟨fun s hs => ?_, ?_⟩, fun x => ?_⟩
  · refine List.nodup_range.map_on fun w hw w' hw' heq => ?_
    rw [List.mem_range] at hs hw hw'
    obtain ⟨-, hway⟩ := setway_inj (by omega) (by omega) (by omega) (by omega) heq
    omega
  · refine List.nodup_range.imp_of_mem fun {s s'} hs hs' hne => ?_
    rw [List.mem_range] at hs hs'
    intro x hx hx'
    obtain ⟨w, hw, rfl⟩ := List.mem_map.1 hx
    obtain ⟨w', hw', heq⟩ := List.mem_map.1 hx'
    rw [List.mem_range] at hw hw'
    obtain ⟨hset, -⟩ := setway_inj (by omega) (by omega) (by omega) (by omega) heq
    omega
  · rw [List.mem_flatMap]
    constructor
    · rintro ⟨s, hs, hx⟩
      obtain ⟨w, hw, rfl⟩ := List.mem_map.1 hx
      exact ⟨127 - s, by omega, 3 - w, by omega, rfl⟩
    · rintro ⟨s, hs, w, hw, rfl⟩
      refine ⟨127 - s, List.mem_range.2 (by omega), List.mem_map.2 ⟨3 - w, ?_, ?_⟩⟩
      · exact List.mem_range.2 (by omega)
      · rw [Nat.sub_sub_self (by omega), Nat.sub_sub_self (by omega)]

theorem dcwball_did (c : Cpu) (hfuel : 128 ≤ fuel) :
    ∃ c', dcwball.exec fuel c = some c' ∧
      Did c c' (sets cleanset (masked c.cpsr) 128 ++ [⟨drain, 0, masked c.cpsr⟩]) := by
  obtain ⟨c', hexec, hdid⟩ := walk_did cleanset c hfuel
  have hdrain := zero_did [drain] c'
  rw [hdid.psr.masked] at hdrain
  exact ⟨_, seq_exec hexec rfl, hdid.trans hdrain⟩

/-- The registers at the branch of a routine with the arguments `a` and `n`. -/
theorem Args.compared (h : Args c a n) (limit : Nat) :
    (compared c n limit).regs (.core 0#4) = BitVec.ofNat 32 a ∧
      (compared c n limit).regs (.core 1#4) = BitVec.ofNat 32 n := by
  have hfirst := h.first
  rw [Cpu.get, slot_low _ (by decide)] at hfirst
  simp [CacheOps.compared, hfirst]

/-- The whole cache is cleaned, each way of each set once. -/
theorem dcwball_once (c : Cpu) (hfuel : 128 ≤ fuel) :
    ∃ c' ts, dcwball.exec fuel c = some c' ∧
      Did c c' (ts ++ [⟨drain, 0, masked c.cpsr⟩]) ∧ (∀ t ∈ ts, t.op = cleanset) ∧
      (ts.map Told.word).Nodup ∧
      ∀ x, x ∈ ts.map Told.word ↔ ∃ s < 128, ∃ w < 4, x = setway s w := by
  obtain ⟨c', hexec, hdid⟩ := dcwball_did c hfuel
  refine ⟨c', _, hexec, hdid, fun t ht => ?_, sets_words ..⟩
  obtain ⟨s, -, hs⟩ := List.mem_flatMap.1 ht
  obtain ⟨w, -, rfl⟩ := List.mem_map.1 hs
  rfl

/-- A call with `a` and `n`. -/
def called (a n : Word) : Cpu where
  regs r := if r = .core 0#4 then a else if r = .sp .svc then 0x8000 else 0
  cpsr := 0x13
  spsr _ := 0
  mem x := if x = 0x8008 then n else 0
  told := []

theorem dcwball_once_called : ∃ c' ts, dcwball.exec 128 (called 0 0) = some c' ∧
    Did (called 0 0) c' (ts ++ [⟨drain, 0, false⟩]) ∧ (ts.map Told.word).Nodup := by
  obtain ⟨c', ts, hexec, hdid, -, hnodup, -⟩ := dcwball_once (called 0 0) (Nat.le_refl 128)
  exact ⟨c', ts, hexec, hdid, hnodup⟩

theorem icinv_did (h : Args c a n) (hstop : a + n < 2 ^ 32 - CACHELINESIZE)
    (hlines : (covers a n).length ≤ fuel) :
    ∃ c', icinv.exec fuel c = some c' ∧
      Did c c' (if (BitVec.ofNat 32 n).toInt < CACHESIZE / 2 then
          told [iline] (masked c.cpsr) (covers a n)
        else [⟨iall, 0, masked c.cpsr⟩]) := by
  have hcmp := compared_did c n (CACHESIZE / 2)
  have hmasked := hcmp.psr.masked
  have hhead : (Code.straight [second,
      .cmp (.imm (BitVec.ofNat 32 (CACHESIZE / 2))) 1#4]).exec fuel c =
      some (compared c n (CACHESIZE / 2)) := congrArg some (compared_exec h)
  have hge : holds (flags (compared c n (CACHESIZE / 2)).cpsr) 10#4 = true ↔
      ¬ (BitVec.ofNat 32 n).toInt < CACHESIZE / 2 :=
    (ge_iff ..).trans Int.not_lt.symm
  by_cases hn : (BitVec.ofNat 32 n).toInt < CACHESIZE / 2
  · obtain ⟨hr0, hr1⟩ := h.compared (CACHESIZE / 2)
    obtain ⟨c', hexec, hdid⟩ := ends_did [iline] hr0 hr1 hstop hlines
    rw [hmasked] at hdid
    refine ⟨c', seq_exec hhead ?_, ?_⟩
    · rw [branch_passed fun htaken => hge.1 htaken hn]
      exact hexec
    · rw [if_pos hn]
      exact hcmp.trans hdid
  · have hall : Did (compared c n (CACHESIZE / 2))
        (execAll [.mov (.imm 0) 0#4, .mcr iall 0#4] (compared c n (CACHESIZE / 2)))
        [⟨iall, 0, masked (compared c n (CACHESIZE / 2)).cpsr⟩] := zero_did [iall] _
    rw [hmasked] at hall
    rw [if_neg hn]
    refine ⟨_, seq_exec hhead ?_, hcmp.trans hall⟩
    rw [branch_taken (hge.2 hn)]
    rfl

/-- The status that masks them. -/
def splfhi (psr : Word) : Word := psr ||| (PsrDfiq ||| PsrDirq)

/-- Behind `disabling`. -/
def disabled (c : Cpu) (r : Reg) : Cpu :=
  { c with
    regs := Function.update (Function.update c.regs (.core 2#4) c.cpsr) (.core r)
      (splfhi c.cpsr)
    cpsr := splfhi c.cpsr }

/-- Where the loop of `dcwbinv` starts. -/
def ready (c : Cpu) (a n : Nat) : Cpu :=
  disabled { ended c a n with
    regs := Function.update (ended c a n).regs (.core 3#4)
      (BitVec.ofNat 32 (CACHELINESIZE * (a / CACHELINESIZE))) } 4#4

end

/-! ## What the operations reach -/

section
open Kirkwood.Verified.WriteBack
open Kirkwood.Ports.EtherCache (Ether Words)

variable {c : Cpu} {a n fuel : Nat}

/-- What one operation does to the words of the rings.  The l2 cache is in write-through
mode, so that it has what memory has. -/
def apply (e : Ether) (w : Words) (t : Told) : Words :=
  if t.op = cleanline then w.clean (EtherCache.line e) (t.word.toNat / CACHELINESIZE)
  else if t.op = invline then w.discard (t.word.toNat / CACHELINESIZE)
  else if t.op = flushline then w.flush (EtherCache.line e) (t.word.toNat / CACHELINESIZE)
  else w

end

end Kirkwood.Ports.CacheOps
