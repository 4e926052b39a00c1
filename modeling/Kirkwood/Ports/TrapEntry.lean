import Kirkwood.Verified.Arm

/-!
# Exceptions in `l.s`

The code from the vectors to the call of `trap` and back.  An exception leaves the processor
in a mode of its own with its own `R13` and `R14`; `_vswitch` goes back to the mode of the
kernel, where `_vsaveu` makes a `Ureg` on its stack, and `_vrfe` returns with what `trap`
has left there.

## Main results

* `trapping_saved`: the `Ureg` has the registers of the code that was interrupted, and
  nothing but it and sixteen bytes of the exception's stack is written;
* `vrfe_resumed`: the return goes on with the registers of the `Ureg`;
* `trapinit_stacks`, `Stacks.own`: each exception has sixteen bytes of its own in `Mach`;
* `Handler.keeps`: exceptions taken in `trap`, at any depth, keep what its return needs;
* `exception_transparent`: code of the kernel does not see an exception.
-/

namespace Kirkwood.Ports.TrapEntry

open Kirkwood.Verified.Arm

/-! ## mem.h -/

def PsrMfiq : Word := 0x11
def PsrMirq : Word := 0x12
def PsrMsvc : Word := 0x13
def PsrMabt : Word := 0x17
def PsrMund : Word := 0x1B
def PsrMask : Word := 0x1F
def PsrDfiq : Word := 0x00000040
def PsrDirq : Word := 0x00000080

/-! ## l.s -/

/-- `[R0-Rn]` -/
def through (n : Nat) : List Reg := (List.range (n + 1)).map (BitVec.ofNat 4)

/-- The first two instructions at `_vund`, `_vpab`, `_vdab`, `_vfiq` and `_virq`. -/
def vector (type : Word) : List Instr :=
  [.push (through 3) 13#4,
    .mov (.imm type) 0#4]

def vswitch : List Instr :=
  [.fromSpsr 1#4,
    .mov (.reg 14#4) 2#4,
    .mov (.reg 13#4) 3#4,
    .fromCpsr 14#4,
    .alu .bic (.imm PsrMask) 14#4 14#4,
    .alu .orr (.imm (PsrDirq ||| PsrDfiq ||| PsrMsvc)) 14#4 14#4,
    .toCpsr 14#4,
    .pushW (through 2) 13#4,
    .pull 3#4 (through 3)]

/-- `sb` is `$setR12(SB)`. -/
def vsaveu (sb : Word) : List Instr :=
  [.storeW 14#4 (-4) 13#4,
    .alu .sub (.imm 8) 13#4 13#4,
    .pushW (through 12) 13#4,
    .mov (.reg 0#4) 0#4,
    .mov (.imm sb) 12#4,
    .mov (.reg 13#4) 0#4,
    .alu .sub (.imm 8) 13#4 13#4]

def vund : List Instr := vector PsrMund ++ vswitch
def vpab : List Instr := vector PsrMabt ++ vswitch
def vdab : List Instr := vector (PsrMabt + 1) ++ vswitch
def vfiq : List Instr := vector PsrMfiq ++ vswitch
def virq : List Instr := vector PsrMirq ++ vswitch

def vsvc : List Instr :=
  [.storeW 14#4 (-4) 13#4,
    .fromCpsr 14#4,
    .storeW 14#4 (-4) 13#4,
    .alu .bic (.imm PsrMask) 14#4 14#4,
    .alu .orr (.imm (PsrDirq ||| PsrDfiq ||| PsrMsvc)) 14#4 14#4,
    .toCpsr 14#4,
    .mov (.imm PsrMsvc) 14#4,
    .storeW 14#4 (-4) 13#4]

def vrfe : List Instr :=
  [.fromCpsr 0#4,
    .alu .orr (.imm (PsrDirq ||| PsrDfiq)) 0#4 1#4,
    .toCpsr 1#4,
    .alu .add (.imm (8 + 4 * 15)) 13#4 13#4,
    .load 0 13#4 14#4,
    .load 8 13#4 0#4,
    .toSpsr 0#4,
    .pullUser 13#4 (through 14),
    .mov (.reg 0#4) 0#4,
    .alu .add (.imm 12) 13#4 13#4,
    .rfe 13#4]

/-! ## Modes -/

/-- The kernel's mode, with interrupts disabled. -/
def svcPsr (psr : Word) : Word := (psr &&& ~~~PsrMask) ||| (PsrDirq ||| PsrDfiq ||| PsrMsvc)

/-- Another mode. -/
theorem bank_replace {mask : Word} (hmask : mask &&& 0x1F = 0) (psr x : Word) :
    bank ((psr &&& mask) ||| x) = bank x := by
  have hmode : ((psr &&& mask) ||| x) &&& 0x1F = x &&& 0x1F := by
    have hzero : psr &&& (mask &&& 0x1F) = 0 := by
      rw [hmask]
      exact BitVec.and_zero
    rw [BitVec.and_or_distrib_right, BitVec.and_assoc, hzero]
    exact BitVec.zero_or
  unfold bank
  rw [hmode]

theorem bank_svcPsr (psr : Word) : bank (svcPsr psr) = .svc :=
  bank_replace (by decide) psr _

section
variable {c : Cpu} {psr ret addr type : Word}

/-- The registers when the mode of the kernel is entered. -/
def switching (c : Cpu) (psr ret addr type : Word) : Slot → Word :=
  Function.update (Function.update (Function.update (Function.update (Function.update
    (Function.update (Function.update c.regs (.lr (bank psr)) ret) (.core 15#4) addr)
      (.core 0#4) type) (.core 1#4) c.cpsr) (.core 2#4) ret) (.core 3#4)
        (c.regs (.sp (bank psr)))) (.lr (bank psr)) (svcPsr psr)

/-- Memory when `R0` to `R3` are on the stack of the exception. -/
def scratch (c : Cpu) (b : Bank) : Word → Word :=
  storeWords c.mem (below (c.regs (.sp b)) 4)
    [c.regs (.core 0#4), c.regs (.core 1#4), c.regs (.core 2#4), c.regs (.core 3#4)]

theorem vswitch_switching :
    execAll (vector type ++ vswitch.take 7) (c.take psr ret addr) =
      { c with
        regs := switching c psr ret addr type
        cpsr := svcPsr psr
        spsr := Function.update c.spsr (bank psr) c.cpsr
        mem := scratch c (bank psr) } := by
  have hlist : (List.range 4).map (BitVec.ofNat 4) = [0#4, 1#4, 2#4, 3#4] := rfl
  simp [execAll, vector, vswitch, Instr.exec, Cpu.take, Cpu.get, Cpu.set, through, slot,
    Src.read, Alu.eval, switching, scratch, svcPsr, hlist]

/-- Memory when the type, the status and the return address are on the kernel's stack. -/
def typed (mem : Word → Word) (c : Cpu) (ret type : Word) : Word → Word :=
  storeWords mem (below (c.regs (.sp .svc)) 3) [type, c.cpsr, ret]

/-- The four registers come back from the stack of the exception. -/
theorem typed_scratch {b : Bank} (hapart : ∀ x, Within (below (c.regs (.sp b)) 4) 4 x →
    ¬ Within (below (c.regs (.sp .svc)) 3) 3 x) :
    loadWords (typed (scratch c b) c ret type) (below (c.regs (.sp b)) 4) 4 =
      [c.regs (.core 0#4), c.regs (.core 1#4), c.regs (.core 2#4), c.regs (.core 3#4)] := by
  have hframe : loadWords (typed (scratch c b) c ret type) (below (c.regs (.sp b)) 4) 4 =
      loadWords (scratch c b) (below (c.regs (.sp b)) 4) 4 :=
    loadWords_congr fun x hx => storeWords_frame (hapart x hx)
  rw [hframe]
  have hlen : [c.regs (.core 0#4), c.regs (.core 1#4), c.regs (.core 2#4),
      c.regs (.core 3#4)].length < 2 ^ 30 := by
    rw [List.length_cons, List.length_cons, List.length_cons, List.length_singleton]
    decide
  exact load_storeWords hlen

theorem vswitch_eq (hapart : ∀ x, Within (below (c.regs (.sp (bank psr))) 4) 4 x →
      ¬ Within (below (c.regs (.sp .svc)) 3) 3 x) :
    execAll (vector type ++ vswitch) (c.take psr ret addr) =
      { c with
        regs := Function.update (Function.update (Function.update c.regs
          (.lr (bank psr)) (svcPsr psr)) (.core 15#4) addr)
            (.sp .svc) (below (c.regs (.sp .svc)) 3)
        cpsr := svcPsr psr
        spsr := Function.update c.spsr (bank psr) c.cpsr
        mem := typed (scratch c (bank psr)) c ret type } := by
  have hlist : vector type ++ vswitch = vector type ++ vswitch.take 7 ++
      [.pushW (through 2) 13#4, .pull 3#4 (through 3)] := rfl
  have hthree : through 3 = [0#4, 1#4, 2#4, 3#4] := rfl
  have htwo : through 2 = [0#4, 1#4, 2#4] := rfl
  rw [hlist, execAll_append, vswitch_switching]
  have hpush : execAll [.pushW (through 2) 13#4]
      { c with
        regs := switching c psr ret addr type
        cpsr := svcPsr psr
        spsr := Function.update c.spsr (bank psr) c.cpsr
        mem := scratch c (bank psr) } =
      { c with
        regs := Function.update (switching c psr ret addr type) (.sp .svc)
          (below (c.regs (.sp .svc)) 3)
        cpsr := svcPsr psr
        spsr := Function.update c.spsr (bank psr) c.cpsr
        mem := typed (scratch c (bank psr)) c ret type } := by
    simp [execAll, Instr.exec, Cpu.get, Cpu.set, slot, bank_svcPsr, htwo, switching, typed]
  have hpull : [.pushW (through 2) 13#4, .pull 3#4 (through 3)] =
      ([.pushW (through 2) 13#4] ++ [.pull 3#4 (through 3)] : List Instr) := rfl
  rw [hpull, execAll_append, hpush]
  simp only [execAll, List.foldl_cons, List.foldl_nil, Instr.exec]
  simp [Cpu.get, Cpu.setAll, Cpu.set, slot, bank_svcPsr, hthree, switching,
    typed_scratch hapart]
  funext x
  simp only [Function.update_apply]
  grind

/-! ## The `Ureg` -/

/-- `R0` to `R12` -/
def cores (regs : Slot → Word) : List Word := (through 12).map fun n => regs (.core n)

/-- A call of `trap` on the stack of the kernel, whose `R14` was `link`. -/
theorem vsaveu_eq {sb : Word} {t : Cpu} (u link : Word) (hmode : bank t.cpsr = .svc)
    (hsp : t.regs (.sp .svc) = u + 64#32) (hlr : t.regs (.lr .svc) = link) :
    execAll (vsaveu sb) t =
      { t with
        regs := Function.update (Function.update (Function.update t.regs (.core 12#4) sb)
          (.core 0#4) u) (.sp .svc) (u - 8#32)
        mem := storeWords (Function.update t.mem (u + 60#32) link) u (cores t.regs) } := by
  have hlist : through 12 = [0#4, 1#4, 2#4, 3#4, 4#4, 5#4, 6#4, 7#4, 8#4, 9#4, 10#4, 11#4,
    12#4] := rfl
  have hlink : u + 64#32 + 4294967292#32 = u + 60#32 := by bv_omega
  have hureg : u + 60#32 - 8#32 - 52#32 = u := by bv_omega
  simp [execAll, vsaveu, Instr.exec, Cpu.get, Cpu.set, slot, hmode, hsp, hlr, hlist,
    Src.read, Alu.eval, cores, below, hlink, hureg]
  funext x
  simp only [Function.update_apply]
  grind

/-- What the return makes of a `Ureg` at `u`. -/
structure Resumed (t : Cpu) (u : Word) (r : Cpu) : Prop where
  core : cores r.regs = loadWords t.mem u 13
  sp : r.regs (.sp .svc) = u + 76#32
  lr : r.regs (.lr .svc) = t.mem (u + 60#32)
  cpsr : r.cpsr = t.mem (u + 68#32)
  pc : r.regs (.core 15#4) = t.mem (u + 72#32)
  user : [r.regs (.sp .usr), r.regs (.lr .usr)] = loadWords t.mem (u + 52#32) 2
  mem : r.mem = t.mem

theorem bank_or (psr : Word) : bank (psr ||| (PsrDirq ||| PsrDfiq)) = bank psr := by
  have hmode : (psr ||| (PsrDirq ||| PsrDfiq)) &&& 0x1F = psr &&& 0x1F := by
    rw [BitVec.and_or_distrib_right]
    have hzero : (PsrDirq ||| PsrDfiq) &&& 0x1F = 0 := by decide
    rw [hzero]
    exact BitVec.or_zero
  unfold bank
  rw [hmode]

/-- The registers before `MOVM.DB.S`. -/
def loading (t : Cpu) (u : Word) : Slot → Word :=
  Function.update (Function.update (Function.update (Function.update t.regs (.core 0#4)
    (t.mem (u + 68#32))) (.core 1#4) (t.cpsr ||| (PsrDirq ||| PsrDfiq))) (.sp .svc)
      (u + 60#32)) (.lr .svc) (t.mem (u + 60#32))

/-- The registers behind it. -/
def pulled (t : Cpu) (u : Word) : Slot → Word :=
  ({ t with regs := loading t u }.setUser ((through 14).zip (loadWords t.mem u 15))).regs

theorem vrfe_loading {u : Word} {t : Cpu} (hmode : bank t.cpsr = .svc)
    (hsp : t.regs (.sp .svc) = u - 8#32) : execAll (vrfe.take 7) t =
      { t with
        regs := loading t u
        cpsr := t.cpsr ||| (PsrDirq ||| PsrDfiq)
        spsr := Function.update t.spsr .svc (t.mem (u + 68#32)) } := by
  have hlink : u - 8#32 + 68#32 = u + 60#32 := by bv_omega
  simp [execAll, vrfe, Instr.exec, Cpu.get, Cpu.set, slot, hmode, hsp, Src.read,
    Alu.eval, bank_or, BitVec.add_assoc, hlink, loading]
  funext x
  simp only [Function.update_apply]
  grind

theorem vrfe_eq {u : Word} {t : Cpu} (hmode : bank t.cpsr = .svc)
    (hsp : t.regs (.sp .svc) = u - 8#32) : execAll vrfe t =
      { t with
        regs := Function.update (Function.update (pulled t u) (.sp .svc) (u + 76#32))
          (.core 15#4) (t.mem (u + 72#32))
        cpsr := t.mem (u + 68#32)
        spsr := Function.update t.spsr .svc (t.mem (u + 68#32)) } := by
  have hlist : vrfe = vrfe.take 7 ++ vrfe.drop 7 := rfl
  have hregs : through 14 = [0#4, 1#4, 2#4, 3#4, 4#4, 5#4, 6#4, 7#4, 8#4, 9#4, 10#4, 11#4,
    12#4, 13#4, 14#4] := rfl
  have hureg : u + 60#32 - 60#32 = u := by bv_omega
  rw [hlist, execAll_append, vrfe_loading hmode hsp]
  simp [execAll, vrfe, Instr.exec, Cpu.get, Cpu.set, slot, hmode, hregs, Src.read, Alu.eval,
    below, bank_or, Cpu.setUser, loadWords, pulled, loading, BitVec.add_assoc, hureg]
  -- `MOVW R0, R0`
  congr 2
  rw [Function.update_eq_self_iff]
  simp

/-- The end of an exception, when `trap` has come back. -/
theorem vrfe_resumed {u : Word} {t : Cpu} (hmode : bank t.cpsr = .svc)
    (hsp : t.regs (.sp .svc) = u - 8#32) : Resumed t u (execAll vrfe t) := by
  have hregs : through 14 = [0#4, 1#4, 2#4, 3#4, 4#4, 5#4, 6#4, 7#4, 8#4, 9#4, 10#4, 11#4,
    12#4, 13#4, 14#4] := rfl
  have hcores : through 12 = [0#4, 1#4, 2#4, 3#4, 4#4, 5#4, 6#4, 7#4, 8#4, 9#4, 10#4, 11#4,
    12#4] := rfl
  rw [vrfe_eq hmode hsp]
  constructor
  · simp [cores, hcores, pulled, hregs, loadWords, Cpu.setUser, slot, BitVec.add_assoc]
  · simp
  · simp [pulled, hregs, loadWords, Cpu.setUser, slot, loading]
  · rfl
  · simp
  · simp [pulled, hregs, loadWords, Cpu.setUser, slot, BitVec.add_assoc]
  · rfl

end

/-! ## The exceptions -/

inductive Exception where
  | und
  | pab
  | dab
  | irq
  | fiq
  deriving DecidableEq, Repr

namespace Exception

def mode : Exception → Word
  | .und => PsrMund
  | .pab => PsrMabt
  | .dab => PsrMabt
  | .irq => PsrMirq
  | .fiq => PsrMfiq

def type : Exception → Word
  | .dab => PsrMabt + 1
  | e => e.mode

def code : Exception → List Instr
  | .und => vund
  | .pab => vpab
  | .dab => vdab
  | .irq => virq
  | .fiq => vfiq

/-- The status in which the processor takes the exception. -/
def psr (e : Exception) (cpsr : Word) : Word :=
  (cpsr &&& ~~~0x3F) ||| (e.mode ||| PsrDirq ||| if e = .fiq then PsrDfiq else 0)

theorem code_eq (e : Exception) : e.code = vector e.type ++ vswitch := by
  cases e <;> rfl

theorem bank_psr (e : Exception) (cpsr : Word) : bank (e.psr cpsr) = bank e.mode := by
  have hmode := bank_replace (by decide : ~~~0x3F &&& 0x1F = (0 : Word)) cpsr
    (e.mode ||| PsrDirq ||| if e = .fiq then PsrDfiq else 0)
  refine hmode.trans ?_
  cases e <;> decide

theorem bank_ne_svc (e : Exception) (cpsr : Word) : bank (e.psr cpsr) ≠ .svc := by
  rw [bank_psr]
  cases e <;> decide

end Exception

/-- The `Ureg` of a call of `trap`, with what the code that was interrupted had. -/
structure Saved (mem : Word → Word) (u : Word) (c : Cpu) (link type psr pc : Word) :
    Prop where
  core : loadWords mem u 13 = cores c.regs
  link : mem (u + 60#32) = link
  type : mem (u + 64#32) = type
  psr : mem (u + 68#32) = psr
  pc : mem (u + 72#32) = pc

/-- Where the `Ureg` is. -/
def ureg (c : Cpu) : Word := below (c.regs (.sp .svc)) 19

section
variable {c : Cpu} {e : Exception} {ret addr sb : Word}

/-- The state in which `trap` is called. -/
def trapping (e : Exception) (sb ret addr : Word) (c : Cpu) : Cpu :=
  execAll (e.code ++ vsaveu sb) (c.take (e.psr c.cpsr) ret addr)

/-- The stack of the exception is apart from that of the kernel. -/
def Apart (e : Exception) (c : Cpu) : Prop :=
  ∀ x, Within (below (c.regs (.sp (bank e.mode))) 4) 4 x → ¬ Within (ureg c) 19 x

theorem typed_below : below (c.regs (.sp .svc)) 3 = ureg c + 64#32 :=
  (below_add (c.regs (.sp .svc)) 3 16).symm

theorem Apart.top (h : Apart e c) : ∀ x,
    Within (below (c.regs (.sp (bank (e.psr c.cpsr)))) 4) 4 x →
      ¬ Within (below (c.regs (.sp .svc)) 3) 3 x := by
  intro x hx htop
  rw [e.bank_psr] at hx
  rw [typed_below] at htop
  exact h x hx (htop.shift (j := 16) (by decide))

/-- Memory with the whole `Ureg`. -/
def saving (mem : Word → Word) (c : Cpu) (link ret type : Word) : Word → Word :=
  storeWords (Function.update (typed mem c ret type) (ureg c + 60#32) link) (ureg c)
    (cores c.regs)

/-- The state at the call. -/
theorem trapping_eq (h : Apart e c) : trapping e sb ret addr c =
    { c with
      regs := Function.update (Function.update (Function.update (Function.update
        (Function.update (Function.update c.regs (.lr (bank (e.psr c.cpsr)))
          (svcPsr (e.psr c.cpsr))) (.core 15#4) addr) (.sp .svc) (ureg c + 64#32))
            (.core 12#4) sb) (.core 0#4) (ureg c)) (.sp .svc) (ureg c - 8#32)
      cpsr := svcPsr (e.psr c.cpsr)
      spsr := Function.update c.spsr (bank (e.psr c.cpsr)) c.cpsr
      mem :=
        saving (scratch c (bank (e.psr c.cpsr))) c (c.regs (.lr .svc)) ret e.type } := by
  have hlr : (Slot.lr .svc) ≠ .lr (bank (e.psr c.cpsr)) := fun heq =>
    e.bank_ne_svc c.cpsr (Slot.lr.inj heq).symm
  have hcores : through 12 = [0#4, 1#4, 2#4, 3#4, 4#4, 5#4, 6#4, 7#4, 8#4, 9#4, 10#4, 11#4,
    12#4] := rfl
  unfold trapping
  rw [e.code_eq, execAll_append, vswitch_eq h.top, typed_below,
    vsaveu_eq (ureg c) (c.regs (.lr .svc)) (bank_svcPsr _) (by simp) (by simp [hlr])]
  simp [saving, cores, hcores]

theorem cores_length (regs : Slot → Word) : (cores regs).length = 13 := by
  unfold cores
  rw [List.length_map]
  rfl

/-- The three words above the link. -/
theorem typed_words (mem : Word → Word) (c : Cpu) (ret type : Word) :
    typed mem c ret type (ureg c + 64#32) = type ∧
    typed mem c ret type (ureg c + 68#32) = c.cpsr ∧
    typed mem c ret type (ureg c + 72#32) = ret := by
  have hlen : [type, c.cpsr, ret].length < 2 ^ 30 := by
    rw [List.length_cons, List.length_cons, List.length_singleton]
    decide
  have hload : loadWords (typed mem c ret type) (ureg c + 64#32) 3 =
      [type, c.cpsr, ret] := by
    unfold typed
    rw [typed_below]
    exact load_storeWords hlen
  have hsecond : ureg c + 64#32 + 4#32 = ureg c + 68#32 := by
    rw [BitVec.add_assoc]
    rfl
  have hthird : ureg c + 68#32 + 4#32 = ureg c + 72#32 := by
    rw [BitVec.add_assoc]
    rfl
  simpa only [loadWords, hsecond, hthird, List.cons.injEq, and_true] using hload

variable {mem : Word → Word} {link type x : Word}

/-- A word behind the thirteen registers and the link. -/
theorem saving_word {k : Nat} (hk : 15 < k) (hk' : k < 19) :
    saving mem c link ret type (ureg c + BitVec.ofNat 32 (4 * k)) =
      typed mem c ret type (ureg c + BitVec.ofNat 32 (4 * k)) := by
  have hcores : ¬ Within (ureg c) (cores c.regs).length
      (ureg c + BitVec.ofNat 32 (4 * k)) := by
    rw [cores_length]
    exact not_within (by omega) (by omega)
  have hlink : ureg c + BitVec.ofNat 32 (4 * k) ≠ ureg c + 60#32 := by
    intro heq
    have hnat := congrArg BitVec.toNat ((BitVec.add_right_inj (ureg c)).1 heq)
    rw [BitVec.toNat_ofNat, BitVec.toNat_ofNat] at hnat
    omega
  unfold saving
  rw [storeWords_frame hcores, Function.update_of_ne hlink]

theorem saving_saved :
    Saved (saving mem c link ret type) (ureg c) c link type c.cpsr ret := by
  obtain ⟨htype, hpsr, hpc⟩ := typed_words mem c ret type
  have hlen := cores_length c.regs
  constructor
  · have hshort : (cores c.regs).length < 2 ^ 30 := by
      rw [hlen]
      decide
    have hload : loadWords (saving mem c link ret type) (ureg c) (cores c.regs).length =
        cores c.regs := load_storeWords hshort
    rwa [hlen] at hload
  · have hcores : ¬ Within (ureg c) (cores c.regs).length (ureg c + 60#32) := by
      rw [hlen]
      exact not_within (k := 15) (by decide) (by decide)
    unfold saving
    rw [storeWords_frame hcores, Function.update_self]
  · exact (saving_word (k := 16) (by decide) (by decide)).trans htype
  · exact (saving_word (k := 17) (by decide) (by decide)).trans hpsr
  · exact (saving_word (k := 18) (by decide) (by decide)).trans hpc

theorem saving_frame (hx : ¬ Within (ureg c) 19 x) :
    saving mem c link ret type x = mem x := by
  have hcores : ¬ Within (ureg c) (cores c.regs).length x := by
    rw [cores_length]
    rintro ⟨k, hk, rfl⟩
    exact hx (Within.word (by omega))
  have hlink : x ≠ ureg c + 60#32 := by
    rintro rfl
    exact hx (Within.word (k := 15) (by decide))
  have hthree : ¬ Within (below (c.regs (.sp .svc)) 3) 3 x := by
    rw [typed_below]
    exact fun hin => hx (hin.shift (j := 16) (by decide))
  unfold saving typed
  rw [storeWords_frame hcores, Function.update_of_ne hlink]
  exact storeWords_frame hthree

/-- A `Ureg` with the registers of the code that was interrupted,
its status and the return address; of the rest of memory only the sixteen bytes below the
stack of the exception are written. -/
theorem trapping_saved (sb ret addr : Word) (h : Apart e c) :
    (trapping e sb ret addr c).get 0#4 = ureg c ∧
      (trapping e sb ret addr c).get 13#4 = ureg c - 8#32 ∧
      (trapping e sb ret addr c).cpsr = svcPsr (e.psr c.cpsr) ∧
      Saved (trapping e sb ret addr c).mem (ureg c) c (c.regs (.lr .svc)) e.type c.cpsr
        ret ∧
      ∀ x, ¬ Within (ureg c) 19 x → ¬ Within (below (c.regs (.sp (bank e.mode))) 4) 4 x →
        (trapping e sb ret addr c).mem x = c.mem x := by
  have hcpsr : (trapping e sb ret addr c).cpsr = svcPsr (e.psr c.cpsr) := by
    rw [trapping_eq h]
  have hmem : (trapping e sb ret addr c).mem =
      saving (scratch c (bank (e.psr c.cpsr))) c (c.regs (.lr .svc)) ret e.type := by
    rw [trapping_eq h]
  have hr0 : (trapping e sb ret addr c).regs (.core 0#4) = ureg c := by
    rw [trapping_eq h]
    simp
  have hsp : (trapping e sb ret addr c).regs (.sp .svc) = ureg c - 8#32 := by
    rw [trapping_eq h]
    simp
  refine ⟨?_, ?_, hcpsr, ?_, fun x hx hx' => ?_⟩
  · rw [Cpu.get, hcpsr, bank_svcPsr]
    exact hr0
  · rw [Cpu.get, hcpsr, bank_svcPsr]
    exact hsp
  · rw [hmem]
    exact saving_saved
  · rw [← e.bank_psr c.cpsr] at hx'
    rw [hmem, saving_frame hx]
    exact storeWords_frame hx'

/-- What `trap` keeps of the `Ureg`, when the code that was interrupted goes on. -/
structure Kept (u : Word) (s t : Cpu) : Prop where
  mode : bank t.cpsr = .svc
  sp : t.regs (.sp .svc) = s.regs (.sp .svc)
  core : loadWords t.mem u 13 = loadWords s.mem u 13
  link : t.mem (u + 60#32) = s.mem (u + 60#32)
  psr : t.mem (u + 68#32) = s.mem (u + 68#32)

theorem cores_inj {f g : Slot → Word} (h : cores f = cores g) {n : Reg}
    (hn : n.toNat < 13) : f (.core n) = g (.core n) := by
  refine List.map_inj_left.1 h n (List.mem_map.2 ⟨n.toNat, List.mem_range.2 hn, ?_⟩)
  exact BitVec.ofNat_toNat ..

theorem Kept.resumed {t : Cpu} (h : Apart e c) (hmode : bank c.cpsr = .svc)
    (ht : Kept (ureg c) (trapping e sb ret addr c) t) :
    (∀ n, n ≠ 15#4 → (execAll vrfe t).get n = c.get n) ∧ (execAll vrfe t).cpsr = c.cpsr ∧
      (execAll vrfe t).regs (.core 15#4) = t.mem (ureg c + 72#32) ∧
      (execAll vrfe t).mem = t.mem := by
  obtain ⟨-, hget, hcpsr, hsaved, -⟩ := trapping_saved sb ret addr h
  have hsp : t.regs (.sp .svc) = ureg c - 8#32 := by
    rw [Cpu.get, hcpsr, bank_svcPsr] at hget
    exact ht.sp.trans hget
  have hresumed := vrfe_resumed ht.mode hsp
  have hstatus : (execAll vrfe t).cpsr = c.cpsr :=
    hresumed.cpsr.trans (ht.psr.trans hsaved.psr)
  have hcores := hresumed.core.trans (ht.core.trans hsaved.core)
  refine ⟨fun n hn => ?_, hstatus, hresumed.pc, hresumed.mem⟩
  rw [Cpu.get, Cpu.get, hstatus, hmode]
  by_cases h13 : n = 13#4
  · subst h13
    have htop : ureg c + 76#32 = c.regs (.sp .svc) := by
      unfold ureg below
      bv_omega
    exact hresumed.sp.trans htop
  · by_cases h14 : n = 14#4
    · subst h14
      exact hresumed.lr.trans (ht.link.trans hsaved.link)
    · rw [slot_svc h13 h14]
      refine cores_inj hcores ?_
      bv_omega

/-! ## The stacks of the exceptions -/

/-- `4(FP)` is the second argument. -/
def setr13 : List Instr :=
  [.load 8 13#4 1#4,
    .fromCpsr 2#4,
    .alu .bic (.imm PsrMask) 2#4 3#4,
    .alu .orr (.reg 0#4) 3#4 3#4,
    .toCpsr 3#4,
    .mov (.reg 13#4) 0#4,
    .mov (.reg 1#4) 13#4,
    .toCpsr 2#4]

/-- The call `setr13(mode, sp)`. -/
def callSetr13 (mode sp : Word) (c : Cpu) : Cpu :=
  execAll setr13
    { c.set 0#4 mode with mem := Function.update c.mem (c.get 13#4 + 8#32) sp }

/-- What `trapinit` does first; `m->fiqstack` is the first of the four. -/
def trapinit (fiqstack : Word) (c : Cpu) : Cpu :=
  callSetr13 PsrMund (fiqstack + 64#32) (callSetr13 PsrMabt (fiqstack + 48#32)
    (callSetr13 PsrMirq (fiqstack + 32#32) (callSetr13 PsrMfiq (fiqstack + 16#32) c)))

/-- Each exception has four words of its own. -/
structure Stacks (fiqstack : Word) (c : Cpu) : Prop where
  fiq : c.regs (.sp .fiq) = fiqstack + 16#32
  irq : c.regs (.sp .irq) = fiqstack + 32#32
  abt : c.regs (.sp .abt) = fiqstack + 48#32
  und : c.regs (.sp .und) = fiqstack + 64#32

theorem callSetr13_eq (e : Exception) (sp : Word) (hmode : bank c.cpsr = .svc) :
    bank (callSetr13 e.mode sp c).cpsr = .svc ∧
      (callSetr13 e.mode sp c).get 0#4 = c.regs (.sp (bank e.mode)) ∧
      ∀ b, (callSetr13 e.mode sp c).regs (.sp b) =
        if b = bank e.mode then sp else c.regs (.sp b) := by
  have hbank : bank ((c.cpsr &&& ~~~PsrMask) ||| e.mode) = bank e.mode :=
    bank_replace (by decide) ..
  simp [callSetr13, execAll, setr13, Instr.exec, Cpu.get, Cpu.set, slot, hmode, Src.read,
    Alu.eval, hbank, Function.update_apply]

theorem trapinit_stacks {fiqstack : Word} (hmode : bank c.cpsr = .svc) :
    bank (trapinit fiqstack c).cpsr = .svc ∧ Stacks fiqstack (trapinit fiqstack c) ∧
      (trapinit fiqstack c).regs (.sp .svc) = c.regs (.sp .svc) := by
  obtain ⟨hfiq, -, hfiqs⟩ := callSetr13_eq .fiq (fiqstack + 16#32) hmode
  obtain ⟨hirq, -, hirqs⟩ := callSetr13_eq .irq (fiqstack + 32#32) hfiq
  obtain ⟨habt, -, habts⟩ := callSetr13_eq .pab (fiqstack + 48#32) hirq
  obtain ⟨hund, -, hunds⟩ := callSetr13_eq .und (fiqstack + 64#32) habt
  have hsp : ∀ b, (trapinit fiqstack c).regs (.sp b) = _ := fun b =>
    (hunds b).trans (by rw [habts b, hirqs b, hfiqs b])
  refine ⟨hund, ⟨?_, ?_, ?_, ?_⟩, ?_⟩
  · exact (hsp .fiq).trans rfl
  · exact (hsp .irq).trans rfl
  · exact (hsp .abt).trans rfl
  · exact (hsp .und).trans rfl
  · exact (hsp .svc).trans rfl

/-- The place of its stack in `Mach`. -/
def Exception.place : Exception → Nat
  | .fiq => 0
  | .irq => 1
  | .pab => 2
  | .dab => 2
  | .und => 3

theorem Stacks.below_eq {fiqstack : Word} (h : Stacks fiqstack c) (e : Exception) :
    below (c.regs (.sp (bank e.mode))) 4 =
      fiqstack + BitVec.ofNat 32 (4 * (4 * e.place)) := by
  have hsp : c.regs (.sp (bank e.mode)) =
      fiqstack + BitVec.ofNat 32 (4 * (4 * e.place)) + 16#32 := by
    rw [BitVec.add_assoc]
    cases e with
    | und => exact h.und
    | pab => exact h.abt
    | dab => exact h.abt
    | irq => exact h.irq
    | fiq => exact h.fiq
  rw [hsp]
  exact BitVec.add_sub_cancel ..

/-- Sixteen words hold them. -/
theorem Stacks.apart {fiqstack : Word} (h : Stacks fiqstack c)
    (hureg : ∀ x, Within fiqstack 16 x → ¬ Within (ureg c) 19 x) (e : Exception) :
    Apart e c := by
  intro x hx
  rw [h.below_eq] at hx
  have hplace : e.place < 4 := by cases e <;> decide
  exact hureg x (hx.shift (by omega))

/-- No two exceptions share a stack, but for the two aborts. -/
theorem Stacks.own {fiqstack x : Word} (h : Stacks fiqstack c) {e e' : Exception}
    (hne : e.place ≠ e'.place) (hx : Within (below (c.regs (.sp (bank e.mode))) 4) 4 x) :
    ¬ Within (below (c.regs (.sp (bank e'.mode))) 4) 4 x := by
  rw [h.below_eq] at hx ⊢
  have hplace : e.place < 4 := by cases e <;> decide
  have hplace' : e'.place < 4 := by cases e' <;> decide
  obtain ⟨k, hk, rfl⟩ := hx
  rintro ⟨j, hj, heq⟩
  rw [BitVec.add_assoc, BitVec.add_assoc, BitVec.add_right_inj, ← BitVec.ofNat_add,
    ← BitVec.ofNat_add] at heq
  have hnat := congrArg BitVec.toNat heq
  rw [BitVec.toNat_ofNat, BitVec.toNat_ofNat] at hnat
  omega

/-- Neither the code up to the call of `trap` nor the return moves them. -/
theorem Stacks.trapping {fiqstack : Word} (h : Stacks fiqstack c) (sb ret addr : Word)
    (hapart : Apart e c) : Stacks fiqstack (trapping e sb ret addr c) := by
  rw [trapping_eq hapart]
  constructor
  · simpa using h.fiq
  · simpa using h.irq
  · simpa using h.abt
  · simpa using h.und

theorem Stacks.vrfe {fiqstack u : Word} {t : Cpu} (h : Stacks fiqstack t)
    (hmode : bank t.cpsr = .svc) (hsp : t.regs (.sp .svc) = u - 8#32) :
    Stacks fiqstack (execAll vrfe t) := by
  have hregs : through 14 = [0#4, 1#4, 2#4, 3#4, 4#4, 5#4, 6#4, 7#4, 8#4, 9#4, 10#4, 11#4,
    12#4, 13#4, 14#4] := rfl
  rw [vrfe_eq hmode hsp]
  constructor
  · simpa [pulled, hregs, loadWords, Cpu.setUser, slot, loading] using h.fiq
  · simpa [pulled, hregs, loadWords, Cpu.setUser, slot, loading] using h.irq
  · simpa [pulled, hregs, loadWords, Cpu.setUser, slot, loading] using h.abt
  · simpa [pulled, hregs, loadWords, Cpu.setUser, slot, loading] using h.und

/-! ## Exceptions in `trap` -/

/-- The words of a `Ureg` that the return needs, but for `ureg->pc`. -/
def Needed (u x : Word) : Prop := Within u 13 x ∨ x = u + 60#32 ∨ x = u + 68#32

/-- Neither the next `Ureg` nor the stack of the exception has a word of `P`. -/
def Room (P : Word → Prop) (e : Exception) (c : Cpu) : Prop :=
  ∀ x, P x → ¬ Within (ureg c) 19 x ∧ ¬ Within (below (c.regs (.sp (bank e.mode))) 4) 4 x

/-- Code of the kernel that keeps the words of `P`, with the exceptions that are taken in
it: their `trap` keeps what their return needs, too, and ends with the stack as it was. -/
inductive Handler (sb : Word) : (Word → Prop) → Cpu → Cpu → Prop
  | done (P : Word → Prop) (s : Cpu) : Handler sb P s s
  | code {P : Word → Prop} {s t r : Cpu} (mode : bank t.cpsr = .svc)
      (keeps : ∀ x, P x → t.mem x = s.mem x) (rest : Handler sb P t r) : Handler sb P s r
  | exception {P : Word → Prop} {s t r : Cpu} (e : Exception) (ret addr : Word)
      (mode : bank s.cpsr = .svc) (apart : Apart e s) (room : Room P e s)
      (trap : Handler sb (fun x => P x ∨ Needed (ureg s) x) (trapping e sb ret addr s) t)
      (sp : t.regs (.sp .svc) = (trapping e sb ret addr s).regs (.sp .svc))
      (rest : Handler sb P (execAll vrfe t) r) : Handler sb P s r

/-- What is kept of the words that the return needs. -/
theorem Kept.of_needed {u : Word} {s t : Cpu} (hmode : bank t.cpsr = .svc)
    (hsp : t.regs (.sp .svc) = s.regs (.sp .svc))
    (hmem : ∀ x, Needed u x → t.mem x = s.mem x) : Kept u s t where
  mode := hmode
  sp := hsp
  core := loadWords_congr fun _ hx => hmem _ (.inl hx)
  link := hmem _ (.inr (.inl rfl))
  psr := hmem _ (.inr (.inr rfl))

theorem bank_trapping (sb ret addr : Word) (h : Apart e c) :
    bank (trapping e sb ret addr c).cpsr = .svc := by
  rw [(trapping_saved sb ret addr h).2.2.1]
  exact bank_svcPsr _

/-- At any depth of exceptions. -/
theorem Handler.keeps {P : Word → Prop} {s r : Cpu} (h : Handler sb P s r)
    (hmode : bank s.cpsr = .svc) : bank r.cpsr = .svc ∧ ∀ x, P x → r.mem x = s.mem x := by
  induction h with
  | done P s => exact ⟨hmode, fun _ _ => rfl⟩
  | code mode keeps rest ih =>
      obtain ⟨hend, hmem⟩ := ih mode
      exact ⟨hend, fun x hx => (hmem x hx).trans (keeps x hx)⟩
  | exception e ret addr mode apart room trap sp rest ihtrap ihrest =>
      obtain ⟨htrap, hinner⟩ := ihtrap (bank_trapping sb ret addr apart)
      obtain ⟨-, -, -, -, hframe⟩ := trapping_saved sb ret addr apart
      have hkept := Kept.of_needed htrap sp fun x hx => hinner x (.inr hx)
      obtain ⟨-, hcpsr, -, hvrfe⟩ := hkept.resumed apart mode
      obtain ⟨hend, hmem⟩ := ihrest (by rw [hcpsr]; exact mode)
      refine ⟨hend, fun x hx => ?_⟩
      obtain ⟨hureg, hstack⟩ := room x hx
      rw [hmem x hx, hvrfe, hinner x (.inl hx), hframe x hureg hstack]

/-- **Exceptions do not show.** `trap` is given a `Ureg` with the registers of the code of
the kernel that was interrupted, and of the rest of memory only the words of the exception
in `Mach` are written.  After the return, whatever exceptions were taken in `trap`, this
code goes on with its registers and its status as they were, where `ureg->pc` says. -/
theorem exception_transparent {fiqstack : Word} (sb ret addr : Word)
    (hmode : bank c.cpsr = .svc) (hstacks : Stacks fiqstack c)
    (hureg : ∀ x, Within fiqstack 16 x → ¬ Within (ureg c) 19 x) :
    (trapping e sb ret addr c).get 0#4 = ureg c ∧
      Saved (trapping e sb ret addr c).mem (ureg c) c (c.regs (.lr .svc)) e.type c.cpsr
        ret ∧
      (∀ x, ¬ Within (ureg c) 19 x →
        ¬ Within (fiqstack + BitVec.ofNat 32 (4 * (4 * e.place))) 4 x →
          (trapping e sb ret addr c).mem x = c.mem x) ∧
      Stacks fiqstack (trapping e sb ret addr c) ∧
      ∀ t, Handler sb (Needed (ureg c)) (trapping e sb ret addr c) t →
        t.regs (.sp .svc) = (trapping e sb ret addr c).regs (.sp .svc) →
        (∀ n, n ≠ 15#4 → (execAll vrfe t).get n = c.get n) ∧
          (execAll vrfe t).cpsr = c.cpsr ∧
          (execAll vrfe t).regs (.core 15#4) = t.mem (ureg c + 72#32) ∧
          (execAll vrfe t).mem = t.mem ∧
          (Stacks fiqstack t → Stacks fiqstack (execAll vrfe t)) := by
  have h : Apart e c := hstacks.apart hureg e
  have hmid := bank_trapping sb ret addr h
  obtain ⟨hr0, hr13, -, hsaved, hframe⟩ := trapping_saved sb ret addr h
  rw [hstacks.below_eq] at hframe
  refine ⟨hr0, hsaved, hframe, hstacks.trapping sb ret addr h, fun t ht hsp => ?_⟩
  obtain ⟨hend, hmem⟩ := ht.keeps hmid
  have htop : t.regs (.sp .svc) = ureg c - 8#32 := by
    rw [Cpu.get, hmid] at hr13
    exact hsp.trans hr13
  obtain ⟨hregs, hcpsr, hpc, hvrfe⟩ := (Kept.of_needed hend hsp hmem).resumed h hmode
  exact ⟨hregs, hcpsr, hpc, hvrfe, fun hst => hst.vrfe hend htop⟩

/-! ## `_vsvc` -/

theorem vsvc_eq (hmode : bank c.cpsr = .svc) : execAll vsvc c =
    { c with
      regs := Function.update (Function.update c.regs (.lr .svc) PsrMsvc) (.sp .svc)
        (ureg c + 64#32)
      cpsr := svcPsr c.cpsr
      mem := typed c.mem c (c.regs (.lr .svc)) PsrMsvc } := by
  have hstatus : (c.cpsr &&& ~~~PsrMask) ||| (PsrDirq ||| PsrDfiq ||| PsrMsvc) =
      svcPsr c.cpsr := rfl
  have hfirst : c.regs (.sp .svc) + 4294967292#32 = ureg c + 72#32 := by
    unfold ureg below
    bv_omega
  have hsecond : ureg c + 72#32 + 4294967292#32 = ureg c + 68#32 := by bv_omega
  have hthird : ureg c + 68#32 + 4294967292#32 = ureg c + 64#32 := by bv_omega
  have hpsr : ureg c + 64#32 + 4#32 = ureg c + 68#32 := by bv_omega
  have hpc : ureg c + 68#32 + 4#32 = ureg c + 72#32 := by bv_omega
  have hne : ureg c + 68#32 ≠ ureg c + 72#32 := by bv_omega
  have hne' : ureg c + 64#32 ≠ ureg c + 72#32 := by bv_omega
  have hne'' : ureg c + 64#32 ≠ ureg c + 68#32 := by bv_omega
  simp [execAll, vsvc, Instr.exec, Cpu.get, Cpu.set, slot, hmode, Src.read, Alu.eval, typed,
    typed_below, storeWords, hpsr, hpc, hstatus, bank_svcPsr, hfirst, hsecond, hthird]
  refine ⟨?_, ?_⟩
  · funext r
    simp only [Function.update_apply]
    grind
  · -- the listing stores from the top
    rw [Function.update_comm hne'', Function.update_comm hne', Function.update_comm hne]

/-- A jump through 0, a reset or `SWI`.  `CPSR` is stored as it is after the exception, not
what `SPSR` has. -/
theorem vsvc_saved (sb : Word) (hmode : bank c.cpsr = .svc) :
    Saved (execAll (vsvc ++ vsaveu sb) c).mem (ureg c) c PsrMsvc PsrMsvc c.cpsr
        (c.regs (.lr .svc)) ∧
      ∀ x, ¬ Within (ureg c) 19 x → (execAll (vsvc ++ vsaveu sb) c).mem x = c.mem x := by
  have hmem : (execAll (vsvc ++ vsaveu sb) c).mem =
      saving c.mem c PsrMsvc (c.regs (.lr .svc)) PsrMsvc := by
    rw [execAll_append, vsvc_eq hmode, vsaveu_eq (ureg c) PsrMsvc (bank_svcPsr _) (by simp)
      (by simp)]
    simp [saving, cores, through]
  rw [hmem]
  exact ⟨saving_saved, fun x hx => saving_frame hx⟩

/-! ## An interrupt -/

/-- The kernel behind `trapinit`. -/
def kernel : Cpu :=
  trapinit 0x1040
    { regs := fun r => if r = .sp .svc then 0x8000 else 0
      cpsr := PsrDirq ||| PsrDfiq ||| PsrMsvc
      spsr := fun _ => 0
      mem := fun _ => 0
      told := [] }

theorem kernel_stacks : bank kernel.cpsr = .svc ∧ Stacks 0x1040 kernel ∧
    kernel.regs (.sp .svc) = 0x8000 :=
  trapinit_stacks rfl

/-- Words below `b` are none from `b` on. -/
theorem within_below {a b x : Word} {m n : Nat} (hab : a.toNat + 4 * m ≤ b.toNat)
    (hb : b.toNat + 4 * n ≤ 2 ^ 32) (hx : Within a m x) : ¬ Within b n x := by
  have hlow := hx.range (by omega)
  intro hx'
  have hhigh := hx'.range hb
  omega

theorem kernel_ureg_eq : ureg kernel = 0x7fb4 := by
  unfold ureg
  rw [kernel_stacks.2.2]
  decide

theorem kernel_ureg : ∀ x, Within 0x1040 16 x → ¬ Within (ureg kernel) 19 x := by
  intro x
  rw [kernel_ureg_eq]
  exact within_below (by decide) (by decide)

/-- `ureg->pc` is not among the words that are kept. -/
theorem pc_not_needed (u : Word) : ¬ Needed u (u + 72#32) := by
  rintro (hcore | hlink | hpsr)
  · exact not_within (n := 13) (k := 18) (by decide) (by decide) hcore
  · bv_omega
  · bv_omega

/-- `ureg->pc` set. -/
def setPc (s : Cpu) (u pc : Word) : Cpu :=
  { s with mem := Function.update s.mem (u + 72#32) pc }

theorem setPc_regs (s : Cpu) (u pc : Word) (r : Slot) :
    (setPc s u pc).regs r = s.regs r :=
  rfl

theorem setPc_handler (sb pc : Word) {P : Word → Prop} {u : Word} {s : Cpu}
    (hmode : bank s.cpsr = .svc) (hpc : ¬ P (u + 72#32)) : Handler sb P s (setPc s u pc) := by
  have hkeeps : ∀ x, P x → (setPc s u pc).mem x = s.mem x := by
    intro x hx
    refine Function.update_of_ne ?_ ..
    rintro rfl
    exact hpc hx
  exact .code (t := setPc s u pc) hmode hkeeps (.done _ _)

theorem setPc_pc (s : Cpu) (u pc : Word) : (setPc s u pc).mem (u + 72#32) = pc :=
  Function.update_self ..

theorem Needed.within {u x : Word} (h : Needed u x) : Within u 19 x := by
  rcases h with ⟨k, hk, rfl⟩ | rfl | rfl
  · exact Within.word (by omega)
  · exact Within.word (k := 15) (by decide)
  · exact Within.word (k := 17) (by decide)

/-- In `trap` for an interrupt. -/
def handling : Cpu := trapping .irq 0 0x104 0x18 kernel

theorem handling_ureg : bank handling.cpsr = .svc ∧ Stacks 0x1040 handling ∧
    ureg handling = 0x7f60 := by
  obtain ⟨-, hstacks, -⟩ := kernel_stacks
  have hapart := hstacks.apart kernel_ureg .irq
  have hmode := bank_trapping 0 0x104 0x18 hapart
  obtain ⟨-, hsp, -⟩ := trapping_saved 0 0x104 0x18 hapart
  refine ⟨hmode, hstacks.trapping 0 0x104 0x18 hapart, ?_⟩
  rw [Cpu.get, hmode, kernel_ureg_eq] at hsp
  have hsvc : handling.regs (.sp .svc) = 0x7fac := hsp
  unfold ureg
  rw [hsvc]
  decide

/-- There, a fast interrupt that goes back to where it came from, and then the return. -/
theorem nested_handler : ∃ t, Handler 0 (Needed (ureg kernel)) handling t ∧
    t.regs (.sp .svc) = handling.regs (.sp .svc) ∧ t.mem (ureg kernel + 72#32) = 0x100 := by
  obtain ⟨hmode, hstacks, hureg⟩ := handling_ureg
  have hwords : ∀ x, Within 0x1040 16 x → ¬ Within (ureg handling) 19 x := by
    intro x
    rw [hureg]
    exact within_below (by decide) (by decide)
  have hapart : Apart .fiq handling := hstacks.apart hwords .fiq
  have hroom : Room (Needed (ureg kernel)) .fiq handling := by
    intro x hx
    have hin := hx.within
    rw [kernel_ureg_eq] at hin
    rw [hstacks.below_eq, hureg]
    exact ⟨fun h => within_below (by decide) (by decide) h hin,
      fun h => within_below (by decide) (by decide) h hin⟩
  have hfiq := bank_trapping 0 0x204 0x1c hapart
  have hpc : ¬ (Needed (ureg kernel) (ureg handling + 72#32) ∨
      Needed (ureg handling) (ureg handling + 72#32)) := by
    rintro (hin | hin)
    · exact (hroom _ hin).1 (Within.word (k := 18) (by decide))
    · exact pc_not_needed _ hin
  have htrap := setPc_handler 0 0x200 (u := ureg handling)
    (P := fun x => Needed (ureg kernel) x ∨ Needed (ureg handling) x) hfiq hpc
  have hkept : Kept (ureg handling) (trapping .fiq 0 0x204 0x1c handling)
      (setPc (trapping .fiq 0 0x204 0x1c handling) (ureg handling) 0x200) :=
    Kept.of_needed (htrap.keeps hfiq).1 (setPc_regs ..) fun x hx =>
      (htrap.keeps hfiq).2 x (.inr hx)
  obtain ⟨hget, hcpsr, -, -⟩ := hkept.resumed hapart hmode
  have hback := (congrArg bank hcpsr).trans hmode
  have hsp := hget 13#4 (by decide)
  rw [Cpu.get, Cpu.get, hback, hmode] at hsp
  exact ⟨_, .exception .fiq 0x204 0x1c hmode hapart hroom htrap (setPc_regs ..)
    (setPc_handler 0 0x100 hback (pc_not_needed _)), (setPc_regs ..).trans hsp,
    setPc_pc ..⟩

/-- Back at the instruction that was interrupted, with its registers. -/
theorem irq_transparent : ∃ t, Handler 0 (Needed (ureg kernel)) handling t ∧
    (execAll vrfe t).regs (.core 15#4) = 0x100 ∧
    ∀ n, n ≠ 15#4 → (execAll vrfe t).get n = kernel.get n := by
  obtain ⟨hmode, hstacks, -⟩ := kernel_stacks
  obtain ⟨t, ht, hsp, hpc⟩ := nested_handler
  obtain ⟨-, -, -, -, hresume⟩ :=
    exception_transparent (e := .irq) 0 0x104 0x18 hmode hstacks kernel_ureg
  obtain ⟨hregs, -, hback, -, -⟩ := hresume t ht hsp
  exact ⟨t, ht, hback.trans hpc, hregs⟩

end

end Kirkwood.Ports.TrapEntry
