import Kirkwood.Ports.FpEmuRun
import Kirkwood.Ports.TrapEntry
import Kirkwood.Verified.FpaRegs

/-!
# Floating point on a processor without it

`trap` of `trap.c` between the code of `l.s` that calls it and `fpiarm`.  An instruction of
the coprocessor takes the exception for undefined instructions; `trap` lets `fpiarm` perform
it, and those that follow, on the `Ureg`.

`ureg->sp`, `up->pc` and `up->dbgreg` are set for the debugger alone and are not part of the
model, nor is what is printed.

## Main results

* `undefined_ends`: how `trap` ends after an undefined instruction;
* `emulated`: the processor goes on as if it had the coprocessor.

`fpiarm` has the stack pointer at `ureg->type`, and takes `ureg->r14` for `R14`; `_vsaveu`
saves the link of the kernel's mode elsewhere.  So code whose instructions use `R14`, or set
`R13`, is not emulated right, and `trap` finds no type for the name of the exception.
-/

namespace Kirkwood.Ports.FpTrap

open Kirkwood.Verified.Arm
open Kirkwood.Verified.Outcome
open Kirkwood.Ports.FpiArm
open Kirkwood.Ports.TrapEntry
open Kirkwood.Ports.FpEmu (FPenv Lib Machine Off arith entry fpiarm fpinit getulong lux
  lux8)
open Kirkwood.Verified
open Kirkwood.Verified.Fpa (State isFpa issued)

/-! ## trap.c -/

def BREAK : Word := 0xE6BAD010

/-- `waslo(sr)` -/
def waslo (sr : Word) : Bool := sr &&& (PsrDirq ||| PsrDfiq) = 0

def PsrMsys : Word := 0x1F

def trapnames (x : Word) : Option String :=
  if x = PsrMfiq then some "Fiq interrupt"
  else if x = PsrMirq then some "Mirq interrupt"
  else if x = PsrMsvc then some "SVC/SWI Exception"
  else if x = PsrMabt then some "Prefetch Abort/Data Abort"
  else if x = PsrMabt + 1 then some "Data Abort"
  else if x = PsrMund then some "Undefined instruction"
  else if x = PsrMsys then some "Sys trap"
  else none

def trapname (psr : Word) : String :=
  (trapnames (psr &&& PsrMask)).getD "Undefined trap"

/-- The error of `sys_trap_error`. -/
def sys_trap_error (type : Word) : String := "sys: trap: " ++ trapname type ++ "\n"

/-- A process: its address, `text`, `kstack`, and whether `type` is `Interp`. -/
structure Proc where
  addr : Word
  text : String
  kstack : Word
  interp : Bool

/-- `up`, `m->stack` and what `trap` calls, with what that does to the machine: `intrs` and
the scheduler behind it, and the handlers of a debugger.  Whatever `breakhandler` asks for,
`trap` comes back. -/
structure Kernel where
  up : Option Proc
  stack : Word
  intrs : Machine → Machine
  breakhandler : Option (Machine → Machine)
  catchdbg : Option (Machine → Machine × Bool)

/-- How `trap` ends: by its return, in `disfault`, or otherwise. -/
inductive End where
  | back
  | disfault (msg : String)
  | stop (e : Exn)
  deriving DecidableEq, Repr

/-- `rem` -/
def rem (k : Kernel) (ureg : Word) : Int :=
  match k.up with
  | some p => (ureg - p.kstack).toInt
  | none => (ureg - k.stack).toInt

/-- The panic for a stack that is too small. -/
def overflow (k : Kernel) (ureg : Word) (m : Machine) : Exn :=
  let n := toString (rem k ureg)
  let text := (k.up.map Proc.text).getD ""
  let up := lux8 ((k.up.map Proc.addr).getD 0)
  .panic ("trap " ++ n ++ " bytes remaining (" ++ text ++ "), up=#" ++ up ++ " ureg=#" ++
    lux8 ureg ++ " pc=#" ++ lux8 (m.ur .pc))

def faultpanic (m : Machine) : Machine × End :=
  (m, .stop (.panic ("exception " ++ (lux (m.ur .type)).toUpper ++ " " ++
    trapname (m.ur .type) ++ "\n")))

/-- `waserror()` of the undefined instructions. -/
def caught (p : Proc) (m : Machine) (errstr : String) : Machine × End :=
  if waslo (m.ur .psr) && p.interp then (m, .disfault errstr)
  else (m, .stop (.panic errstr))

section
variable (lib : Lib) (fuel : Nat) (k : Kernel) (ureg : Word) (m : Machine)

/-- `case PsrMund` -/
def trapUnd : Machine × End :=
  match getulong m.mem (m.ur .pc) with
  | .error e => (m, .stop e)
  | .ok op =>
      match if op = BREAK then k.breakhandler else none with
      | some handler => (handler m, .back)
      | none =>
          match k.up with
          | none => faultpanic m
          | some p =>
              match fpiarm lib fuel (ureg + 76#32) true m with
              | .ok 0 m => caught p m (sys_trap_error (m.ur .type))
              | .ok _ m => (m, .back)
              | .error (.error msg) m => caught p m msg
              | .error e m => (m, .stop e)

/-- `case PsrMsvc` -/
def trapSvc : Machine × End :=
  if waslo (m.ur .psr) && k.up.any Proc.interp then
    (m, .stop (.error (sys_trap_error (m.ur .type))))
  else (m, .stop (.panic "SVC/SWI exception"))

/-- `case PsrMabt` -/
def trapAbt : Machine × End :=
  match k.catchdbg with
  | none => faultpanic m
  | some catchdbg =>
      match catchdbg m with
      | (m, true) => (m, .back)
      | (m, false) => faultpanic m

def trap : Machine × End :=
  let itype := m.ur .type
  if itype ≠ PsrMfiq ∧ rem k ureg < 256 then (m, .stop (overflow k ureg m))
  else
    let back : Word := if itype = PsrMabt + 1 then 8 else 4
    let m := { m with ur := Function.update m.ur .pc (m.ur .pc - back) }
    if itype = PsrMirq then (k.intrs m, .back)
    else if itype = PsrMund then trapUnd lib fuel k ureg m
    else if itype = PsrMsvc then trapSvc k m
    else if itype = PsrMabt then trapAbt k m
    else faultpanic m

end

/-! ## On the processor -/

/-- The place of a member in a `Ureg`. -/
def place : Off → Nat
  | .r i => i
  | .r14 => 14
  | .type => 16
  | .psr => 17
  | .pc => 18

def member (u : Word) (o : Off) : Word := u + BitVec.ofNat 32 (4 * place o)

/-- The memory that there is. -/
def view (mapped : Word → Bool) (mem : Word → Word) (a : Word) : Option Word :=
  if mapped a then some (mem a) else none

/-- What `trap` is given. -/
def machine (mapped : Word → Bool) (ufp : FPenv) (u : Word) (mem : Word → Word) :
    Machine where
  ur o := mem (member u o)
  ufp := ufp
  mem := view mapped mem

/-- The processor together with a coprocessor that has what is in the `FPenv`. -/
def fpa (mapped : Word → Bool) (c : Cpu) (ufp : FPenv) : State Internal where
  r := c.get
  flags := flags c.cpsr
  f := ufp.regs
  fpsr := ufp.status
  fpcr := ufp.control
  mem := view mapped c.mem

/-- From `s`, where `trap` is called, to `t`, where it has come back with `m`; the words
below the `Ureg` are those of its stack. -/
structure Returned (mapped : Word → Bool) (u : Word) (s : Cpu) (m : Machine) (t : Cpu) :
    Prop where
  mode : bank t.cpsr = .svc
  sp : t.regs (.sp .svc) = s.regs (.sp .svc)
  ur : ∀ o, t.mem (member u o) = m.ur o
  link : t.mem (u + 60#32) = s.mem (u + 60#32)
  mem : ∀ a, mapped a = true → some (t.mem a) = m.mem a

/-! ## An undefined instruction -/

section
variable {lib : Lib} {fuel : Nat} {k : Kernel} {u : Word} {m : Machine}

theorem entry_pc : (entry (u + 76#32) m).state.pc = m.ur .pc := by
  show Function.update m.ur .type (u + 76#32) .pc = m.ur .pc
  rw [Function.update_of_ne (by decide)]

theorem fetch_fpa {op : Word} (h : Fpa.fetch (entry (u + 76#32) m).state.mem
    (entry (u + 76#32) m).state.pc = .ok op) : getulong m.mem (m.ur .pc) = .ok op := by
  rw [entry_pc] at h
  have hmem : (entry (u + 76#32) m).state.mem = m.mem := rfl
  rw [hmem] at h
  unfold Fpa.fetch at h
  unfold getulong
  cases hword : m.mem (m.ur .pc) with
  | none =>
      rw [hword] at h
      cases h
  | some x =>
      rw [hword] at h
      exact congrArg Except.ok (Except.ok.inj h)

/-- Where there is no memory. -/
theorem fetch_fault (lib : Lib) {e : Exn} (h : getulong m.mem (m.ur .pc) = .error e) :
    e = .fault ∧ Fpa.step (arith lib) (entry (u + 76#32) m).state = .error .abort := by
  have hnone : m.mem (m.ur .pc) = none := by
    unfold getulong at h
    split at h
    · cases h
    · next hnone => exact hnone
  have hfetch : Fpa.fetch (entry (u + 76#32) m).state.mem (entry (u + 76#32) m).state.pc =
      .error .abort := by
    rw [entry_pc]
    show Fpa.fetch m.mem (m.ur .pc) = _
    unfold Fpa.fetch
    rw [hnone]
  unfold getulong at h
  rw [hnone] at h
  refine ⟨(Except.error.inj h).symm, ?_⟩
  unfold Fpa.step
  rw [hfetch]
  rfl

theorem fpa_ne_break {op : Word} (hop : isFpa op = true) : op ≠ BREAK := by
  rintro rfl
  exact absurd hop (by decide)

/-- How `trap` ends, when the emulation goes from `m` up to `x`. -/
def Ended (p : Proc) (m : Machine) (x : Fpa.Stop Internal) (r : Machine × End) : Prop :=
  match x.trap with
  | none => r.2 = .stop .hang
  | some .abort => r.2 = .stop .fault
  | some .undefined =>
      (∃ op, r.1.mem (r.1.ur .pc) = some op ∧ r = caught p r.1
        ("sys: fp: pc=" ++ lux (r.1.ur .pc) ++ " unimp fp 0x" ++ lux8 op)) ∧
      r.1.state = x.state ∧ FpEmu.Frame m r.1
  | some .foreign =>
      (if x.count = 0 then r = caught p r.1 (sys_trap_error (m.ur .type))
      else r.2 = .back) ∧
      r.1.state = x.state ∧ FpEmu.Frame m r.1

theorem caught_fst (p : Proc) (m : Machine) (errstr : String) :
    (caught p m errstr).1 = m := by
  unfold caught
  split <;> rfl

theorem trapUnd_ends {p : Proc} (hup : k.up = some p)
    (hbreak : k.breakhandler = none ∨ getulong m.mem (m.ur .pc) ≠ .ok BREAK) :
    Ended p (entry (u + 76#32) m)
      (Fpa.run (arith lib) (fuel + 1) (entry (u + 76#32) m).state)
      (trapUnd lib (fuel + 1) k u m) := by
  have hends : FpEmu.Ends (entry (u + 76#32) m) 0
      (Fpa.run (arith lib) (fuel + 1) (entry (u + 76#32) m).state)
      (fpiarm lib (fuel + 1) (u + 76#32) true m) :=
    FpEmu.fpiarmLoop_ends (fuel + 1) 0 (entry (u + 76#32) m)
  unfold trapUnd
  cases hget : getulong m.mem (m.ur .pc) with
  | error e =>
      obtain ⟨rfl, hstep⟩ := fetch_fault lib hget
      rw [Fpa.run_error hstep]
      rfl
  | ok op =>
      have hhandler : (if op = BREAK then k.breakhandler else none) = none := by
        split
        · next hop =>
            subst hop
            exact hbreak.resolve_right fun hne => hne hget
        · rfl
      simp only [hhandler, hup]
      unfold Ended
      cases hcall : fpiarm lib (fuel + 1) (u + 76#32) true m with
      | ok n m' =>
          rw [hcall] at hends
          obtain ⟨htrap, hn, hstate, hframe⟩ := hends
          rw [htrap]
          cases n with
          | zero =>
              have hcount : (Fpa.run (arith lib) (fuel + 1)
                  (entry (u + 76#32) m).state).count = 0 := by omega
              have htype : m'.ur .type = (entry (u + 76#32) m).ur .type :=
                congrArg (fun s => s.r 13#4) (hstate.trans (Fpa.run_none hcount))
              simp only [if_pos hcount, caught_fst, htype]
              exact ⟨trivial, hstate, hframe⟩
          | succ n =>
              have hcount : (Fpa.run (arith lib) (fuel + 1)
                  (entry (u + 76#32) m).state).count ≠ 0 := by omega
              simp only [if_neg hcount]
              exact ⟨trivial, hstate, hframe⟩
      | error e m' =>
          rw [hcall] at hends
          obtain ⟨htrap, hstate, hframe⟩ := hends
          revert htrap
          cases (Fpa.run (arith lib) (fuel + 1) (entry (u + 76#32) m).state).trap with
          | none =>
              rintro rfl
              rfl
          | some trap =>
              cases trap with
              | abort =>
                  rintro rfl
                  rfl
              | foreign => exact False.elim
              | undefined =>
                  rintro ⟨op, hop, rfl⟩
                  simp only [FpEmu.unimp, caught_fst]
                  exact ⟨⟨op, hop, rfl⟩, hstate, hframe⟩

/-- It comes back when the emulation has performed something. -/
theorem trapUnd_back {p : Proc} (hup : k.up = some p)
    (hforeign : (Fpa.run (arith lib) fuel (entry (u + 76#32) m).state).trap = some .foreign)
    (hcount : 0 < (Fpa.run (arith lib) fuel (entry (u + 76#32) m).state).count) :
    ∃ m', trapUnd lib fuel k u m = (m', .back) ∧
      m'.state = (Fpa.run (arith lib) fuel (entry (u + 76#32) m).state).state ∧
      FpEmu.Frame (entry (u + 76#32) m) m' := by
  obtain ⟨op, hfetch, hop⟩ := Fpa.run_first hcount
  have hbreak : getulong m.mem (m.ur .pc) ≠ .ok BREAK := by
    rw [fetch_fpa hfetch]
    exact fun heq => fpa_ne_break hop (Except.ok.inj heq)
  obtain ⟨fuel, rfl⟩ : ∃ j, fuel = j + 1 := by
    cases fuel with
    | zero => exact absurd hcount (Nat.lt_irrefl 0)
    | succ fuel => exact ⟨fuel, rfl⟩
  have hended : Ended p (entry (u + 76#32) m) _ (trapUnd lib (fuel + 1) k u m) :=
    trapUnd_ends hup (.inr hbreak)
  unfold Ended at hended
  rw [hforeign] at hended
  simp only [if_neg (Nat.pos_iff_ne_zero.1 hcount)] at hended
  obtain ⟨hback, hstate, hframe⟩ := hended
  exact ⟨_, Prod.ext rfl hback, hstate, hframe⟩

end

/-! ## The processor and the coprocessor -/

section
variable {c : Cpu} {mapped : Word → Bool} {ufp : FPenv} {sb addr : Word}

/-- `m` when `ureg->pc` is the address of the instruction. -/
def undone (m : Machine) : Machine :=
  { m with ur := Function.update m.ur .pc (m.ur .pc - 4) }

theorem reg_cases (n : Reg) : n.toNat < 13 ∨ n = 13#4 ∨ n = 14#4 ∨ n = 15#4 := by
  revert n
  decide

theorem core_ne {n : Reg} (hn : n.toNat < 13) : n ≠ 13#4 ∧ n ≠ 14#4 ∧ n ≠ 15#4 := by
  revert n
  decide

/-- The first thirteen registers of a `Ureg`. -/
theorem core_word {mem : Word → Word} {u : Word} {regs : Slot → Word}
    (h : loadWords mem u 13 = cores regs) {n : Reg} (hn : n.toNat < 13) :
    mem (u + BitVec.ofNat 32 (4 * n.toNat)) = regs (.core n) := by
  have hload : (loadWords mem u 13)[n.toNat]? = _ := loadWords_get hn
  have hcores : (cores regs)[n.toNat]? = some (regs (.core n)) := by
    have hrange : (List.range (12 + 1))[n.toNat]? = some n.toNat := List.getElem?_range hn
    unfold cores through
    rw [List.map_map, List.getElem?_map, hrange]
    show some (regs (.core (BitVec.ofNat 4 n.toNat))) = _
    rw [BitVec.ofNat_toNat, BitVec.setWidth_eq]
  rw [h, hcores] at hload
  exact (Option.some.inj hload).symm

theorem roff_core {n : Reg} (hn : n.toNat < 13) : FpEmu.roff n = .r ⟨n.toNat, hn⟩ :=
  dif_pos hn

/-! ### The way back -/

/-- The member at a place. -/
def offAt (k : Nat) : Option Off :=
  if h : k < 13 then some (.r ⟨k, h⟩)
  else if k = 14 then some .r14
  else if k = 16 then some .type
  else if k = 17 then some .psr
  else if k = 18 then some .pc
  else none

theorem offAt_place (o : Off) : offAt (place o) = some o := by
  cases o with
  | r i => exact dif_pos i.isLt
  | _ => rfl

/-- The words of `m` in memory. -/
def deliver (mapped : Word → Bool) (u : Word) (s : Cpu) (m : Machine) : Cpu :=
  { s with
    mem := fun x =>
      if mapped x then (m.mem x).getD 0
      else
        match offAt ((x - u).toNat / 4) with
        | some o => if x = member u o then m.ur o else s.mem x
        | none => s.mem x }

theorem place_lt (o : Off) : place o < 19 := by
  cases o with
  | r i => exact Nat.lt_trans i.isLt (by decide)
  | _ => decide

/-- Such a processor is one in which `trap` has come back. -/
theorem deliver_returned {u : Word} {s : Cpu} {m : Machine} (hmode : bank s.cpsr = .svc)
    (hmapped : ∀ x, mapped x = true → ¬ Within u 19 x)
    (hmem : ∀ a, mapped a = true → m.mem a ≠ none) :
    Returned mapped u s m (deliver mapped u s m) where
  mode := hmode
  sp := rfl
  ur o := by
    have hlt := place_lt o
    have hout : ¬ mapped (member u o) = true := fun h => hmapped _ h (Within.word hlt)
    have hplace : (member u o - u).toNat / 4 = place o := by
      have hsub : member u o - u = BitVec.ofNat 32 (4 * place o) := by
        unfold member
        rw [BitVec.add_comm]
        exact BitVec.add_sub_cancel ..
      rw [hsub, BitVec.toNat_ofNat]
      omega
    unfold deliver
    simp only [if_neg hout, hplace, offAt_place, if_true]
  link := by
    have hout : ¬ mapped (u + 60#32) = true := fun h =>
      hmapped _ h (Within.word (k := 15) (by decide))
    have hplace : (u + 60#32 - u).toNat / 4 = 15 := by
      rw [BitVec.add_comm, BitVec.add_sub_cancel]
      rfl
    unfold deliver
    simp only [if_neg hout, hplace]
    rfl
  mem a ha := by
    unfold deliver
    simp only [if_pos ha]
    cases hword : m.mem a with
    | none => exact absurd hword (hmem a ha)
    | some x => rfl

/-! ### The call -/

/-- What the call of `trap` has of the code that was interrupted. -/
structure Called (mapped : Word → Bool) (c s : Cpu) : Prop where
  mode : bank c.cpsr = .svc
  sp : s.regs (.sp .svc) = ureg c - 8#32
  saved : Saved s.mem (ureg c) c (c.regs (.lr .svc)) PsrMund c.cpsr (c.get 15#4 + 4#32)
  mem : ∀ x, mapped x = true → s.mem x = c.mem x

theorem trapping_called (sb addr : Word) (hmode : bank c.cpsr = .svc) (h : Apart .und c)
    (hmapped : ∀ x, mapped x = true → ¬ Within (ureg c) 19 x ∧
      ¬ Within (below (c.regs (.sp .und)) 4) 4 x) :
    Called mapped c (trapping .und sb (c.get 15#4 + 4#32) addr c) := by
  obtain ⟨-, hget, hcpsr, hsaved, hframe⟩ :=
    trapping_saved sb (c.get 15#4 + 4#32) addr h
  rw [Cpu.get, hcpsr, bank_svcPsr] at hget
  exact ⟨hmode, hget, hsaved, fun x hx => hframe x (hmapped x hx).1 (hmapped x hx).2⟩

/-- What `fpiarm` starts from is the processor and the coprocessor, but for `R14`. -/
theorem entry_fpa {s : Cpu} (h : Called mapped c s) (ufp : FPenv) :
    (entry (ureg c + 76#32) (undone (machine mapped ufp (ureg c) s.mem))).state =
      Fpa.State.setR (fpa mapped c (fpinit ufp)) 14#4 (s.mem (ureg c + 56#32)) := by
  obtain ⟨hmode, -, hsaved, hframe⟩ := h
  generalize s.mem = mem at hsaved hframe
  refine Fpa.State.ext ?_ ?_ rfl rfl rfl ?_
  · funext n
    show Function.update (Function.update (fun o => mem (member (ureg c) o)) .pc
      (mem (member (ureg c) .pc) - 4)) .type (ureg c + 76#32) (FpEmu.roff n) =
        Function.update c.get 14#4 (mem (ureg c + 56#32)) n
    rcases reg_cases n with hn | rfl | rfl | rfl
    · have hget : c.get n = c.regs (.core n) := by
        rw [Cpu.get, hmode, slot_svc (core_ne hn).1 (core_ne hn).2.1]
      have htype : Off.r ⟨n.toNat, hn⟩ ≠ .type := fun h => Off.noConfusion h
      have hpc : Off.r ⟨n.toNat, hn⟩ ≠ .pc := fun h => Off.noConfusion h
      rw [roff_core hn, Function.update_of_ne htype, Function.update_of_ne hpc,
        Function.update_of_ne (core_ne hn).2.1, hget]
      exact core_word hsaved.core hn
    · have hsp : c.get 13#4 = ureg c + 76#32 := by
        rw [Cpu.get, hmode]
        unfold ureg below
        show c.regs (.sp .svc) = _
        bv_omega
      have hne : (13#4 : Reg) ≠ 14#4 := by decide
      rw [Function.update_of_ne hne, hsp]
      exact Function.update_self ..
    · rw [Function.update_self]
      rfl
    · have hne : (15#4 : Reg) ≠ 14#4 := by decide
      rw [Function.update_of_ne hne]
      show mem (ureg c + 72#32) - 4 = c.get 15#4
      rw [hsaved.pc]
      exact BitVec.add_sub_cancel ..
  · show flags (mem (ureg c + 68#32)) = flags c.cpsr
    rw [hsaved.psr]
  · funext a
    show view mapped mem a = view mapped c.mem a
    unfold view
    split
    · next ha => rw [hframe a ha]
    · rfl

/-- `trap` takes the branch of the undefined instructions. -/
theorem trap_und {lib : Lib} {fuel : Nat} {k : Kernel} {u : Word} {m : Machine}
    (htype : m.ur .type = PsrMund) (hroom : 256 ≤ rem k u) :
    trap lib fuel k u m = trapUnd lib fuel k u (undone m) := by
  have hstack : ¬ (PsrMund ≠ PsrMfiq ∧ rem k u < 256) := fun h => by omega
  unfold trap
  rw [htype, if_neg hstack]
  rfl

/-- **How `trap` ends** for a process. A word that is no instruction of the coprocessor
raises an error that names the exception after the stack pointer; an instruction that it has
not raises one that names it, with those before it performed. -/
theorem undefined_ends {lib : Lib} {fuel : Nat} {k : Kernel} {p : Proc} {u : Word}
    {m : Machine} (htype : m.ur .type = PsrMund) (hroom : 256 ≤ rem k u)
    (hup : k.up = some p)
    (hbreak : k.breakhandler = none ∨ getulong m.mem (m.ur .pc - 4) ≠ .ok BREAK) :
    Ended p (entry (u + 76#32) (undone m))
      (Fpa.run (arith lib) (fuel + 1) (entry (u + 76#32) (undone m)).state)
      (trap lib (fuel + 1) k u m) := by
  have hpc : (undone m).ur .pc = m.ur .pc - 4 := by
    simp only [undone, Function.update_self]
  rw [trap_und htype hroom]
  refine trapUnd_ends hup ?_
  rw [hpc]
  exact hbreak

variable {mem : Word → Word} {u g : Word} {s : State Internal} {m : Machine} {t : Cpu}

/-- What the return makes of a `Ureg` whose registers are those of `s` but for `R14`. -/
theorem resumed_fpa (hmode : bank t.cpsr = .svc) (hsp : t.regs (.sp .svc) = u - 8#32)
    (hur : ∀ o, t.mem (member u o) = m.ur o)
    (hmem : ∀ a, mapped a = true → some (t.mem a) = m.mem a)
    (hpsr : bank (m.ur .psr) = .svc) (hstate : m.state = s.setR 14#4 g)
    (hunmapped : ∀ a, mapped a = false → s.mem a = none)
    (hr13 : s.r 13#4 = u + 76#32) (hr14 : s.r 14#4 = t.mem (u + 60#32)) :
    fpa mapped (execAll vrfe t) m.ufp = s := by
  have hresumed := vrfe_resumed hmode hsp
  have hcpsr : (execAll vrfe t).cpsr = m.ur .psr := hresumed.cpsr.trans (hur .psr)
  have hbank : bank (execAll vrfe t).cpsr = .svc := by rw [hcpsr, hpsr]
  have hr : ∀ n, n ≠ 14#4 → m.ur (FpEmu.roff n) = s.r n := fun n hn =>
    (congrArg (fun s => s.r n) hstate).trans (Fpa.setR_other hn)
  refine Fpa.State.ext ?_ ?_ (congrArg State.f hstate :) (congrArg State.fpsr hstate :)
    (congrArg State.fpcr hstate :) ?_
  · funext n
    show (execAll vrfe t).get n = s.r n
    rw [Cpu.get, hbank]
    rcases reg_cases n with hn | rfl | rfl | rfl
    · obtain ⟨h13, h14, -⟩ := core_ne hn
      rw [slot_svc h13 h14, ← hr n h14, roff_core hn, ← hur]
      exact (core_word hresumed.core.symm hn).symm
    · exact hresumed.sp.trans hr13.symm
    · exact hresumed.lr.trans hr14.symm
    · exact hresumed.pc.trans ((hur .pc).trans (hr 15#4 (by decide)))
  · show flags (execAll vrfe t).cpsr = s.flags
    rw [hcpsr]
    exact congrArg State.flags hstate
  · funext a
    show view mapped (execAll vrfe t).mem a = s.mem a
    unfold view
    split
    · next ha =>
        rw [hresumed.mem, hmem a ha]
        exact congrArg (fun s => s.mem a) hstate
    · next ha => exact (hunmapped a (Bool.eq_false_iff.2 ha)).symm

theorem Called.performs {lib : Lib} {fuel : Nat} {k : Kernel} {p : Proc} {s : Cpu}
    (h : Called mapped c s) (hup : k.up = some p) (hroom : 256 ≤ rem k (ureg c))
    (hforeign : (Fpa.run (arith lib) fuel (fpa mapped c (fpinit ufp))).trap = some .foreign)
    (hcount : 0 < (Fpa.run (arith lib) fuel (fpa mapped c (fpinit ufp))).count)
    (hregs : ∀ i ∈ issued (arith lib) fuel (fpa mapped c (fpinit ufp)),
      14#4 ∉ i.registers ∧ 13#4 ∉ i.sets) :
    ∃ m, trap lib fuel k (ureg c) (machine mapped ufp (ureg c) s.mem) = (m, .back) ∧
      (∀ a, mapped a = true → m.mem a ≠ none) ∧
      ∀ t, Returned mapped (ureg c) s m t →
        fpa mapped (execAll vrfe t) m.ufp =
            (Fpa.run (arith lib) fuel (fpa mapped c (fpinit ufp))).state ∧
          Alike (execAll vrfe t).cpsr c.cpsr := by
  have hentry := entry_fpa h ufp
  have hother : (14#4 : Reg) ≠ 15#4 := by decide
  have hrun : Fpa.run (arith lib) fuel (Fpa.State.setR (fpa mapped c (fpinit ufp)) 14#4
      (s.mem (ureg c + 56#32))) = _ := Fpa.run_setR hother fun i hi => (hregs i hi).1
  rw [← hentry] at hrun
  have htrap := (congrArg Fpa.Stop.trap hrun).trans hforeign
  have hperformed := hcount.trans_eq (congrArg Fpa.Stop.count hrun).symm
  obtain ⟨m, hback, hstate, hframe⟩ := trapUnd_back hup htrap hperformed
  rw [hrun] at hstate
  refine ⟨m, (trap_und h.saved.type hroom).trans hback, fun a ha hnone => ?_,
    fun t ht => ?_⟩
  · have hview : view mapped c.mem a = none :=
      Fpa.run_unmapped.1 ((congrArg (fun s => s.mem a) hstate).symm.trans hnone)
    unfold view at hview
    rw [if_pos ha] at hview
    cases hview
  have hpsr : Alike (m.ur .psr) c.cpsr := by
    have hsaved : (entry (ureg c + 76#32) (undone (machine mapped ufp (ureg c) s.mem))).ur
        .psr = c.cpsr := h.saved.psr
    have hflags : ~~~(FpEmu.N ||| FpEmu.C ||| FpEmu.Z ||| FpEmu.V) =
        (0x0FFFFFFF : Word) := by
      decide
    have hkept := hframe.psr
    rwa [hsaved, hflags] at hkept
  have hstatus : (execAll vrfe t).cpsr = m.ur .psr :=
    (vrfe_resumed ht.mode (ht.sp.trans h.sp)).cpsr.trans (ht.ur .psr)
  have hkeep : ∀ n, n ≠ 15#4 → (∀ i ∈ issued (arith lib) fuel (fpa mapped c (fpinit ufp)),
      n ∉ i.sets) → (Fpa.run (arith lib) fuel (fpa mapped c (fpinit ufp))).state.r n =
        c.get n := fun n hn hi => Fpa.run_sets hn hi
  refine ⟨resumed_fpa ht.mode (ht.sp.trans h.sp) ht.ur ht.mem (hpsr.bank.trans h.mode)
    hstate (fun a ha => ?_) ?_ ?_, ?_⟩
  · refine Fpa.run_unmapped.2 ?_
    show view mapped c.mem a = none
    unfold view
    rw [if_neg (Bool.eq_false_iff.1 ha)]
  · rw [hkeep 13#4 (by decide) fun i hi => (hregs i hi).2, Cpu.get, h.mode]
    unfold ureg below
    show c.regs (.sp .svc) = _
    bv_omega
  · rw [hkeep 14#4 (by decide) fun i hi hset => (hregs i hi).1 (Fpa.sets_registers hset),
      ht.link, h.saved.link, Cpu.get, h.mode]
    rfl
  · rw [hstatus]
    exact hpsr

/-- **The processor has a coprocessor.** Where it is at an instruction of the coprocessor,
and a processor that had one would perform it and those behind it up to the first that is
not, the exception, `trap` and the return have done the same: to the registers, the flags,
the coprocessor's registers in the `FPenv`, and memory but for what is below the stack
pointer and the stacks of the exceptions. -/
theorem emulated {lib : Lib} {fuel : Nat} {k : Kernel} {p : Proc} {fiqstack : Word}
    (sb addr : Word) (hmode : bank c.cpsr = .svc) (hstacks : Stacks fiqstack c)
    (hureg : ∀ x, Within fiqstack 16 x → ¬ Within (ureg c) 19 x)
    (hmapped : ∀ x, mapped x = true → ¬ Within (ureg c) 19 x ∧ ¬ Within fiqstack 16 x)
    (hup : k.up = some p) (hroom : 256 ≤ rem k (ureg c))
    (hforeign : (Fpa.run (arith lib) fuel (fpa mapped c (fpinit ufp))).trap = some .foreign)
    (hcount : 0 < (Fpa.run (arith lib) fuel (fpa mapped c (fpinit ufp))).count)
    (hregs : ∀ i ∈ issued (arith lib) fuel (fpa mapped c (fpinit ufp)),
      14#4 ∉ i.registers ∧ 13#4 ∉ i.sets) :
    let called := trapping .und sb (c.get 15#4 + 4#32) addr c
    ∃ m, trap lib fuel k (ureg c) (machine mapped ufp (ureg c) called.mem) = (m, .back) ∧
      (∃ t, Returned mapped (ureg c) called m t) ∧
      ∀ t, Returned mapped (ureg c) called m t →
        fpa mapped (execAll vrfe t) m.ufp =
            (Fpa.run (arith lib) fuel (fpa mapped c (fpinit ufp))).state ∧
          Alike (execAll vrfe t).cpsr c.cpsr := by
  have h : Apart .und c := hstacks.apart hureg .und
  have hown : ∀ x, mapped x = true → ¬ Within (ureg c) 19 x ∧
      ¬ Within (below (c.regs (.sp .und)) 4) 4 x := by
    intro x hx
    obtain ⟨hx, hx'⟩ := hmapped x hx
    refine ⟨hx, fun hin => hx' ?_⟩
    have heq : below (c.regs (.sp .und)) 4 = _ := hstacks.below_eq .und
    rw [heq] at hin
    exact hin.shift (by decide)
  have hcalled := trapping_called sb addr hmode h hown
  have hbank := bank_trapping sb (c.get 15#4 + 4#32) addr h
  obtain ⟨m, hback, hmem, hreturned⟩ := hcalled.performs hup hroom hforeign hcount hregs
  exact ⟨m, hback, ⟨_, deliver_returned hbank (fun x hx => (hmapped x hx).1) hmem⟩,
    hreturned⟩

end

/-! ### A sample -/

/-- The kernel at 0x100, where there is `MVF F1, #2`, `ADF F0, F1, #1` and `MOV R0, R0`. -/
def sample : Cpu where
  regs
    | .sp .svc => 0x8000
    | .sp .fiq => 0x1050
    | .sp .irq => 0x1060
    | .sp .abt => 0x1070
    | .sp .und => 0x1080
    | .core n => if n = 15#4 then 0x100 else 0
    | _ => 0
  cpsr := PsrMsvc
  spsr := fun _ => 0
  mem a := if a = 0x100 then 0xEE00910A else if a = 0x104 then 0xEE010109 else 0xE1A00000
  told := []

def sampleMapped (a : Word) : Bool := a.toNat < 0x1000 && a.toNat % 4 == 0

def sampleKernel : Kernel where
  up := some { addr := 0x4000, text := "interp", kstack := 0x6000, interp := true }
  stack := 0x2000
  intrs := id
  breakhandler := none
  catchdbg := none

def sampleFp : FPenv := FpEmu.sample.ufp

theorem sample_stacks : Stacks 0x1040 sample := ⟨rfl, rfl, rfl, rfl⟩

theorem sample_run :
    let x := Fpa.run (arith FpEmu.sampleLib) 5 (fpa sampleMapped sample (fpinit sampleFp))
    x.trap = some .foreign ∧ x.count = 2 ∧ x.state.f 0#3 = fpconst 3 ∧ x.state.pc = 0x108 ∧
      ∀ i ∈ issued (arith FpEmu.sampleLib) 5 (fpa sampleMapped sample (fpinit sampleFp)),
        14#4 ∉ i.registers ∧ 13#4 ∉ i.sets := by
  decide +kernel

theorem sample_ureg : ureg sample = 0x7FB4 := rfl

theorem sample_room : ∀ x, Within 0x1040 16 x → ¬ Within (ureg sample) 19 x := by
  intro x hx hx'
  have hlow := hx.range (by decide)
  have hhigh := hx'.range (by rw [sample_ureg]; decide)
  rw [sample_ureg] at hhigh
  have hlt : (0x1040 : Word).toNat + 4 * 16 < (0x7FB4 : Word).toNat := by decide
  omega

theorem sample_mapped (x : Word) (hx : sampleMapped x = true) :
    ¬ Within (ureg sample) 19 x ∧ ¬ Within 0x1040 16 x := by
  have hlt : x.toNat < 0x1000 := by
    unfold sampleMapped at hx
    simpa using (Bool.and_eq_true_iff.1 hx).1
  refine ⟨fun h => ?_, fun h => ?_⟩
  · have hrange := h.range (by rw [sample_ureg]; decide)
    rw [sample_ureg] at hrange
    have hle : 0x1000 < (0x7FB4 : Word).toNat := by decide
    omega
  · have hrange := h.range (by decide)
    have hle : 0x1000 < (0x1040 : Word).toNat := by decide
    omega

/-- At the instruction behind them. -/
def sampleForeign : Machine :=
  machine sampleMapped sampleFp 0x7FB4 fun a =>
    if a = 0x7FFC then 0x10C else if a = 0x7FF4 then PsrMund else sample.mem a

/-- The error does not have the name of the exception. -/
theorem undefined_sample : ∃ p m', sampleKernel.up = some p ∧
    trap FpEmu.sampleLib 1 sampleKernel 0x7FB4 sampleForeign =
      caught p m' "sys: trap: Undefined trap\n" := by
  have hrun : (Fpa.run (arith FpEmu.sampleLib) 1
      (entry (0x7FB4 + 76#32) (undone sampleForeign)).state).trap = some .foreign ∧
      (Fpa.run (arith FpEmu.sampleLib) 1
        (entry (0x7FB4 + 76#32) (undone sampleForeign)).state).count = 0 := by
    decide +kernel
  obtain ⟨hforeign, hcount⟩ := hrun
  have hroom : 256 ≤ rem sampleKernel 0x7FB4 := by decide
  have hended : Ended _ (entry (0x7FB4 + 76#32) (undone sampleForeign)) _
      (trap FpEmu.sampleLib 1 sampleKernel 0x7FB4 sampleForeign) :=
    undefined_ends rfl hroom rfl (.inl rfl)
  unfold Ended at hended
  rw [hforeign] at hended
  simp only [if_pos hcount] at hended
  exact ⟨_, _, rfl, hended.1⟩

/-- Behind the two instructions, with 3 in the register. -/
theorem emulated_sample : ∃ m t,
    trap FpEmu.sampleLib 5 sampleKernel (ureg sample) (machine sampleMapped sampleFp
      (ureg sample) (trapping .und 0 (sample.get 15#4 + 4#32) 4 sample).mem) = (m, .back) ∧
    Returned sampleMapped (ureg sample)
      (trapping .und 0 (sample.get 15#4 + 4#32) 4 sample) m t ∧
    (execAll vrfe t).get 15#4 = 0x108 ∧ m.ufp.regs 0#3 = fpconst 3 := by
  obtain ⟨hforeign, hcount, hf, hpc, hregs⟩ := sample_run
  have hroom : 256 ≤ rem sampleKernel (ureg sample) := by decide
  obtain ⟨m, hback, ⟨t, ht⟩, hall⟩ := emulated 0 4 rfl sample_stacks sample_room
    sample_mapped rfl hroom hforeign (hcount ▸ Nat.two_pos) hregs
  have hstate := (hall t ht).1
  refine ⟨m, t, hback, ht, ?_, ?_⟩
  · exact (congrArg State.pc hstate).trans hpc
  · exact (congrArg (fun s => s.f 0#3) hstate).trans hf

end Kirkwood.Ports.FpTrap
