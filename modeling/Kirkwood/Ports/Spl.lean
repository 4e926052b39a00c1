import Kirkwood.Ports.CacheOps

/-!
# Sections with interrupts disabled

`splhi`, `spllo`, `splfhi` and `splflo` of `l.s` change the masks of the status register and
return what it was; `splx` puts that back.  C code keeps it in a variable around a section,
and sections are nested, through the calls of routines.

## Main results

* `spl_exec`, `splx_exec`: what the routines do;
* `run_scoped`: nested code has its interrupts masked as its sections say, and a section
  leaves them as they were;
* `sections`: with that, a section of `splhi` in which nothing enables interrupts has none.
-/

namespace Kirkwood.Ports.Spl

open Kirkwood.Verified.Arm
open Kirkwood.Ports.CacheOps (PsrDfiq PsrDirq)

def KZERO : Word := 0x0000000
def MACHADDR : Word := KZERO + 0x1000

/-! ## l.s -/

/-- `m->splpc` becomes the address after the call. -/
def splpc : List Instr := [.mov (.imm MACHADDR) 6#4, .store 14#4 0 6#4]

def splhi : List Instr :=
  [.fromCpsr 0#4, .alu .orr (.imm PsrDirq) 0#4 1#4, .toCpsr 1#4] ++ splpc

def spllo : List Instr :=
  [.fromCpsr 0#4, .alu .bic (.imm (PsrDirq ||| PsrDfiq)) 0#4 1#4, .toCpsr 1#4]

def splxpc : List Instr := [.mov (.reg 0#4) 1#4, .fromCpsr 0#4, .toCpsr 1#4]

def splx : List Instr := splpc ++ splxpc

def islo : List Instr :=
  [.fromCpsr 0#4, .alu .and (.imm PsrDirq) 0#4 0#4, .alu .eor (.imm PsrDirq) 0#4 0#4]

def splfhi : List Instr :=
  [.fromCpsr 0#4, .alu .orr (.imm (PsrDfiq ||| PsrDirq)) 0#4 1#4, .toCpsr 1#4]

def splflo : List Instr :=
  [.fromCpsr 0#4, .alu .bic (.imm PsrDfiq) 0#4 1#4, .toCpsr 1#4]

/-- The routines that change the masks. -/
inductive Level where
  | splhi
  | spllo
  | splfhi
  | splflo
  deriving DecidableEq, Repr

def Level.code : Level → List Instr
  | splhi => Spl.splhi
  | spllo => Spl.spllo
  | splfhi => Spl.splfhi
  | splflo => Spl.splflo

/-! ## Masks -/

/-- Whether `IRQ` and `FIQ` are disabled. -/
structure Masks where
  irq : Bool
  fiq : Bool
  deriving DecidableEq, Repr

def masks (psr : Word) : Masks where
  irq := psr.getLsbD 7
  fiq := psr.getLsbD 6

def Level.masks (m : Masks) : Level → Masks
  | splhi => { m with irq := true }
  | spllo => ⟨false, false⟩
  | splfhi => ⟨true, true⟩
  | splflo => { m with fiq := false }

/-- The status behind a routine. -/
def Level.psr (psr : Word) : Level → Word
  | splhi => psr ||| PsrDirq
  | spllo => psr &&& ~~~(PsrDirq ||| PsrDfiq)
  | splfhi => psr ||| (PsrDfiq ||| PsrDirq)
  | splflo => psr &&& ~~~PsrDfiq

theorem Level.masks_psr (l : Level) (psr : Word) :
    Spl.masks (l.psr psr) = l.masks (Spl.masks psr) := by
  cases l <;> simp [Spl.masks, Level.psr, Level.masks, PsrDirq, PsrDfiq]

theorem Level.bank_psr (l : Level) (psr : Word) : bank (l.psr psr) = bank psr := by
  have hor : ∀ x : Word, x &&& 0x1F = 0 → bank (psr ||| x) = bank psr := by
    intro x hx
    have hmode : (psr ||| x) &&& 0x1F = psr &&& 0x1F := by
      rw [BitVec.and_or_distrib_right, hx]
      exact BitVec.or_zero
    unfold bank
    rw [hmode]
  have hbic : ∀ x : Word, ~~~x &&& 0x1F = 0x1F → bank (psr &&& ~~~x) = bank psr := by
    intro x hx
    unfold bank
    rw [BitVec.and_assoc, hx]
  cases l with
  | splhi => exact hor _ (by decide)
  | spllo => exact hbic _ (by decide)
  | splfhi => exact hor _ (by decide)
  | splflo => exact hbic _ (by decide)

/-! ## The routines -/

section
variable (c : Cpu)

theorem get_low {n : Reg} (hn : n.toNat < 8) : c.get n = c.regs (.core n) := by
  rw [Cpu.get, slot_low _ hn]

theorem slot_link (b : Bank) : slot b 14#4 = .lr b := rfl

/-- A routine changes the masks, and returns the status as it was. -/
theorem spl_exec (l : Level) :
    (execAll l.code c).cpsr = l.psr c.cpsr ∧ (execAll l.code c).get 0#4 = c.cpsr := by
  rw [get_low _ (by decide)]
  cases l <;>
    simp [execAll, Level.code, splhi, spllo, splfhi, splflo, splpc, Instr.exec, Cpu.get,
      Cpu.set, Src.read, Alu.eval, Level.psr, slot_low _ (by decide : (0#4).toNat < 8),
      slot_low _ (by decide : (1#4).toNat < 8), slot_low _ (by decide : (6#4).toNat < 8)]

theorem splx_exec :
    (execAll splx c).cpsr = c.get 0#4 ∧ (execAll splx c).get 0#4 = c.cpsr := by
  rw [get_low _ (by decide), get_low _ (by decide)]
  simp [execAll, splx, splpc, splxpc, Instr.exec, Cpu.get, Cpu.set, Src.read,
    slot_low _ (by decide : (0#4).toNat < 8), slot_low _ (by decide : (1#4).toNat < 8),
    slot_low _ (by decide : (6#4).toNat < 8)]

/-- Who called is noted, and nothing else written. -/
theorem splhi_mem :
    (execAll splhi c).mem = Function.update c.mem MACHADDR (c.get 14#4) := by
  have hbank : bank (c.cpsr ||| PsrDirq) = bank c.cpsr := Level.splhi.bank_psr c.cpsr
  simp [execAll, splhi, splpc, Instr.exec, Cpu.get, Cpu.set, Src.read, Alu.eval, hbank,
    slot_link, slot_low _ (by decide : (0#4).toNat < 8),
    slot_low _ (by decide : (1#4).toNat < 8), slot_low _ (by decide : (6#4).toNat < 8)]

theorem splx_mem :
    (execAll splx c).mem = Function.update c.mem MACHADDR (c.get 14#4) := by
  simp [execAll, splx, splpc, splxpc, Instr.exec, Cpu.get, Cpu.set, Src.read, slot_link,
    slot_low _ (by decide : (6#4).toNat < 8)]

/-- Not zero when interrupts are enabled. -/
theorem islo_exec : (execAll islo c).get 0#4 ≠ 0 ↔ (masks c.cpsr).irq = false := by
  have hr0 : (execAll islo c).get 0#4 = PsrDirq ^^^ (c.cpsr &&& PsrDirq) := by
    rw [get_low _ (by decide)]
    simp [execAll, islo, Instr.exec, Cpu.get, Cpu.set, Src.read, Alu.eval,
      slot_low _ (by decide : (0#4).toNat < 8), BitVec.xor_comm]
  have hbit : PsrDirq = BitVec.twoPow 32 7 := by decide
  rw [hr0, hbit, BitVec.and_twoPow]
  show _ ↔ c.cpsr.getLsbD 7 = false
  cases c.cpsr.getLsbD 7 <;> decide

end

/-! ## Nested sections -/

/-- Other code, with the exceptions taken in it, which leaves the masks and the mode as they
are. -/
structure Piece where
  run : Cpu → Cpu
  masks_run : ∀ c, masks (run c).cpsr = masks c.cpsr
  bank_run : ∀ c, bank (run c).cpsr = bank c.cpsr

inductive Prog where
  | piece (f : Piece)
  | seq (p q : Prog)
  /-- `l();` -/
  | call (l : Level)
  /-- `s = l(); p; splx(s);` -/
  | within (l : Level) (p : Prog)

/-- The processor afterwards, and the masks with which the pieces ran. -/
def Prog.run : Prog → Cpu → Cpu × List Masks
  | piece f, c => (f.run c, [masks c.cpsr])
  | seq p q, c =>
      let r := p.run c
      let r' := q.run r.1
      (r'.1, r.2 ++ r'.2)
  | call l, c => (execAll l.code c, [])
  | within l p, c =>
      let c' := execAll l.code c
      let s := c'.get 0#4
      let r := p.run c'
      (execAll splx (r.1.set 0#4 s), r.2)

/-- What is meant: the masks of a section hold to its end. -/
def Prog.scoped : Prog → Masks → Masks × List Masks
  | piece _, m => (m, [m])
  | seq p q, m =>
      let r := p.scoped m
      let r' := q.scoped r.1
      (r'.1, r.2 ++ r'.2)
  | call l, m => (l.masks m, [])
  | within l p, m => (m, (p.scoped (l.masks m)).2)

/-- Nothing enables interrupts. -/
def Prog.Quiet : Prog → Prop
  | piece _ => True
  | seq p q => p.Quiet ∧ q.Quiet
  | call l => l ≠ .spllo
  | within l p => l ≠ .spllo ∧ p.Quiet

theorem Level.irq_masks {l : Level} (hl : l ≠ .spllo) {m : Masks} (hm : m.irq = true) :
    (l.masks m).irq = true := by
  cases l with
  | splhi => rfl
  | spllo => exact absurd rfl hl
  | splfhi => rfl
  | splflo => exact hm

section
variable {p : Prog}

/-- `splx` behind a section puts the whole status back. -/
theorem within_cpsr (l : Level) (p : Prog) (c : Cpu) :
    ((Prog.within l p).run c).1.cpsr = c.cpsr := by
  have hget : ∀ (c : Cpu) (s : Word), (c.set 0#4 s).get 0#4 = s :=
    fun _ _ => Function.update_self ..
  rw [Prog.run, (splx_exec _).1, hget]
  exact (spl_exec c l).2

/-- **Sections are nested** as they are written. -/
theorem run_scoped (p : Prog) (c : Cpu) :
    (masks (p.run c).1.cpsr, (p.run c).2) = p.scoped (masks c.cpsr) ∧
      bank (p.run c).1.cpsr = bank c.cpsr := by
  induction p generalizing c with
  | piece f => exact ⟨Prod.ext (f.masks_run c) rfl, f.bank_run c⟩
  | seq p q ihp ihq =>
      obtain ⟨hp, hpbank⟩ := ihp c
      obtain ⟨hq, hqbank⟩ := ihq (p.run c).1
      refine ⟨?_, hqbank.trans hpbank⟩
      rw [Prog.scoped, ← hp, ← hq]
      rfl
  | call l =>
      have hpsr := (spl_exec c l).1
      refine ⟨Prod.ext ?_ rfl, ?_⟩
      · show masks (execAll l.code c).cpsr = l.masks (masks c.cpsr)
        rw [hpsr, l.masks_psr]
      · show bank (execAll l.code c).cpsr = bank c.cpsr
        rw [hpsr, l.bank_psr]
  | within l p ih =>
      have hcpsr := within_cpsr l p c
      obtain ⟨hp, -⟩ := ih (execAll l.code c)
      rw [(spl_exec c l).1, l.masks_psr] at hp
      have htrace : (p.run (execAll l.code c)).2 = (p.scoped (l.masks (masks c.cpsr))).2 :=
        congrArg Prod.snd hp
      exact ⟨Prod.ext (congrArg masks hcpsr) htrace, congrArg bank hcpsr⟩

theorem Prog.Quiet.scoped (h : p.Quiet) {m : Masks} (hm : m.irq = true) :
    (p.scoped m).1.irq = true ∧ ∀ k ∈ (p.scoped m).2, k.irq = true := by
  induction p generalizing m with
  | piece f =>
      refine ⟨hm, fun k hk => ?_⟩
      rw [List.mem_singleton.1 hk]
      exact hm
  | seq p q ihp ihq =>
      obtain ⟨hp, hps⟩ := ihp h.1 hm
      obtain ⟨hq, hqs⟩ := ihq h.2 hp
      refine ⟨hq, fun k hk => ?_⟩
      exact (List.mem_append.1 hk).elim (hps k) (hqs k)
  | call l => exact ⟨l.irq_masks h hm, fun k hk => absurd hk List.not_mem_nil⟩
  | within l p ih => exact ⟨hm, (ih h.2 (l.irq_masks h.1 hm)).2⟩

end

/-- **Sections with interrupts disabled.** However they are nested, every piece of the code
runs with the masks of the sections around it; and a section of `splhi` or `splfhi` in which
nothing enables interrupts runs without them and puts the status back. -/
theorem sections (p : Prog) (c : Cpu) :
    ((masks (p.run c).1.cpsr, (p.run c).2) = p.scoped (masks c.cpsr) ∧
        bank (p.run c).1.cpsr = bank c.cpsr) ∧
      ∀ l, l = .splhi ∨ l = .splfhi → p.Quiet →
        ((Prog.within l p).run c).1.cpsr = c.cpsr ∧
          ∀ m ∈ ((Prog.within l p).run c).2, m.irq = true := by
  refine ⟨run_scoped p c, fun l hl hquiet => ⟨within_cpsr l p c, ?_⟩⟩
  have hirq : (l.masks (masks c.cpsr)).irq = true := by
    rcases hl with rfl | rfl <;> rfl
  obtain ⟨hscoped, -⟩ := run_scoped (.within l p) c
  have htrace : ((Prog.within l p).run c).2 = (p.scoped (l.masks (masks c.cpsr))).2 :=
    congrArg Prod.snd hscoped
  rw [htrace]
  exact (hquiet.scoped hirq).2

def Piece.idle : Piece := ⟨id, fun _ => rfl, fun _ => rfl⟩

/-- In the kernel's mode, with interrupts enabled. -/
def cpu0 : Cpu := ⟨fun _ => 0, 0x13, fun _ => 0, fun _ => 0, []⟩

/-- What `etheroq` has in its section may have another. -/
def nested : Prog :=
  .seq (.piece .idle) (.seq (.within .splfhi (.piece .idle)) (.piece .idle))

theorem sections_nested :
    ((Prog.within .splhi nested).run cpu0).1.cpsr = 0x13 ∧
      ∀ m ∈ ((Prog.within .splhi nested).run cpu0).2, m.irq = true := by
  have hquiet : nested.Quiet := ⟨trivial, ⟨by decide, trivial⟩, trivial⟩
  exact (sections nested cpu0).2 .splhi (.inl rfl) hquiet

/-- A section in which another routine enables interrupts. -/
example : ((Prog.within .splhi (.seq (.within .spllo (.piece .idle)) (.seq (.call .spllo)
    (.piece .idle)))).run cpu0).2 = [⟨false, false⟩, ⟨false, false⟩] := by
  decide

end Kirkwood.Ports.Spl
