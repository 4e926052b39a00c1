import Mathlib.Algebra.Ring.Nat
import Mathlib.Logic.Function.Basic

/-!
# Code for an ARM processor

The registers with their banks, memory by words, the instructions of small routines, and
code made of them: in sequence, with a loop back to a label, or with a branch away.
Operations of coprocessors are recorded in the order in which they are given.

## Main results

* `load_storeWords`, `storeWords_frame`: a block of words is read back, and nothing else is
  written;
* `loop_rule`: a loop that an invariant carries through `n` passes.
-/

namespace Kirkwood.Verified.Arm

abbrev Word := BitVec 32

/-! ## Flags and conditions -/

structure Flags where
  n : Bool
  z : Bool
  c : Bool
  v : Bool
  deriving DecidableEq, Repr

/-- The flags in a status register. -/
def flags (psr : Word) : Flags where
  n := psr.getLsbD 31
  z := psr.getLsbD 30
  c := psr.getLsbD 29
  v := psr.getLsbD 28

/-- The condition in bits 28 to 31 of an instruction. -/
def holds (f : Flags) (cond : BitVec 4) : Bool :=
  match cond.toNat with
  | 0 => f.z
  | 1 => !f.z
  | 2 => f.c
  | 3 => !f.c
  | 4 => f.n
  | 5 => !f.n
  | 6 => f.v
  | 7 => !f.v
  | 8 => f.c && !f.z
  | 9 => !f.c || f.z
  | 10 => f.n == f.v
  | 11 => f.n != f.v
  | 12 => !f.z && f.n == f.v
  | 13 => f.z || f.n != f.v
  | 14 => true
  | _ => false

/-- The flags after the subtraction of `b` from `a`; `c` means that nothing was borrowed. -/
def subFlags (a b : Word) : Flags where
  n := (a - b).msb
  z := a == b
  c := b.ule a
  v := (a.msb != b.msb) && ((a - b).msb != a.msb)

def flagBit (b : Bool) (o : Nat) : Word := if b then 1#32 <<< o else 0#32

/-- The status register with other flags. -/
def withFlags (psr : Word) (f : Flags) : Word :=
  psr &&& 0x0FFFFFFF ||| flagBit f.n 31 ||| flagBit f.z 30 ||| flagBit f.c 29 |||
    flagBit f.v 28

theorem flagBit_getLsbD (b : Bool) {o i : Nat} (ho : o < 32) (hi : i < 32) :
    (flagBit b o).getLsbD i = (b && i == o) := by
  have hbits : ∀ o < 32, ∀ i < 32, (1#32 <<< o).getLsbD i = (i == o) := by decide
  cases b with
  | false => exact BitVec.getLsbD_zero
  | true => exact hbits o ho i hi

theorem flags_withFlags (psr : Word) (f : Flags) : flags (withFlags psr f) = f := by
  obtain ⟨n, z, c, v⟩ := f
  unfold flags withFlags flagBit
  cases n <;> cases z <;> cases c <;> cases v <;> simp

/-- The flags are bits 28 to 31. -/
theorem withFlags_and (psr : Word) (f : Flags) {mask : Word}
    (h : ∀ i < 32, 28 ≤ i → mask.getLsbD i = false) :
    withFlags psr f &&& mask = psr &&& mask := by
  have hlow : ∀ i < 28, (0x0FFFFFFF : Word).getLsbD i = true := by decide
  apply BitVec.eq_of_getLsbD_eq
  intro i hi
  rw [BitVec.getLsbD_and, BitVec.getLsbD_and]
  by_cases hflag : 28 ≤ i
  · rw [h i hi hflag, Bool.and_false, Bool.and_false]
  · have hne : ∀ o, 28 ≤ o → (i == o) = false := fun o ho => beq_false_of_ne (by omega)
    unfold withFlags
    simp only [BitVec.getLsbD_or, BitVec.getLsbD_and,
      flagBit_getLsbD _ (by decide : 31 < 32) hi,
      flagBit_getLsbD _ (by decide : 30 < 32) hi,
      flagBit_getLsbD _ (by decide : 29 < 32) hi,
      flagBit_getLsbD _ (by decide : 28 < 32) hi, hne _ (by decide : 28 ≤ 31),
      hne _ (by decide : 28 ≤ 30), hne _ (by decide : 28 ≤ 29), hne _ (Nat.le_refl 28),
      hlow i (by omega), Bool.and_false, Bool.or_false, Bool.and_true]

/-! ## Words in memory -/

/-- The addresses of `n` words from `a` on. -/
def Within (a : Word) (n : Nat) (x : Word) : Prop :=
  ∃ k < n, x = a + BitVec.ofNat 32 (4 * k)

theorem Within.succ {a : Word} {n : Nat} {x : Word} (h : Within (a + 4#32) n x) :
    Within a (n + 1) x := by
  obtain ⟨k, hk, rfl⟩ := h
  refine ⟨k + 1, Nat.succ_lt_succ hk, ?_⟩
  rw [BitVec.add_assoc, Nat.mul_succ, Nat.add_comm (4 * k), BitVec.ofNat_add]

theorem Within.first (a : Word) (n : Nat) : Within a (n + 1) a :=
  ⟨0, Nat.succ_pos n, (BitVec.add_zero a).symm⟩

theorem Within.shift {a : Word} {n k j : Nat} {x : Word}
    (h : Within (a + BitVec.ofNat 32 (4 * j)) k x) (hn : j + k ≤ n) : Within a n x := by
  obtain ⟨i, hi, rfl⟩ := h
  refine ⟨j + i, by omega, ?_⟩
  rw [BitVec.add_assoc, Nat.mul_add, BitVec.ofNat_add]

theorem Within.word {a : Word} {n k : Nat} (hk : k < n) :
    Within a n (a + BitVec.ofNat 32 (4 * k)) :=
  ⟨k, hk, rfl⟩

/-- Behind them. -/
theorem not_within {a : Word} {n k : Nat} (hn : n ≤ k) (hk : k < 2 ^ 30) :
    ¬ Within a n (a + BitVec.ofNat 32 (4 * k)) := by
  rintro ⟨i, hi, heq⟩
  have hnat := congrArg BitVec.toNat ((BitVec.add_right_inj a).1 heq)
  rw [BitVec.toNat_ofNat, BitVec.toNat_ofNat] at hnat
  omega

/-- Addresses that do not wrap. -/
theorem Within.range {a : Word} {n : Nat} {x : Word} (h : Within a n x)
    (hn : a.toNat + 4 * n ≤ 2 ^ 32) : a.toNat ≤ x.toNat ∧ x.toNat < a.toNat + 4 * n := by
  obtain ⟨k, hk, rfl⟩ := h
  rw [BitVec.toNat_add, BitVec.toNat_ofNat]
  omega

def storeWords (mem : Word → Word) (a : Word) : List Word → Word → Word
  | [] => mem
  | w :: ws => storeWords (Function.update mem a w) (a + 4#32) ws

def loadWords (mem : Word → Word) (a : Word) : Nat → List Word
  | 0 => []
  | n + 1 => mem a :: loadWords mem (a + 4#32) n

section
variable {mem mem' : Word → Word} {a x : Word} {ws : List Word}

theorem storeWords_frame (h : ¬ Within a ws.length x) : storeWords mem a ws x = mem x := by
  induction ws generalizing mem a with
  | nil => rfl
  | cons w ws ih =>
      have hne : x ≠ a := fun heq => h (heq ▸ Within.first a ws.length)
      rw [storeWords, ih fun hx => h hx.succ, Function.update_of_ne hne]

theorem loadWords_congr {n : Nat} (h : ∀ x, Within a n x → mem x = mem' x) :
    loadWords mem a n = loadWords mem' a n := by
  induction n generalizing a with
  | zero => rfl
  | succ n ih =>
      rw [loadWords, loadWords, h a (Within.first a n), ih fun x hx => h x hx.succ]

/-- Fewer words than fill the memory. -/
theorem not_within_succ {n : Nat} (hn : n < 2 ^ 30) : ¬ Within (a + 4#32) n a := by
  rintro ⟨k, hk, heq⟩
  have hnat := congrArg BitVec.toNat heq
  rw [BitVec.toNat_add, BitVec.toNat_add, BitVec.toNat_ofNat, BitVec.toNat_ofNat] at hnat
  have ha := a.isLt
  omega

/-- A block of words is read back. -/
theorem load_storeWords (h : ws.length < 2 ^ 30) :
    loadWords (storeWords mem a ws) a ws.length = ws := by
  induction ws generalizing mem a with
  | nil => rfl
  | cons w ws ih =>
      have hlen : ws.length < 2 ^ 30 := by
        rw [List.length_cons] at h
        omega
      rw [List.length_cons, loadWords, storeWords, ih hlen,
        storeWords_frame (not_within_succ hlen), Function.update_self]

theorem loadWords_get {n k : Nat} (h : k < n) :
    (loadWords mem a n)[k]? = some (mem (a + BitVec.ofNat 32 (4 * k))) := by
  induction n generalizing a k with
  | zero => omega
  | succ n ih =>
      cases k with
      | zero =>
          rw [loadWords, List.getElem?_cons_zero, Nat.mul_zero, BitVec.add_zero]
      | succ k =>
          rw [loadWords, List.getElem?_cons_succ, ih (by omega), BitVec.add_assoc,
            Nat.mul_succ, Nat.add_comm (4 * k), BitVec.ofNat_add]

end

/-! ## The processor -/

abbrev Reg := BitVec 4

inductive Bank where
  | usr
  | fiq
  | irq
  | svc
  | abt
  | und
  deriving DecidableEq, Repr

/-- The bank of a mode, the low five bits of a status register. -/
def bank (psr : Word) : Bank :=
  match (psr &&& 0x1F).toNat with
  | 0x11 => .fiq
  | 0x12 => .irq
  | 0x13 => .svc
  | 0x17 => .abt
  | 0x1B => .und
  | _ => .usr

/-- The registers of all banks. -/
inductive Slot where
  | core (n : Reg)
  | fiq (n : Reg)
  | sp (b : Bank)
  | lr (b : Bank)
  deriving DecidableEq, Repr

def slot (b : Bank) (n : Reg) : Slot :=
  if n = 13#4 then .sp b
  else if n = 14#4 then .lr b
  else if b = .fiq ∧ 8 ≤ n.toNat ∧ n.toNat < 13 then .fiq n
  else .core n

/-- A write to a coprocessor register. -/
structure Mcr where
  opc1 : Nat
  crn : Nat
  crm : Nat
  opc2 : Nat
  deriving DecidableEq, Repr

/-- Neither `IRQ` nor `FIQ` is taken. -/
def masked (psr : Word) : Bool := psr &&& 0xC0 == 0xC0

/-- A write, with its word and whether interrupts were masked. -/
structure Told where
  op : Mcr
  word : Word
  masked : Bool
  deriving DecidableEq, Repr

structure Cpu where
  regs : Slot → Word
  cpsr : Word
  spsr : Bank → Word
  mem : Word → Word
  /-- what coprocessors were told, the last first -/
  told : List Told

namespace Cpu

def get (c : Cpu) (n : Reg) : Word := c.regs (slot (bank c.cpsr) n)

def set (c : Cpu) (n : Reg) (v : Word) : Cpu :=
  { c with regs := Function.update c.regs (slot (bank c.cpsr) n) v }

/-- Registers and the words they get. -/
def setAll (c : Cpu) : List (Reg × Word) → Cpu
  | [] => c
  | (n, v) :: rest => (c.set n v).setAll rest

/-- Registers of the user's bank. -/
def setUser (c : Cpu) : List (Reg × Word) → Cpu
  | [] => c
  | (n, v) :: rest =>
      { c with regs := Function.update c.regs (slot .usr n) v }.setUser rest

end Cpu

/-- The address of the lowest of `k` words below. -/
def below (a : Word) (k : Nat) : Word := a - BitVec.ofNat 32 (4 * k)

theorem below_add (a : Word) (k j : Nat) :
    below a (k + j) + BitVec.ofNat 32 (4 * j) = below a k := by
  unfold below
  rw [Nat.mul_add, BitVec.ofNat_add]
  generalize BitVec.ofNat 32 (4 * k) = x
  generalize BitVec.ofNat 32 (4 * j) = y
  bv_omega

/-! ## Instructions -/

inductive Src where
  | imm (x : Word)
  | reg (n : Reg)
  deriving DecidableEq, Repr

def Src.read (c : Cpu) : Src → Word
  | .imm x => x
  | .reg n => c.get n

inductive Alu where
  | add
  | sub
  | and
  | orr
  | eor
  | bic
  deriving DecidableEq, Repr

def Alu.eval : Alu → Word → Word → Word
  | .add, x, y => x + y
  | .sub, x, y => x - y
  | .and, x, y => x &&& y
  | .orr, x, y => x ||| y
  | .eor, x, y => x ^^^ y
  | .bic, x, y => x &&& ~~~y

/-- The operand that is not a register in general comes first and the destination last, as
in the listings. -/
inductive Instr where
  | mov (s : Src) (d : Reg)
  /-- `d` becomes `n` with `s` -/
  | alu (o : Alu) (s : Src) (n d : Reg)
  | subs (s : Src) (n d : Reg)
  /-- `n` compared with `s` -/
  | cmp (s : Src) (n : Reg)
  | fromCpsr (d : Reg)
  | toCpsr (s : Reg)
  | fromSpsr (d : Reg)
  | toSpsr (s : Reg)
  | load (off : Word) (n d : Reg)
  | store (s : Reg) (off : Word) (n : Reg)
  /-- and `n` becomes the address -/
  | storeW (s : Reg) (off : Word) (n : Reg)
  /-- `MOVM.DB` to memory -/
  | push (rs : List Reg) (n : Reg)
  /-- `MOVM.DB.W` -/
  | pushW (rs : List Reg) (n : Reg)
  /-- `MOVM.DB` from memory -/
  | pull (n : Reg) (rs : List Reg)
  /-- `MOVM.DB.S` from memory -/
  | pullUser (n : Reg) (rs : List Reg)
  /-- `MOVM.IA.S.W (n), [R15]` -/
  | rfe (n : Reg)
  | mcr (o : Mcr) (s : Reg)
  deriving DecidableEq, Repr

def Instr.exec (c : Cpu) : Instr → Cpu
  | .mov s d => c.set d (s.read c)
  | .alu o s n d => c.set d (o.eval (c.get n) (s.read c))
  | .subs s n d =>
      let x := c.get n
      let y := s.read c
      { c.set d (x - y) with cpsr := withFlags c.cpsr (subFlags x y) }
  | .cmp s n => { c with cpsr := withFlags c.cpsr (subFlags (c.get n) (s.read c)) }
  | .fromCpsr d => c.set d c.cpsr
  | .toCpsr s => { c with cpsr := c.get s }
  | .fromSpsr d => c.set d (c.spsr (bank c.cpsr))
  | .toSpsr s => { c with spsr := Function.update c.spsr (bank c.cpsr) (c.get s) }
  | .load off n d => c.set d (c.mem (c.get n + off))
  | .store s off n => { c with mem := Function.update c.mem (c.get n + off) (c.get s) }
  | .storeW s off n =>
      let a := c.get n + off
      { c with mem := Function.update c.mem a (c.get s) }.set n a
  | .push rs n =>
      { c with mem := storeWords c.mem (below (c.get n) rs.length) (rs.map c.get) }
  | .pushW rs n =>
      let a := below (c.get n) rs.length
      { c with mem := storeWords c.mem a (rs.map c.get) }.set n a
  | .pull n rs =>
      c.setAll (rs.zip (loadWords c.mem (below (c.get n) rs.length) rs.length))
  | .pullUser n rs =>
      c.setUser (rs.zip (loadWords c.mem (below (c.get n) rs.length) rs.length))
  | .rfe n =>
      let a := c.get n
      let c' := c.set n (a + 4#32)
      { c' with
        regs := Function.update c'.regs (.core 15#4) (c.mem a)
        cpsr := c.spsr (bank c.cpsr) }
  | .mcr o s => { c with told := ⟨o, c.get s, masked c.cpsr⟩ :: c.told }

/-- The same but for the flags. -/
def Alike (psr psr' : Word) : Prop := psr &&& 0x0FFFFFFF = psr' &&& 0x0FFFFFFF

section
variable {psr psr' : Word}

theorem Alike.and {mask : Word} (h : Alike psr psr') (hmask : 0x0FFFFFFF &&& mask = mask) :
    psr &&& mask = psr' &&& mask := by
  rw [← hmask, ← BitVec.and_assoc, ← BitVec.and_assoc, h]

theorem Alike.bank (h : Alike psr psr') : bank psr = bank psr' := by
  unfold Arm.bank
  rw [h.and (by decide)]

theorem Alike.masked (h : Alike psr psr') : masked psr = masked psr' := by
  unfold Arm.masked
  rw [h.and (by decide)]

theorem Alike.refl (psr : Word) : Alike psr psr := rfl

theorem Alike.trans {psr'' : Word} (h : Alike psr psr') (h' : Alike psr' psr'') :
    Alike psr psr'' :=
  Eq.trans h h'

theorem Alike.withFlags (h : Alike psr psr') (f : Flags) : Alike (withFlags psr f) psr' :=
  (withFlags_and psr f (by decide)).trans h

end

/-- The first eight registers are those of every mode. -/
theorem slot_low (b : Bank) {n : Reg} (hn : n.toNat < 8) : slot b n = .core n := by
  unfold slot
  rw [if_neg, if_neg, if_neg]
  · rintro ⟨-, h, -⟩
    omega
  · rintro rfl
    exact absurd hn (by decide)
  · rintro rfl
    exact absurd hn (by decide)

/-- The kernel has `R13` and `R14` of its own. -/
theorem slot_svc {n : Reg} (h13 : n ≠ 13#4) (h14 : n ≠ 14#4) : slot .svc n = .core n := by
  unfold slot
  rw [if_neg h13, if_neg h14, if_neg fun hfiq => Bank.noConfusion hfiq.1]

/-- Instructions one after the other. -/
def execAll (is : List Instr) (c : Cpu) : Cpu := is.foldl Instr.exec c

theorem execAll_append (is js : List Instr) (c : Cpu) :
    execAll (is ++ js) c = execAll js (execAll is c) :=
  List.foldl_append ..

/-- An exception: the status and the return address go to the bank of the new mode. -/
def Cpu.take (c : Cpu) (psr ret vector : Word) : Cpu :=
  { c with
    regs :=
      Function.update (Function.update c.regs (.lr (bank psr)) ret) (.core 15#4) vector
    spsr := Function.update c.spsr (bank psr) c.cpsr
    cpsr := psr }

/-! ## Loops and branches -/

inductive Code where
  | straight (is : List Instr)
  | seq (p q : Code)
  /-- `label: body; Bcond label` -/
  | loop (body : Code) (cond : BitVec 4)
  /-- `Bcond target; rest` -/
  | branch (cond : BitVec 4) (target rest : Code)

/-- At most `fuel` passes. -/
def passes (body : Cpu → Option Cpu) (cond : BitVec 4) : Nat → Cpu → Option Cpu
  | 0, _ => none
  | fuel + 1, c => do
      let c ← body c
      if holds (flags c.cpsr) cond then passes body cond fuel c else some c

/-- `none` where a loop has more than `fuel` passes. -/
def Code.exec (fuel : Nat) : Code → Cpu → Option Cpu
  | .straight is, c => some (execAll is c)
  | .seq p q, c => (p.exec fuel c).bind (q.exec fuel)
  | .loop body cond, c => passes (body.exec fuel) cond fuel c
  | .branch cond target rest, c =>
      if holds (flags c.cpsr) cond then target.exec fuel c else rest.exec fuel c

section
variable {p q r : Code} {cond : BitVec 4} {fuel : Nat} {c c' c'' : Cpu}

theorem seq_exec (hp : p.exec fuel c = some c') (hq : q.exec fuel c' = some c'') :
    (Code.seq p q).exec fuel c = some c'' := by
  rw [Code.exec, hp, Option.bind_some, hq]

theorem branch_taken (h : holds (flags c.cpsr) cond = true) :
    (Code.branch cond p q).exec fuel c = p.exec fuel c :=
  if_pos h

theorem branch_passed (h : ¬ holds (flags c.cpsr) cond = true) :
    (Code.branch cond p q).exec fuel c = q.exec fuel c :=
  if_neg h

end

section
variable {body : Code} {cond : BitVec 4} {n fuel : Nat} {c : Cpu} (I : Nat → Cpu → Prop)

theorem passes_rule
    (hbody : ∀ k < n, ∀ c, I k c → ∃ c', body.exec fuel c = some c' ∧ I (k + 1) c' ∧
      (holds (flags c'.cpsr) cond = true ↔ k + 1 < n))
    {k left : Nat} (hI : I k c) (hk : k < n) (hleft : n ≤ k + left) :
    ∃ c', passes (body.exec fuel) cond left c = some c' ∧ I n c' := by
  induction left generalizing k c with
  | zero => omega
  | succ left ih =>
      obtain ⟨c', hc', hnext, hcond⟩ := hbody k hk c hI
      rw [passes, hc', Option.bind_eq_bind, Option.bind_some]
      by_cases hlast : k + 1 < n
      · rw [if_pos (hcond.2 hlast)]
        exact ih hnext hlast (by omega)
      · obtain rfl : k + 1 = n := by omega
        rw [if_neg fun h => hlast (hcond.1 h)]
        exact ⟨c', rfl, hnext⟩

/-- A loop with an invariant `I`, that goes back until `n` passes are done. -/
theorem loop_rule
    (hbody : ∀ k < n, ∀ c, I k c → ∃ c', body.exec fuel c = some c' ∧ I (k + 1) c' ∧
      (holds (flags c'.cpsr) cond = true ↔ k + 1 < n))
    (hI : I 0 c) (hn : 0 < n) (hfuel : n ≤ fuel) :
    ∃ c', (Code.loop body cond).exec fuel c = some c' ∧ I n c' :=
  passes_rule I hbody hI hn (by omega)

end

end Kirkwood.Verified.Arm
