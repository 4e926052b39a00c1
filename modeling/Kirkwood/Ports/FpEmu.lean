import Kirkwood.Verified.FpaRun
import Kirkwood.Verified.Mask
import Kirkwood.Ports.FpiArm

/-!
# Emulated floating-point instructions

`fpiarm` is called for an undefined instruction.  While the words at `ur->pc` are
instructions of coprocessor 1, `fpemu` takes each one apart and performs it on the saved
registers and the `FPenv` of the process.

The routines of `fpi.c` and `fpimem.c` are not in the repository.  A register is read and
written through `roff`, where number 13 is `ur->type`.

## Main results

* `fpemu_exec`: for every word of coprocessor 1, what `fpemu` does is the meaning of the
  instruction that has these bits, and without one it is `unimp`.
-/

namespace Kirkwood.Ports.FpEmu

open Kirkwood.Verified
open Kirkwood.Verified.Arm (Word flags)
open Kirkwood.Verified.Fields
open Kirkwood.Verified.Fpa
open Kirkwood.Verified.Outcome
open Kirkwood.Ports.FpiArm

/-! ## The saved registers -/

/-- The members of a `Ureg` that are used. -/
inductive Off where
  | r (i : Fin 13)
  | type
  | r14
  | psr
  | pc
  deriving DecidableEq, Repr

abbrev Ureg := Off → Word

/-- `roff` without `R13OK` -/
def roff (x : BitVec 4) : Off :=
  if h : x.toNat < 13 then .r ⟨x.toNat, h⟩
  else if x.toNat = 13 then .type
  else if x.toNat = 14 then .r14
  else .pc

inductive FpiState where
  | FPINIT
  | FPACTIVE
  | FPINACTIVE
  deriving DecidableEq, Repr

structure FPenv where
  status : Word
  control : Word
  fpistate : FpiState
  regs : BitVec 3 → Internal

/-- `mem` has the words of the addresses that are mapped, at multiples of 4. -/
structure Machine where
  ur : Ureg
  ufp : FPenv
  mem : Word → Option Word

/-! ## Operations -/

/-- `fpi.c` and `fpimem.c` -/
structure Lib extends Fpi where
  fpimul : Internal → Internal → Internal
  fpidiv : Internal → Internal → Internal
  fpicmp : Internal → Internal → Int
  fpis2i : Word → Internal
  fpid2i : Word → Word → Internal
  fpiw2i : Word → Internal
  fpii2s : Internal → Word
  fpii2d : Internal → Word × Word
  fpii2w : Internal → Word

def N : Word := 1#32 <<< 31
def Z : Word := 1#32 <<< 30
def C : Word := 1#32 <<< 29
def V : Word := 1#32 <<< 28
def REGPC : BitVec 4 := 15#4

section
variable (lib : Lib)

def fsubr (m n : Internal) : Internal :=
  let n := { n with s := !n.s }
  (if n.s = m.s then lib.fpiadd else lib.fpisub) n m

def fmul (m n : Internal) : Internal := lib.fpimul m n

def fdiv (m n : Internal) : Internal := lib.fpidiv m n

def fdivr (m n : Internal) : Internal := lib.fpidiv n m

def fmov (m : Internal) : Internal := m

def fmovn (m : Internal) : Internal := { m with s := !m.s }

def fabsf (m : Internal) : Internal := { m with s := false }

/-- The function of `optab1`, if it is not nil. -/
def optab1 (o : BitVec 4) : Option (Internal → Internal) :=
  match o.toNat with
  | 0 => some fmov
  | 1 => some fmovn
  | 2 => some fabsf
  | 3 => some (frnd lib.toFpi)
  | _ => none

/-- The function of `optab2`. -/
def optab2 (o : BitVec 4) : Option (Internal → Internal → Internal) :=
  match o.toNat with
  | 0 => some (fadd lib.toFpi)
  | 1 => some (fmul lib)
  | 2 => some (fsub lib.toFpi)
  | 3 => some (fsubr lib)
  | 4 => some (fdiv lib)
  | 5 => some (fdivr lib)
  | 9 => some (fmul lib)
  | 10 => some (fdiv lib)
  | 11 => some (fdivr lib)
  | _ => none

def fcmp (n m : Internal) : Word :=
  if IsWeird m ∨ IsWeird n then V ||| C
  else
    let i := lib.fpicmp n m
    if i > 0 then C
    else if i = 0 then C ||| Z
    else N

def condok (cc : Word) (c : Nat) : Bool :=
  match c with
  | 0 => cc &&& Z != 0
  | 1 => cc &&& Z == 0
  | 2 => cc &&& C != 0
  | 3 => cc &&& C == 0
  | 4 => cc &&& N != 0
  | 5 => cc &&& N == 0
  | 6 => cc &&& V != 0
  | 7 => cc &&& V == 0
  | 8 => cc &&& C != 0 && cc &&& Z == 0
  | 9 => cc &&& C == 0 || cc &&& Z != 0
  | 10 => ~~~cc &&& (N ||| V) == 0 || cc &&& (N ||| V) == 0
  | 11 => cc &&& (N ||| V) == N || cc &&& (N ||| V) == V
  | 12 => cc &&& Z == 0 && (~~~cc &&& (N ||| V) == 0 || cc &&& (N ||| V) == 0)
  | 13 => cc &&& Z != 0 || cc &&& (N ||| V) == N || cc &&& (N ||| V) == V
  | 14 => true
  | _ => false

/-! ## fpemu -/

/-- `%lux` -/
def lux (x : Word) : String := String.ofList (Nat.toDigits 16 x.toNat)

/-- `%.8lux` -/
def lux8 (x : Word) : String := String.ofList ((Nat.toDigits 16 x.toNat).leftpad 8 '0')

/-- The error of `unimp`. -/
def unimp (pc op : Word) : Exn :=
  .error ("sys: fp: pc=" ++ lux pc ++ " unimp fp 0x" ++ lux8 op)

def getulong (mem : Word → Option Word) (a : Word) : Except Exn Word :=
  match mem a with
  | some x => .ok x
  | none => .error .fault

def putulong (mem : Word → Option Word) (a x : Word) : Except Exn (Word → Option Word) :=
  match mem a with
  | some _ => .ok (Function.update mem a (some x))
  | none => .error .fault

def REG (m : Machine) (x : BitVec 4) : Word := m.ur (roff x)

def setREG (m : Machine) (x : BitVec 4) (v : Word) : Machine :=
  { m with ur := Function.update m.ur (roff x) v }

/-- `FR(x)`, the register `x & 7` -/
def FR (m : Machine) (x : Word) : Internal := m.ufp.regs (x.setWidth 3)

def setFR (m : Machine) (x : Word) (v : Internal) : Machine :=
  { m with ufp := { m.ufp with regs := Function.update m.ufp.regs (x.setWidth 3) v } }

/-- `fld(fpid2i, d, ea, 8, ufp)` and `fld(fpis2i, d, ea, 4, ufp)` -/
def fld (m : Machine) (d : Word) (ea : Word) (n : Nat) : Except Exn Machine :=
  if n = 8 then do
    let l ← getulong m.mem ea
    let h ← getulong m.mem (ea + 4)
    .ok (setFR m d (lib.fpid2i l h))
  else do
    let x ← getulong m.mem ea
    .ok (setFR m d (lib.fpis2i x))

/-- `fst(fpii2d, ea, s, 8, ufp)` and `fst(fpii2s, ea, s, 4, ufp)`.  Where there is no memory
for the second word of a double, the source has stored the first before the fault; what is
raised here leaves the memory as it was. -/
def fst (m : Machine) (ea : Word) (s : Word) (n : Nat) : Except Exn Machine :=
  let tmp := FR m s
  if n = 8 then do
    let mem ← putulong m.mem ea (lib.fpii2d tmp).1
    let mem ← putulong mem (ea + 4) (lib.fpii2d tmp).2
    .ok { m with mem := mem }
  else do
    let mem ← putulong m.mem ea (lib.fpii2s tmp)
    .ok { m with mem := mem }

/-- LDF, STF; 10.1.1 -/
def fpemuLdf (pc op : Word) (m : Machine) : Except Exn Machine :=
  if op &&& 1#32 <<< 22 ≠ 0 then .error (unimp pc op)
  else
    let rn := ((op >>> 16) &&& 0xF).setWidth 4
    let off := (op &&& 0xFF) <<< 2
    let off := if op &&& 1#32 <<< 23 = 0 then -off else off
    let ea := REG m rn
    let ea := if rn = REGPC then ea + 8 else ea
    let ea := if op &&& 1#32 <<< 24 ≠ 0 then ea + off else ea
    let rd := (op >>> 12) &&& 7
    let n := if op &&& 1#32 <<< 15 ≠ 0 then 8 else 4
    do
      let m ← if op &&& 1#32 <<< 20 ≠ 0 then fld lib m rd ea n else fst lib m ea rd n
      let ea := if op &&& 1#32 <<< 24 = 0 then ea + off else ea
      .ok (if op &&& 1#32 <<< 21 ≠ 0 then setREG m rn ea else m)

/-- `fm`: a constant or a register -/
def fmOperand (m : Machine) (op : Word) : Internal :=
  if op &&& 1#32 <<< 3 ≠ 0 then fpconst ((op &&& 7).setWidth 3) else FR m (op &&& 7)

/-- `ur->psr &= ~(N|C|Z|V)` and `ur->psr |= cc` -/
def setcc (m : Machine) (cc : Word) : Machine :=
  { m with
    ur := Function.update m.ur .psr ((m.ur .psr &&& ~~~(N ||| C ||| Z ||| V)) ||| cc) }

/-- compare, 10.3.1 -/
def fpemuCmp (pc op : Word) (m : Machine) : Except Exn Machine :=
  let fn := FR m ((op >>> 16) &&& 7)
  let fm := fmOperand m op
  match ((op >>> 21) &&& 7).toNat with
  | 4 => .ok (setcc m (fcmp lib fn fm))
  | 6 => .ok (setcc m (fcmp lib fn fm))
  | 5 => .ok (setcc m (fcmp lib fn { fm with s := !fm.s }))
  | 7 => .ok (setcc m (fcmp lib fn { fm with s := !fm.s }))
  | _ => .error (unimp pc op)

/-- other transfer, 10.3 -/
def fpemuMove (pc op : Word) (m : Machine) : Except Exn Machine :=
  let rd := ((op >>> 12) &&& 0xF).setWidth 4
  match ((op >>> 20) &&& 0xF).toNat with
  | 0 => .ok (setFR m ((op >>> 16) &&& 7) (lib.fpiw2i (REG m rd)))
  | 1 =>
      if op &&& 1#32 <<< 3 ≠ 0 then .error (unimp pc op)
      else .ok (setREG m rd (lib.fpii2w (FR m (op &&& 7))))
  | 2 => .ok { m with ufp := { m.ufp with status := REG m rd } }
  | 3 => .ok (setREG m rd m.ufp.status)
  | 4 => .ok { m with ufp := { m.ufp with control := REG m rd } }
  | 5 => .ok (setREG m rd m.ufp.control)
  | _ => .error (unimp pc op)

/-- arithmetic -/
def fpemuArith (pc op : Word) (m : Machine) : Except Exn Machine :=
  let fm := fmOperand m op
  let rd := (op >>> 12) &&& 7
  let o := ((op >>> 20) &&& 0xF).setWidth 4
  if op &&& 1#32 <<< 15 ≠ 0 then
    match optab1 lib o with
    | none => .error (unimp pc op)
    | some f => .ok (setFR m rd (f fm))
  else
    match optab2 lib o with
    | none => .error (unimp pc op)
    | some f => .ok (setFR m rd (f fm (FR m ((op >>> 16) &&& 7))))

def fpemu (pc op : Word) (m : Machine) : Except Exn Machine :=
  if (op >>> 25) &&& 7 = 6 then fpemuLdf lib pc op m
  else if op &&& 1#32 <<< 4 ≠ 0 then
    if (op >>> 12) &&& 0xF = 15 ∧ op &&& 1#32 <<< 20 ≠ 0 then fpemuCmp lib pc op m
    else fpemuMove lib pc op m
  else fpemuArith lib pc op m

/-- The loop of `fpiarm`, from the `n`th instruction on.  What an error leaves is part of
the result. -/
def fpiarmLoop : Nat → Nat → Machine → EStateM.Result Exn Machine Nat
  | 0, _, m => .error .hang m
  | fuel + 1, n, m =>
      match getulong m.mem (m.ur .pc) with
      | .error e => .error e m
      | .ok op =>
          let o := (op >>> 24) &&& 0xF
          if (op >>> 8) &&& 0xF ≠ 1 ∨ o ≠ 0xE ∧ o &&& ~~~1 ≠ 0xC then .ok n m
          else
            match if condok (m.ur .psr) (op >>> 28).toNat then fpemu lib (m.ur .pc) op m
              else .ok m with
            | .error e => .error e m
            | .ok m => fpiarmLoop fuel (n + 1)
                { m with ur := Function.update m.ur .pc (m.ur .pc + 4) }

/-- The `FPenv` of a process that has not used it yet. -/
def fpinit (ufp : FPenv) : FPenv :=
  if ufp.fpistate ≠ .FPACTIVE then
    { fpistate := .FPACTIVE
      control := 0
      status := 0x01#32 <<< 28 ||| 1#32 <<< 12
      regs := fun _ => fpconst 0 }
  else ufp

/-- `sp` is the address behind the `Ureg`; `up` is whether there is a process. -/
def fpiarm (fuel : Nat) (sp : Word) (up : Bool) (m : Machine) :
    EStateM.Result Exn Machine Nat :=
  let m := { m with ur := Function.update m.ur .type sp }
  if up then fpiarmLoop lib fuel 0 { m with ufp := fpinit m.ufp }
  else .error (.panic "fpiarm not in a process") m

end

/-! ## The bits -/

section
variable {x y : Word} {o w : Nat}

/-- `(x >> o) & y` for a mask `y`. -/
theorem toNat_select (hmask : y.toNat = 2 ^ w - 1) :
    ((x >>> o) &&& y).toNat = field x.toNat o w := by
  rw [BitVec.toNat_and, BitVec.toNat_ushiftRight, hmask, Nat.and_two_pow_sub_one_eq_mod,
    Nat.shiftRight_eq_div_pow]
  rfl

theorem select_eq (hmask : y.toNat = 2 ^ w - 1) :
    ((x >>> o) &&& y).setWidth w = x.extractLsb' o w := by
  apply BitVec.eq_of_toNat_eq
  rw [BitVec.toNat_setWidth, toNat_select hmask, toNat_extract,
    Nat.mod_eq_of_lt (field_lt ..)]

theorem low_eq (hmask : y.toNat = 2 ^ w - 1) :
    (x &&& y).setWidth w = x.extractLsb' 0 w := by
  have hselect := select_eq (x := x) (o := 0) hmask
  rwa [BitVec.ushiftRight_zero] at hselect

theorem flag_eq_getLsbD : flag x o = x.getLsbD o := by
  rw [BitVec.getLsbD, Nat.testBit_eq_decide_div_mod_eq, flag, beq_eq_decide]
  rfl

/-- A test of one bit. -/
theorem test_iff (ho : o < 32) : x &&& 1#32 <<< o = 0 ↔ flag x o = false := by
  have hpow : 1#32 <<< o = BitVec.twoPow 32 o := (BitVec.twoPow_eq 32 o).symm
  have hne : BitVec.twoPow 32 o ≠ 0#32 := by
    intro heq
    have hnat := congrArg BitVec.toNat heq
    rw [BitVec.toNat_twoPow_of_lt ho, BitVec.toNat_ofNat] at hnat
    exact (Nat.two_pow_pos o).ne' hnat
  rw [hpow, BitVec.and_twoPow, flag_eq_getLsbD]
  cases x.getLsbD o with
  | false => exact ⟨fun _ => rfl, fun _ => rfl⟩
  | true => exact ⟨fun h => absurd h hne, nofun⟩

theorem test_ne_iff (ho : o < 32) : x &&& 1#32 <<< o ≠ 0 ↔ flag x o = true := by
  rw [Ne, test_iff ho, Bool.not_eq_false]

end

/-! ## The machine with an FPA -/

/-- The arithmetic of the emulator. -/
def arith (lib : Lib) : Arith Internal where
  ofSingle := lib.fpis2i
  ofDouble := lib.fpid2i
  toSingle := lib.fpii2s
  toDouble := lib.fpii2d
  ofWord := lib.fpiw2i
  toWord := lib.fpii2w
  const := fpconst
  neg m := { m with s := !m.s }
  compare n m := flags (fcmp lib n m)
  monadic := optab1 lib
  dyadic o := (optab2 lib o).map fun f n m => f m n

/-- What the machine is for the instructions. -/
def Machine.state (m : Machine) : State Internal where
  r x := m.ur (roff x)
  flags := flags (m.ur .psr)
  f := m.ufp.regs
  fpsr := m.ufp.status
  fpcr := m.ufp.control
  mem := m.mem

/-- How `fpemu` ends for a trap. -/
def raise (pc op : Word) : Trap → Exn
  | .undefined => unimp pc op
  | .abort => .fault
  | .foreign => .hang

/-- The register of a member. -/
def Off.number : Off → Nat
  | .r i => i
  | .type => 13
  | .r14 => 14
  | _ => 15

theorem roff_number (x : BitVec 4) : (roff x).number = x.toNat := by
  have hx := x.isLt
  unfold roff
  split
  · rfl
  · split
    · next h13 => exact h13.symm
    · split
      · next h14 => exact h14.symm
      · show 15 = x.toNat
        omega

theorem roff_inj {x y : BitVec 4} (h : roff x = roff y) : x = y := by
  apply BitVec.eq_of_toNat_eq
  rw [← roff_number, ← roff_number, h]

theorem roff_pc : roff 15#4 = .pc := by
  decide

theorem roff_ne_psr (x : BitVec 4) : roff x ≠ .psr := by
  unfold roff
  split
  · exact nofun
  · split
    · exact nofun
    · split
      · exact nofun
      · exact nofun

section
variable {lib : Lib} {m : Machine}

theorem state_setREG (x : BitVec 4) (v : Word) :
    (setREG m x v).state = { m.state with r := Function.update m.state.r x v } := by
  have hr : (fun y => Function.update m.ur (roff x) v (roff y)) =
      Function.update (fun y => m.ur (roff y)) x v := by
    funext y
    by_cases hy : y = x
    · subst hy
      rw [Function.update_self, Function.update_self]
    · rw [Function.update_of_ne hy, Function.update_of_ne fun heq => hy (roff_inj heq)]
  have hpsr : Function.update m.ur (roff x) v .psr = m.ur .psr :=
    Function.update_of_ne (roff_ne_psr x).symm ..
  unfold Machine.state setREG
  simp only [hr, hpsr]

theorem state_setFR (x : Word) (v : Internal) :
    (setFR m x v).state =
      { m.state with f := Function.update m.state.f (x.setWidth 3) v } := rfl

variable (pc op : Word)

theorem getulong_eq (mem : Word → Option Word) (a : Word) :
    getulong mem a = (fetch mem a).mapError (raise pc op) := by
  unfold getulong fetch
  cases mem a with
  | none => rfl
  | some x => rfl

theorem putulong_eq (mem : Word → Option Word) (a x : Word) :
    putulong mem a x = (put mem a x).mapError (raise pc op) := by
  unfold putulong put
  cases mem a with
  | none => rfl
  | some y => rfl

theorem fld_eq (d ea : Word) (long : Bool) :
    fld lib m d ea (if long then 8 else 4) =
      (readFloat (arith lib) m.state long ea).mapError (raise pc op) >>= fun x =>
        .ok (setFR m d x) := by
  unfold fld readFloat
  show _ = Except.mapError _ (if long then fetch m.mem ea >>= fun l =>
    fetch m.mem (ea + 4#32) >>= fun h => .ok (lib.fpid2i l h) else
    fetch m.mem ea >>= fun x => .ok (lib.fpis2i x)) >>= _
  simp only [getulong_eq pc op]
  cases long with
  | true =>
      show (_ >>= fun l => Except.mapError _ (fetch m.mem (ea + 4#32)) >>= _) = _
      cases fetch m.mem ea with
      | error e => rfl
      | ok l =>
          cases fetch m.mem (ea + 4#32) with
          | error e => rfl
          | ok h => rfl
  | false =>
      cases fetch m.mem ea with
      | error e => rfl
      | ok x => rfl

theorem fst_eq (d ea : Word) (long : Bool) :
    fst lib m ea d (if long then 8 else 4) =
      (writeFloat (arith lib) m.mem long ea (FR m d)).mapError (raise pc op) >>= fun mem =>
        .ok { m with mem := mem } := by
  unfold fst writeFloat
  simp only [putulong_eq pc op]
  cases long with
  | true =>
      show (Except.mapError _ (put m.mem ea (lib.fpii2d (FR m d)).1) >>= _) =
        Except.mapError _ (put m.mem ea (lib.fpii2d (FR m d)).1 >>= _) >>= _
      cases put m.mem ea (lib.fpii2d (FR m d)).1 with
      | error e => rfl
      | ok mem =>
          show (Except.mapError _ (put mem (ea + 4#32) (lib.fpii2d (FR m d)).2) >>= _) =
            Except.mapError _ (put mem (ea + 4#32) (lib.fpii2d (FR m d)).2) >>= _
          cases put mem (ea + 4#32) (lib.fpii2d (FR m d)).2 with
          | error e => rfl
          | ok mem => rfl
  | false =>
      show (Except.mapError _ (put m.mem ea (lib.fpii2s (FR m d))) >>= _) =
        Except.mapError _ (put m.mem ea (lib.fpii2s (FR m d))) >>= _
      cases put m.mem ea (lib.fpii2s (FR m d)) with
      | error e => rfl
      | ok mem => rfl

/-- The meaning of a decoded instruction, with the traps raised. -/
def meaning (lib : Lib) (pc op : Word) (i : Option Insn) (s : State Internal) :
    Except Exn (State Internal) :=
  match i with
  | some i => (exec (arith lib) i s).mapError (raise pc op)
  | none => .error (unimp pc op)

variable {pc op}

theorem offset_eq : (op &&& 0xFF) <<< 2 = (op.extractLsb' 0 8).setWidth 32 * 4#32 := by
  have hlow : (op &&& 0xFF).toNat = field op.toNat 0 8 := by
    have hselect := toNat_select (x := op) (y := 0xFF) (o := 0) (w := 8) rfl
    rwa [BitVec.ushiftRight_zero] at hselect
  have hlt := field_lt op.toNat 0 8
  apply BitVec.eq_of_toNat_eq
  rw [BitVec.toNat_shiftLeft, BitVec.toNat_mul, BitVec.toNat_setWidth, hlow, toNat_extract,
    Nat.shiftLeft_eq, Nat.mod_eq_of_lt (by omega : field op.toNat 0 8 < 2 ^ 32)]
  rfl

theorem start_eq :
    (if op.extractLsb' 16 4 = REGPC then REG m (op.extractLsb' 16 4) + 8
      else REG m (op.extractLsb' 16 4)) = (address op).start m.state := by
  show _ = REG m (op.extractLsb' 16 4) + if op.extractLsb' 16 4 = 15#4 then 8#32 else 0#32
  unfold REGPC
  split
  · rfl
  · rw [BitVec.add_zero]

theorem delta_eq :
    (if op &&& 1#32 <<< 23 = 0 then -((op &&& 0xFF) <<< 2) else (op &&& 0xFF) <<< 2) =
      (address op).delta := by
  rw [offset_eq]
  simp only [test_iff (x := op) (o := 23) (by decide)]
  show _ = if flag op 23 then (op.extractLsb' 0 8).setWidth 32 * 4#32
    else -((op.extractLsb' 0 8).setWidth 32 * 4#32)
  cases flag op 23 with
  | true => rfl
  | false => rfl

/-- `fpemuLdf` in terms of the fields. -/
theorem fpemuLdf_eq : fpemuLdf lib pc op m =
    if flag op 22 then .error (unimp pc op)
    else (if flag op 20 then
        fld lib m ((op >>> 12) &&& 7) ((address op).target m.state)
          (if flag op 15 then 8 else 4)
      else
        fst lib m ((address op).target m.state) ((op >>> 12) &&& 7)
          (if flag op 15 then 8 else 4)) >>= fun m' => .ok (if flag op 21 then
        setREG m' (op.extractLsb' 16 4) ((address op).start m.state + (address op).delta)
      else m') := by
  have htarget : (address op).target m.state = if flag op 24 then
      (address op).start m.state + (address op).delta else (address op).start m.state := rfl
  unfold fpemuLdf
  simp only [select_eq (w := 4) (y := 0xF) (x := op) (o := 16) rfl, start_eq, delta_eq,
    htarget, test_ne_iff (x := op) (o := 22) (by decide),
    test_ne_iff (x := op) (o := 24) (by decide),
    test_ne_iff (x := op) (o := 20) (by decide),
    test_ne_iff (x := op) (o := 15) (by decide),
    test_ne_iff (x := op) (o := 21) (by decide), test_iff (x := op) (o := 24) (by decide)]
  cases flag op 24 <;> cases flag op 20 <;> rfl

/-- The base register afterwards. -/
theorem state_after {m' : Machine} (h : m'.state.r = m.state.r) :
    (if flag op 21 then
        setREG m' (op.extractLsb' 16 4) ((address op).start m.state + (address op).delta)
      else m').state = { m'.state with r := (address op).after m.state } := by
  have hafter : (address op).after m.state = if flag op 21 then
      Function.update m.state.r (op.extractLsb' 16 4)
        ((address op).start m.state + (address op).delta) else m.state.r := rfl
  rw [hafter]
  cases flag op 21 with
  | true =>
      rw [if_pos rfl, if_pos rfl, state_setREG, h]
  | false =>
      rw [if_neg Bool.false_ne_true, if_neg Bool.false_ne_true, ← h]

theorem fpemuLdf_exec : (fpemuLdf lib pc op m).map Machine.state =
    meaning lib pc op (decodeTransfer op) m.state := by
  rw [fpemuLdf_eq]
  unfold decodeTransfer
  cases flag op 22 with
  | true => rfl
  | false =>
      rw [if_neg Bool.false_ne_true, if_neg Bool.false_ne_true]
      cases flag op 20 with
      | true =>
          rw [if_pos rfl, if_pos rfl, fld_eq pc op]
          show _ = Except.mapError _ (readFloat (arith lib) m.state (flag op 15)
            ((address op).target m.state) >>= _)
          cases readFloat (arith lib) m.state (flag op 15)
            ((address op).target m.state) with
          | error e => rfl
          | ok x =>
              have hr : (setFR m ((op >>> 12) &&& 7) x).state.r = m.state.r := rfl
              refine congrArg Except.ok ?_
              rw [state_after hr, state_setFR, select_eq (w := 3) rfl]
      | false =>
          rw [if_neg Bool.false_ne_true, if_neg Bool.false_ne_true,
            fst_eq pc op]
          have hread : FR m ((op >>> 12) &&& 7) = m.state.f (op.extractLsb' 12 3) := by
            unfold FR
            rw [select_eq (w := 3) rfl]
            rfl
          rw [hread]
          show _ = Except.mapError _ (writeFloat (arith lib) m.mem (flag op 15)
            ((address op).target m.state) (m.state.f (op.extractLsb' 12 3)) >>= _)
          cases writeFloat (arith lib) m.mem (flag op 15) ((address op).target m.state)
            (m.state.f (op.extractLsb' 12 3)) with
          | error e => rfl
          | ok mem =>
              have hr : { m with mem := mem }.state.r = m.state.r := rfl
              refine congrArg Except.ok ?_
              rw [state_after hr]
              rfl

theorem FR_eq {o : Nat} : FR m ((op >>> o) &&& 7) = m.state.f (op.extractLsb' o 3) := by
  unfold FR
  rw [select_eq (w := 3) rfl]
  rfl

theorem fmOperand_eq (lib : Lib) :
    fmOperand m op = (operand op).read (arith lib) m.state := by
  unfold fmOperand FR operand
  simp only [test_ne_iff (x := op) (o := 3) (by decide),
    low_eq (x := op) (w := 3) (y := 7) rfl]
  cases flag op 3 with
  | true => rfl
  | false => rfl

theorem flags_and (x : Word) : flags (x &&& (N ||| C ||| Z ||| V)) = flags x := by
  have hmask : ∀ i ∈ [28, 29, 30, 31], (N ||| C ||| Z ||| V).getLsbD i = true := by decide
  unfold flags
  simp only [BitVec.getLsbD_and, hmask _ (by decide : 28 ∈ _), hmask _ (by decide : 29 ∈ _),
    hmask _ (by decide : 30 ∈ _), hmask _ (by decide : 31 ∈ _), Bool.and_true]

theorem fcmp_and (n m : Internal) :
    fcmp lib n m &&& (N ||| C ||| Z ||| V) = fcmp lib n m := by
  unfold fcmp
  split
  · decide
  · simp only []
    split
    · decide
    · split
      · decide
      · decide

theorem setcc_psr (cc : Word) :
    (setcc m cc).ur .psr = Mask.put (m.ur .psr) (N ||| C ||| Z ||| V) cc := by
  show Function.update m.ur .psr (Mask.put (m.ur .psr) (N ||| C ||| Z ||| V) cc) .psr = _
  rw [Function.update_self]

/-- The flags are those of the comparison. -/
theorem flags_setcc (a b : Internal) :
    flags ((setcc m (fcmp lib a b)).ur .psr) = flags (fcmp lib a b) := by
  rw [setcc_psr, ← flags_and, Mask.and_put_self (fcmp_and a b)]

theorem state_setcc (a b : Internal) : (setcc m (fcmp lib a b)).state =
    { m.state with flags := flags (fcmp lib a b) } := by
  have hr : (fun x => (setcc m (fcmp lib a b)).ur (roff x)) = fun x => m.ur (roff x) := by
    funext x
    exact Function.update_of_ne (roff_ne_psr x) ..
  unfold Machine.state
  rw [hr, flags_setcc]
  rfl

/-- The three bits of a comparison, one by one. -/
theorem field_compare : ((op >>> 21) &&& 7).toNat =
    (flag op 21).toNat + 2 * (flag op 22).toNat + 4 * (flag op 23).toNat := by
  rw [toNat_select (w := 3) rfl, field_append op.toNat 21 1 2, field_append op.toNat 22 1 1,
    toNat_flag, toNat_flag, toNat_flag]
  ring

/-- The comparisons, of which bit 20 is set and `Rd` is 15. -/
theorem fpemuCmp_exec (hpc : op.extractLsb' 12 4 = 15#4) (hread : flag op 20 = true) :
    (fpemuCmp lib pc op m).map Machine.state =
      meaning lib pc op (decodeMove op) m.state := by
  rw [decodeMove_pc hpc hread]
  unfold fpemuCmp
  simp only [field_compare, FR_eq, fmOperand_eq lib]
  cases flag op 23 with
  | false => cases flag op 21 <;> cases flag op 22 <;> rfl
  | true =>
      cases flag op 21 <;> cases flag op 22 <;> exact congrArg Except.ok (state_setcc ..)

theorem dest_some (h : op.extractLsb' 12 4 ≠ 15#4) :
    dest op = some ⟨op.extractLsb' 12 4, h⟩ :=
  dif_neg h

/-- The processor and the coprocessor exchange a word. -/
theorem fpemuMove_exec (hpc : ¬ (op.extractLsb' 12 4 = 15#4 ∧ flag op 20 = true)) :
    (fpemuMove lib pc op m).map Machine.state =
      meaning lib pc op (decodeMove op) m.state := by
  have hbits := field_bits op
  have hodd : field op.toNat 20 4 % 2 = 1 → op.extractLsb' 12 4 ≠ 15#4 := by
    intro hodd hrd
    refine hpc ⟨hrd, flag_eq.2 ?_⟩
    have hlt := field_lt op.toNat 20 1
    rw [Bool.toNat_true]
    omega
  unfold fpemuMove decodeMove
  simp only [toNat_select (x := op) (o := 20) (w := 4) (y := 0xF) rfl,
    select_eq (x := op) (o := 12) (w := 4) (y := 0xF) rfl,
    test_ne_iff (x := op) (o := 3) (by decide)]
  rcases hcode : field op.toNat 20 4 with _ | _ | _ | _ | _ | _ | k
  · refine congrArg Except.ok ?_
    rw [state_setFR, select_eq (w := 3) rfl]
    rfl
  · cases flag op 3 with
    | true => rfl
    | false =>
        simp only [dest_some (hodd (by omega))]
        refine congrArg Except.ok ?_
        rw [state_setREG]
        unfold FR
        rw [low_eq (x := op) (w := 3) rfl]
        rfl
  · rfl
  · simp only [dest_some (hodd (by omega))]
    exact congrArg Except.ok (state_setREG ..)
  · rfl
  · simp only [dest_some (hodd (by omega))]
    exact congrArg Except.ok (state_setREG ..)
  · simp only [if_neg fun h : op.extractLsb' 12 4 = 15#4 ∧ flag op 20 = true ∧
      flag op 23 = true => hpc ⟨h.1, h.2.1⟩]
    rfl

theorem arith_monadic (o : BitVec 4) : (arith lib).monadic o = optab1 lib o := rfl

theorem arith_dyadic (o : BitVec 4) :
    (arith lib).dyadic o = (optab2 lib o).map fun f n m => f m n := rfl

theorem fpemuArith_exec : (fpemuArith lib pc op m).map Machine.state =
    meaning lib pc op (some (decodeArith op)) m.state := by
  unfold fpemuArith decodeArith
  simp only [FR_eq, fmOperand_eq lib, test_ne_iff (x := op) (o := 15) (by decide),
    select_eq (x := op) (o := 20) (w := 4) (y := 0xF) rfl]
  cases flag op 15 with
  | true =>
      simp only [if_true, meaning, exec, arith_monadic]
      cases optab1 lib (op.extractLsb' 20 4) with
      | none => rfl
      | some f =>
          refine congrArg Except.ok ?_
          rw [state_setFR, select_eq (w := 3) rfl]
  | false =>
      simp only [Bool.false_eq_true, if_false, meaning, exec, arith_dyadic]
      cases optab2 lib (op.extractLsb' 20 4) with
      | none => rfl
      | some f =>
          refine congrArg Except.ok ?_
          rw [state_setFR, select_eq (w := 3) rfl]

theorem isFpa_iff : isFpa op = true ↔
    field op.toNat 8 4 = 1 ∧ (field op.toNat 24 4 = 0xE ∨ field op.toNat 25 3 = 6) := by
  unfold isFpa
  rw [Bool.and_eq_true, Bool.or_eq_true, beq_iff_eq, beq_iff_eq, beq_iff_eq]

/-- What `fpemu` does to a word of the coprocessor. -/
theorem fpemu_decode (hop : isFpa op = true) :
    (fpemu lib pc op m).map Machine.state = meaning lib pc op (decode op) m.state := by
  obtain ⟨hcp, hop⟩ := isFpa_iff.1 hop
  have hldf : (op >>> 25) &&& 7 = 6 ↔ field op.toNat 25 3 = 6 := by
    rw [← toNat_select (x := op) (o := 25) (w := 3) (y := 7) rfl, ← BitVec.toNat_inj]
    rfl
  have hrd : (op >>> 12) &&& 0xF = 15 ↔ op.extractLsb' 12 4 = 15#4 := by
    rw [extract_eq, ← toNat_select (x := op) (o := 12) (w := 4) (y := 0xF) rfl,
      ← BitVec.toNat_inj]
    rfl
  unfold fpemu
  simp only [hldf, hrd, test_ne_iff (x := op) (o := 4) (by decide),
    test_ne_iff (x := op) (o := 20) (by decide)]
  by_cases htransfer : field op.toNat 25 3 = 6
  · rw [if_pos htransfer, decode_transfer hcp htransfer, fpemuLdf_exec]
  · have hop := hop.resolve_right htransfer
    rw [if_neg htransfer]
    by_cases hmove : flag op 4 = true
    · rw [if_pos hmove, decode_move hcp hop (flag_eq.1 hmove)]
      split
      · next hpc => exact fpemuCmp_exec hpc.1 hpc.2
      · next hpc => exact fpemuMove_exec hpc
    · rw [if_neg hmove, decode_arith hcp hop (flag_eq.1 (Bool.eq_false_iff.2 hmove)),
        fpemuArith_exec]

/-! ### What stays -/

/-- The mode and the interrupt bits of the saved status are as they were. -/
structure Frame (m m' : Machine) : Prop where
  psr : m'.ur .psr &&& ~~~(N ||| C ||| Z ||| V) = m.ur .psr &&& ~~~(N ||| C ||| Z ||| V)
  fpistate : m'.ufp.fpistate = m.ufp.fpistate

variable {m' m'' : Machine}

theorem Frame.refl (m : Machine) : Frame m m := ⟨rfl, rfl⟩

theorem Frame.trans (h : Frame m m') (h' : Frame m' m'') : Frame m m'' :=
  ⟨h'.psr.trans h.psr, h'.fpistate.trans h.fpistate⟩

theorem setREG_frame (x : BitVec 4) (v : Word) : Frame m (setREG m x v) := by
  refine ⟨?_, rfl⟩
  show Function.update m.ur (roff x) v .psr &&& _ = _
  rw [Function.update_of_ne (roff_ne_psr x).symm]

theorem setFR_frame (x : Word) (v : Internal) : Frame m (setFR m x v) := ⟨rfl, rfl⟩

theorem setcc_frame (a b : Internal) : Frame m (setcc m (fcmp lib a b)) := by
  refine ⟨?_, rfl⟩
  rw [setcc_psr]
  exact Mask.and_put_other (fcmp_and a b) (by decide)

theorem fld_frame {d ea : Word} {n : Nat} (h : fld lib m d ea n = .ok m') : Frame m m' := by
  unfold fld at h
  split at h
  · obtain ⟨l, -, h⟩ := bind_eq_ok.1 h
    obtain ⟨k, -, h⟩ := bind_eq_ok.1 h
    cases h
    exact setFR_frame ..
  · obtain ⟨x, -, h⟩ := bind_eq_ok.1 h
    cases h
    exact setFR_frame ..

theorem fst_frame {ea d : Word} {n : Nat} (h : fst lib m ea d n = .ok m') : Frame m m' := by
  unfold fst at h
  simp only [] at h
  split at h
  · obtain ⟨l, -, h⟩ := bind_eq_ok.1 h
    obtain ⟨k, -, h⟩ := bind_eq_ok.1 h
    cases h
    exact ⟨rfl, rfl⟩
  · obtain ⟨x, -, h⟩ := bind_eq_ok.1 h
    cases h
    exact ⟨rfl, rfl⟩

theorem fpemuLdf_frame (h : fpemuLdf lib pc op m = .ok m') : Frame m m' := by
  rw [fpemuLdf_eq] at h
  split at h
  · cases h
  · obtain ⟨t, ht, h⟩ := bind_eq_ok.1 h
    have hframe : Frame m t := by
      split at ht
      · exact fld_frame ht
      · exact fst_frame ht
    cases h
    split
    · exact hframe.trans (setREG_frame ..)
    · exact hframe

theorem fpemu_frame (h : fpemu lib pc op m = .ok m') : Frame m m' := by
  unfold fpemu at h
  split at h
  · exact fpemuLdf_frame h
  split at h
  · split at h
    · unfold fpemuCmp at h
      simp only [] at h
      split at h
      · cases h
        exact setcc_frame ..
      · cases h
        exact setcc_frame ..
      · cases h
        exact setcc_frame ..
      · cases h
        exact setcc_frame ..
      · cases h
    · unfold fpemuMove at h
      simp only [] at h
      split at h
      · cases h
        exact setFR_frame ..
      · split at h
        · cases h
        · cases h
          exact setREG_frame ..
      · cases h
        exact ⟨rfl, rfl⟩
      · cases h
        exact setREG_frame ..
      · cases h
        exact ⟨rfl, rfl⟩
      · cases h
        exact setREG_frame ..
      · cases h
  · unfold fpemuArith at h
    simp only [] at h
    split at h
    · split at h
      · cases h
      · cases h
        exact setFR_frame ..
    · split at h
      · cases h
      · cases h
        exact setFR_frame ..

theorem map_eq_error {α β : Type} {x : Except Exn α} {f : α → β} {e : Exn}
    (h : x.map f = .error e) : x = .error e := by
  cases x with
  | error e' => exact congrArg Except.error (Except.error.inj h)
  | ok a => cases h

theorem map_eq_ok {α β : Type} {x : Except Exn α} {f : α → β} {b : β}
    (h : x.map f = .ok b) : ∃ a, x = .ok a ∧ f a = b := by
  cases x with
  | error e => cases h
  | ok a => exact ⟨a, rfl, Except.ok.inj h⟩

theorem fpemu_matches {lib : Lib} {m : Machine} (pc : Word) {op : Word} {i : Insn}
    (hop : isFpa op = true) (hi : Matches op i) :
    (fpemu lib pc op m).map Machine.state =
      (exec (arith lib) i m.state).mapError (raise pc op) := by
  rw [fpemu_decode hop, decode_eq_some_iff.2 hi]
  rfl

/-- Every instruction is emulated, under every condition. -/
theorem fpemu_encode (lib : Lib) (pc : Word) (cond : BitVec 4) (i : Insn) (m : Machine) :
    (encode cond i).extractLsb' 28 4 = cond ∧
      (fpemu lib pc (encode cond i) m).map Machine.state =
        (exec (arith lib) i m.state).mapError (raise pc (encode cond i)) := by
  have hop : isFpa (encode cond i) = true := (encode_matches cond i).isFpa
  refine ⟨encode_cond cond i, ?_⟩
  rw [fpemu_decode hop, decode_encode]
  rfl

/-- **`fpemu`.** A word with the bits of an instruction does what the instruction means,
every other word of the coprocessor raises `unimp`, and neither touches the mode. -/
theorem fpemu_exec (lib : Lib) (pc op : Word) (m : Machine) (hop : isFpa op = true) :
    (∀ i, Matches op i → (fpemu lib pc op m).map Machine.state =
      (exec (arith lib) i m.state).mapError (raise pc op)) ∧
    ((∀ i, ¬ Matches op i) → fpemu lib pc op m = .error (unimp pc op)) ∧
    ∀ m', fpemu lib pc op m = .ok m' → Frame m m' := by
  refine ⟨fun i hi => fpemu_matches pc hop hi, fun hnone => ?_,
    fun m' hm' => fpemu_frame hm'⟩
  have hdecode : decode op = none :=
    Option.eq_none_iff_forall_ne_some.2 fun i hi => hnone i (decode_eq_some_iff.1 hi)
  have hmap : (fpemu lib pc op m).map Machine.state = _ := fpemu_decode hop
  rw [hdecode] at hmap
  exact map_eq_error hmap

end

/-! ## A sample -/

/-- Numbers in order: the exponent counts before the significand. -/
def key (n : Internal) : Int :=
  if significand n = 0 then 0
  else if n.s then -(n.e * 2 ^ 56 + significand n)
  else n.e * 2 ^ 56 + significand n

/-- Routines for code that adds, compares and moves. -/
def sampleLib : Lib where
  toFpi := exactFpi
  fpimul m _ := m
  fpidiv m _ := m
  fpicmp a b := key a - key b
  fpis2i _ := fpconst 0
  fpid2i _ _ := fpconst 0
  fpiw2i _ := fpconst 0
  fpii2s _ := 0
  fpii2d _ := (0, 0)
  fpii2w _ := 0

/-- `MVF F1, #2`, `ADF F0, F1, #1`, `CMF F0, #3`, `MNFEQ F2, F0` and `MOV R0, R0` -/
def sample : Machine where
  ur := fun _ => 0
  ufp := { status := 0, control := 0, fpistate := .FPINIT, regs := fun _ => fpconst 0 }
  mem a := if a.toNat % 4 = 0 then
      ([0xEE00910A, 0xEE010109, 0xEE90F11B, 0x0E10A100, 0xE1A00000] :
        List Word)[a.toNat / 4]?
    else none

/-- `ADF F0, F1, #1` -/
theorem fpemu_adf : isFpa 0xEE010109 = true ∧
    Matches 0xEE010109 (.dyadic 0#4 0#3 1#3 (.const 1#3)) ∧
    (fpemu sampleLib 4 0xEE010109 sample).map Machine.state =
      (exec (arith sampleLib) (.dyadic 0#4 0#3 1#3 (.const 1#3)) sample.state).mapError
        (raise 4 0xEE010109) := by
  have hop : isFpa 0xEE010109 = true := by decide
  have hbits : Matches 0xEE010109 (.dyadic 0#4 0#3 1#3 (.const 1#3)) := by decide
  exact ⟨hop, hbits, (fpemu_exec sampleLib 4 0xEE010109 sample hop).1 _ hbits⟩

end Kirkwood.Ports.FpEmu
