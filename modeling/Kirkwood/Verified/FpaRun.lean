import Kirkwood.Verified.Fpa
import Kirkwood.Verified.Outcome

/-!
# Machines with an FPA

What the instructions of `Fpa` do on a machine.  The machine is given its arithmetic as an
`Arith`, with a table of the operations that it has.

## Main results

* `exec_frame`: what an instruction does not write stays as it is;
* `run_block`: instructions that follow one another in memory are performed in this order,
  as long as none of them writes the code or the program counter.
-/

namespace Kirkwood.Verified.Fpa

open Kirkwood.Verified.Arm (Word Flags holds Within)
open Kirkwood.Verified.Fields
open Kirkwood.Verified.Outcome

/-! ## The machine -/

/-- The values in the coprocessor and what can be done with them. -/
structure Arith (α : Type) where
  ofSingle : Word → α
  ofDouble : Word → Word → α
  toSingle : α → Word
  toDouble : α → Word × Word
  ofWord : Word → α
  toWord : α → Word
  const : BitVec 3 → α
  neg : α → α
  compare : α → α → Flags
  monadic : BitVec 4 → Option (α → α)
  /-- of `Fn` and `Fm` -/
  dyadic : BitVec 4 → Option (α → α → α)

/-- While an instruction is performed, register 15 has its address.  `mem` has no word at
addresses that are not mapped or not aligned. -/
@[ext] structure State (α : Type) where
  r : BitVec 4 → Word
  flags : Flags
  f : BitVec 3 → α
  fpsr : Word
  fpcr : Word
  mem : Word → Option Word

inductive Trap where
  | undefined
  | abort
  /-- not an instruction of this coprocessor -/
  | foreign
  deriving DecidableEq, Repr

section
variable {α : Type} (A : Arith α)

def State.pc (s : State α) : Word := s.r 15#4

def State.next (s : State α) : State α :=
  { s with r := Function.update s.r 15#4 (s.pc + 4#32) }

def fetch (mem : Word → Option Word) (a : Word) : Except Trap Word :=
  match mem a with
  | some x => .ok x
  | none => .error .abort

def put (mem : Word → Option Word) (a x : Word) : Except Trap (Word → Option Word) :=
  match mem a with
  | some _ => .ok (Function.update mem a (some x))
  | none => .error .abort

def Address.start (a : Address) (s : State α) : Word :=
  s.r a.base + if a.base = 15#4 then 8#32 else 0#32

def Address.delta (a : Address) : Word :=
  if a.up then a.offset.setWidth 32 * 4#32 else -(a.offset.setWidth 32 * 4#32)

/-- The address of the transfer. -/
def Address.target (a : Address) (s : State α) : Word :=
  if a.pre then a.start s + a.delta else a.start s

/-- The registers after it. -/
def Address.after (a : Address) (s : State α) : BitVec 4 → Word :=
  if a.writeback then Function.update s.r a.base (a.start s + a.delta) else s.r

def Operand.read (s : State α) : Operand → α
  | .reg f => s.f f
  | .const c => A.const c

def readFloat (s : State α) (long : Bool) (a : Word) : Except Trap α :=
  if long then do
    let l ← fetch s.mem a
    let h ← fetch s.mem (a + 4#32)
    .ok (A.ofDouble l h)
  else do
    let x ← fetch s.mem a
    .ok (A.ofSingle x)

def writeFloat (mem : Word → Option Word) (long : Bool) (a : Word) (x : α) :
    Except Trap (Word → Option Word) :=
  if long then do
    let mem ← put mem a (A.toDouble x).1
    put mem (a + 4#32) (A.toDouble x).2
  else put mem a (A.toSingle x)

def exec (i : Insn) (s : State α) : Except Trap (State α) :=
  match i with
  | .load long fd a => do
      let x ← readFloat A s long (a.target s)
      .ok { s with f := Function.update s.f fd x, r := a.after s }
  | .store long fd a => do
      let mem ← writeFloat A s.mem long (a.target s) (s.f fd)
      .ok { s with mem := mem, r := a.after s }
  | .compare negated _ fn fm =>
      let m := fm.read A s
      .ok { s with flags := A.compare (s.f fn) (if negated then A.neg m else m) }
  | .flt fn rd => .ok { s with f := Function.update s.f fn (A.ofWord (s.r rd)) }
  | .fix rd fm => .ok { s with r := Function.update s.r rd.reg (A.toWord (s.f fm)) }
  | .wfs rd => .ok { s with fpsr := s.r rd }
  | .rfs rd => .ok { s with r := Function.update s.r rd.reg s.fpsr }
  | .wfc rd => .ok { s with fpcr := s.r rd }
  | .rfc rd => .ok { s with r := Function.update s.r rd.reg s.fpcr }
  | .dyadic op fd fn fm =>
      match A.dyadic op with
      | some g => .ok { s with f := Function.update s.f fd (g (s.f fn) (fm.read A s)) }
      | none => .error .undefined
  | .monadic op fd fm =>
      match A.monadic op with
      | some g => .ok { s with f := Function.update s.f fd (g (fm.read A s)) }
      | none => .error .undefined

/-- The instructions of coprocessor 1. -/
def isFpa (op : Word) : Bool :=
  field op.toNat 8 4 == 1 && (field op.toNat 24 4 == 0xE || field op.toNat 25 3 == 6)

def perform (op : Word) (s : State α) : Except Trap (State α) :=
  if holds s.flags (op.extractLsb' 28 4) then
    match decode op with
    | some i => exec A i s
    | none => .error .undefined
  else .ok s

def step (s : State α) : Except Trap (State α) := do
  let op ← fetch s.mem s.pc
  if isFpa op then do
    let s ← perform A op s
    .ok s.next
  else .error .foreign

/-- Where a run has stopped, after how many instructions, and what stopped it. -/
structure Stop (α : Type) where
  count : Nat
  state : State α
  trap : Option Trap

/-- At most `fuel` instructions, and the next ones until one traps. -/
def run : Nat → State α → Stop α
  | 0, s => ⟨0, s, none⟩
  | fuel + 1, s =>
      match step A s with
      | .ok s' => { run fuel s' with count := (run fuel s').count + 1 }
      | .error e => ⟨0, s, some e⟩

end

section
variable {α : Type} {A : Arith α} {s s' : State α}

theorem run_ok (h : step A s = .ok s') (fuel : Nat) :
    run A (fuel + 1) s = { run A fuel s' with count := (run A fuel s').count + 1 } := by
  rw [run, h]

theorem run_error {e : Trap} (h : step A s = .error e) (fuel : Nat) :
    run A (fuel + 1) s = ⟨0, s, some e⟩ := by
  rw [run, h]

end

/-! ## Straight-line code -/

section
variable {α : Type} {A : Arith α}

/-- The instruction changes the program counter itself. -/
def Insn.Jumps : Insn → Prop
  | .load _ _ a | .store _ _ a => a.writeback ∧ a.base = 15#4
  | _ => False

/-- A transfer traps where there is no memory. -/
theorem readFloat_trap {s : State α} {long : Bool} {a : Word} {e : Trap}
    (h : readFloat A s long a = .error e) : e = .abort := by
  have hfetch : ∀ {a e}, fetch s.mem a = .error e → e = .abort := by
    intro a e h
    unfold fetch at h
    split at h
    · cases h
    · cases h
      rfl
  unfold readFloat at h
  cases long with
  | true =>
      cases hl : fetch s.mem a with
      | error e' =>
          simp only [hl, if_true] at h
          cases h
          exact hfetch hl
      | ok l =>
          cases hh : fetch s.mem (a + 4#32) with
          | error e' =>
              simp only [hl, hh, if_true] at h
              cases h
              exact hfetch hh
          | ok k =>
              simp only [hl, hh, if_true] at h
              cases h
  | false =>
      cases hl : fetch s.mem a with
      | error e' =>
          simp only [hl, Bool.false_eq_true, if_false] at h
          cases h
          exact hfetch hl
      | ok l =>
          simp only [hl, Bool.false_eq_true, if_false] at h
          cases h

theorem writeFloat_trap {mem : Word → Option Word} {long : Bool} {a : Word} {x : α}
    {e : Trap} (h : writeFloat A mem long a x = .error e) : e = .abort := by
  have hput : ∀ {mem a x e}, put mem a x = .error e → e = .abort := by
    intro mem a x e h
    unfold put at h
    split at h
    · cases h
    · cases h
      rfl
  unfold writeFloat at h
  cases long with
  | true =>
      cases hl : put mem a (A.toDouble x).1 with
      | error e' =>
          simp only [hl, if_true] at h
          cases h
          exact hput hl
      | ok mem' =>
          simp only [hl, if_true] at h
          exact hput h
  | false =>
      simp only [Bool.false_eq_true, if_false] at h
      exact hput h

theorem exec_trap {i : Insn} {s : State α} {e : Trap} (h : exec A i s = .error e) :
    e ≠ .foreign := by
  rintro rfl
  cases i with
  | load long fd a =>
      unfold exec at h
      cases hread : readFloat A s long (a.target s) with
      | error e =>
          obtain rfl := readFloat_trap hread
          simp only [hread] at h
          cases h
      | ok x =>
          simp only [hread] at h
          cases h
  | store long fd a =>
      unfold exec at h
      cases hwrite : writeFloat A s.mem long (a.target s) (s.f fd) with
      | error e =>
          obtain rfl := writeFloat_trap hwrite
          simp only [hwrite] at h
          cases h
      | ok mem =>
          simp only [hwrite] at h
          cases h
  | dyadic op fd fn fm =>
      unfold exec at h
      simp only [] at h
      split at h
      · cases h
      · cases h
  | monadic op fd fm =>
      unfold exec at h
      simp only [] at h
      split at h
      · cases h
      · cases h
  | _ => cases h

theorem perform_trap {op : Word} {s : State α} {e : Trap} (h : perform A op s = .error e) :
    e ≠ .foreign := by
  unfold perform at h
  split at h
  · split at h
    · exact exec_trap h
    · cases h
      decide
  · cases h

/-- The addresses that the instruction writes. -/
def Insn.writes (i : Insn) (s : State α) : List Word :=
  match i with
  | .store true _ a => [a.target s, a.target s + 4#32]
  | .store false _ a => [a.target s]
  | _ => []

theorem put_frame {mem mem' : Word → Option Word} {a x b : Word}
    (h : put mem a x = .ok mem') (hb : b ≠ a) : mem' b = mem b := by
  unfold put at h
  split at h
  · cases h
    exact Function.update_of_ne hb ..
  · cases h

theorem after_pc {a : Address} (s : State α) (h : ¬ (a.writeback ∧ a.base = 15#4)) :
    a.after s 15#4 = s.r 15#4 := by
  unfold Address.after
  split
  · next hwrite =>
      have hbase : (15#4 : BitVec 4) ≠ a.base := fun heq => h ⟨hwrite, heq.symm⟩
      exact Function.update_of_ne hbase ..
  · rfl

/-- What is not written stays as it is. -/
theorem exec_frame {i : Insn} {s s' : State α} (h : exec A i s = .ok s') :
    (¬ i.Jumps → s'.pc = s.pc) ∧ ∀ a, a ∉ i.writes s → s'.mem a = s.mem a := by
  cases i with
  | load long fd a =>
      unfold exec at h
      cases hread : readFloat A s long (a.target s) with
      | error e =>
          simp only [hread] at h
          cases h
      | ok x =>
          simp only [hread] at h
          cases h
          exact ⟨after_pc s, fun _ _ => rfl⟩
  | store long fd a =>
      unfold exec at h
      cases hwrite : writeFloat A s.mem long (a.target s) (s.f fd) with
      | error e =>
          simp only [hwrite] at h
          cases h
      | ok mem =>
          simp only [hwrite] at h
          cases h
          refine ⟨after_pc s, fun b hb => ?_⟩
          unfold writeFloat at hwrite
          cases long with
          | false =>
              exact put_frame hwrite fun heq => hb (List.mem_singleton.2 heq)
          | true =>
              have hne : b ≠ a.target s := fun heq => hb (heq ▸ List.mem_cons_self)
              have hne' : b ≠ a.target s + 4#32 := fun heq =>
                hb (List.mem_cons_of_mem _ (List.mem_singleton.2 heq))
              cases hfirst : put s.mem (a.target s) (A.toDouble (s.f fd)).1 with
              | error e =>
                  simp only [hfirst, if_true] at hwrite
                  cases hwrite
              | ok mem' =>
                  simp only [hfirst, if_true] at hwrite
                  exact (put_frame hwrite hne').trans (put_frame hfirst hne)
  | compare negated exception fn fm =>
      cases h
      exact ⟨fun _ => rfl, fun _ _ => rfl⟩
  | flt fn rd =>
      cases h
      exact ⟨fun _ => rfl, fun _ _ => rfl⟩
  | fix rd fm =>
      cases h
      exact ⟨fun _ => Function.update_of_ne rd.ne_pc.symm .., fun _ _ => rfl⟩
  | wfs rd =>
      cases h
      exact ⟨fun _ => rfl, fun _ _ => rfl⟩
  | rfs rd =>
      cases h
      exact ⟨fun _ => Function.update_of_ne rd.ne_pc.symm .., fun _ _ => rfl⟩
  | wfc rd =>
      cases h
      exact ⟨fun _ => rfl, fun _ _ => rfl⟩
  | rfc rd =>
      cases h
      exact ⟨fun _ => Function.update_of_ne rd.ne_pc.symm .., fun _ _ => rfl⟩
  | dyadic op fd fn fm =>
      unfold exec at h
      simp only [] at h
      split at h
      · cases h
        exact ⟨fun _ => rfl, fun _ _ => rfl⟩
      · cases h
  | monadic op fd fm =>
      unfold exec at h
      simp only [] at h
      split at h
      · cases h
        exact ⟨fun _ => rfl, fun _ _ => rfl⟩
      · cases h

/-- An instruction under its condition. -/
def issue (A : Arith α) (ci : BitVec 4 × Insn) (s : State α) : Except Trap (State α) :=
  if holds s.flags ci.1 then exec A ci.2 s else .ok s

/-- One instruction after the other. -/
def block (A : Arith α) : List (BitVec 4 × Insn) → State α → Except Trap (State α)
  | [], s => .ok s
  | ci :: is, s => do
      let s ← issue A ci s
      block A is s.next

/-- Memory has the words of the instructions from `pc` on. -/
def Placed (mem : Word → Option Word) : Word → List (BitVec 4 × Insn) → Prop
  | _, [] => True
  | pc, ci :: is =>
      (∃ op, mem pc = some op ∧ op.extractLsb' 28 4 = ci.1 ∧ Matches op ci.2) ∧
        Placed mem (pc + 4#32) is

/-- While the instructions are performed in order, no one changes the program counter or
writes to the code. -/
def Straight (A : Arith α) (code : Word → Prop) :
    List (BitVec 4 × Insn) → State α → Prop
  | [], _ => True
  | ci :: is, s =>
      ¬ ci.2.Jumps ∧ (∀ a, code a → a ∉ ci.2.writes s) ∧
        ∀ s', issue A ci s = .ok s' → Straight A code is s'.next

/-- Instructions on registers alone. -/
theorem straight_of_registers {code : Word → Prop} {is : List (BitVec 4 × Insn)}
    (h : ∀ ci ∈ is, ¬ ci.2.Jumps ∧ ∀ s : State α, ci.2.writes s = []) (s : State α) :
    Straight A code is s := by
  induction is generalizing s with
  | nil => trivial
  | cons ci is ih =>
      obtain ⟨hjump, hwrites⟩ := h ci List.mem_cons_self
      refine ⟨hjump, fun a _ => ?_, fun s' _ => ih (fun c hc => ?_) s'.next⟩
      · rw [hwrites s]
        exact List.not_mem_nil
      · exact h c (List.mem_cons_of_mem _ hc)

theorem Placed.congr {mem mem' : Word → Option Word} {pc : Word}
    {is : List (BitVec 4 × Insn)} (h : Placed mem pc is)
    (hmem : ∀ a, Within pc is.length a → mem' a = mem a) : Placed mem' pc is := by
  induction is generalizing pc with
  | nil => trivial
  | cons ci is ih =>
      obtain ⟨⟨op, hop, hbits⟩, hrest⟩ := h
      have hpc : Within pc (ci :: is).length pc := Within.first pc is.length
      exact ⟨⟨op, (hmem pc hpc).trans hop, hbits⟩, ih hrest fun a ha => hmem a ha.succ⟩

/-- What has the bits of an instruction is one of the coprocessor. -/
theorem Matches.isFpa {op : Word} {i : Insn} (h : Matches op i) : isFpa op = true := by
  have hdecode := matches_decode h
  unfold decode at hdecode
  unfold Fpa.isFpa
  split at hdecode
  · next hcp =>
      split at hdecode
      · next hop => simp [hcp, hop]
      · split at hdecode
        · next hop => simp [hcp, hop]
        · cases hdecode
  · cases hdecode

theorem issue_frame {ci : BitVec 4 × Insn} {s s' : State α} (h : issue A ci s = .ok s')
    (hjump : ¬ ci.2.Jumps) :
    s'.pc = s.pc ∧ ∀ a, a ∉ ci.2.writes s → s'.mem a = s.mem a := by
  unfold issue at h
  split at h
  · exact ⟨(exec_frame h).1 hjump, (exec_frame h).2⟩
  · cases h
    exact ⟨rfl, fun _ _ => rfl⟩

theorem next_pc (s : State α) : s.next.pc = s.pc + 4#32 := by
  show Function.update s.r 15#4 (s.pc + 4#32) 15#4 = s.pc + 4#32
  rw [Function.update_self]

/-- A step through code in memory. -/
theorem step_placed {ci : BitVec 4 × Insn} {s t : State α} {op : Word}
    (hop : s.mem s.pc = some op) (hcond : op.extractLsb' 28 4 = ci.1)
    (hbits : Matches op ci.2) (h : issue A ci s = .ok t) : step A s = .ok t.next := by
  have hperform : perform A op s = .ok t := by
    unfold perform
    rw [hcond, matches_decode hbits]
    exact h
  unfold step fetch
  simp only [hop, ok_bind, hbits.isFpa, hperform, if_true]

/-- `run_block` with room for the induction. -/
theorem run_placed {is : List (BitVec 4 × Insn)} {code : Word → Prop} {s s' : State α}
    (hplaced : Placed s.mem s.pc is) (hcode : ∀ a, Within s.pc is.length a → code a)
    (hstraight : Straight A code is s) (hblock : block A is s = .ok s') (fuel : Nat) :
    run A (is.length + fuel) s =
      { run A fuel s' with count := is.length + (run A fuel s').count } := by
  induction is generalizing s with
  | nil =>
      cases hblock
      simp only [List.length_nil, Nat.zero_add]
  | cons ci is ih =>
      obtain ⟨⟨op, hop, hcond, hbits⟩, hrest⟩ := hplaced
      obtain ⟨hjump, hwrites, hnext⟩ := hstraight
      obtain ⟨t, ht, hblock⟩ := bind_eq_ok.1 hblock
      obtain ⟨hpc, hmem⟩ := issue_frame ht hjump
      have hsucc : ∀ a, Within t.next.pc is.length a → code a := by
        intro a ha
        rw [next_pc, hpc] at ha
        exact hcode a ha.succ
      have hplaced : Placed t.next.mem t.next.pc is := by
        rw [next_pc, hpc]
        refine hrest.congr fun a ha => hmem a (hwrites a ?_)
        exact hcode a ha.succ
      have hstep := step_placed hop hcond hbits ht
      have hrun := ih hplaced hsucc (hnext t ht) hblock
      have hlength : (ci :: is).length + fuel = is.length + fuel + 1 := by
        rw [List.length_cons]
        omega
      rw [hlength, run_ok hstep]
      simp only [hrun, List.length_cons]
      congr 1
      omega

/-- **Straight-line code.** Instructions one after the other are performed in this order,
and the run goes on behind them. -/
theorem run_block {is : List (BitVec 4 × Insn)} {s s' : State α}
    (hplaced : Placed s.mem s.pc is)
    (hstraight : Straight A (Within s.pc is.length) is s)
    (hblock : block A is s = .ok s') (fuel : Nat) :
    run A (is.length + fuel) s =
      { run A fuel s' with count := is.length + (run A fuel s').count } :=
  run_placed hplaced (fun _ h => h) hstraight hblock fuel

end

end Kirkwood.Verified.Fpa
