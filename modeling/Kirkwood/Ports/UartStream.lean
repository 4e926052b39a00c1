import Mathlib.Data.List.Basic
import Kirkwood.Verified.Trans

/-!
# The characters of the serial line

`kw_kick`, `kw_intr` and `kw_read` of `uartkirkwood.c` between the queues of a `Uart` and
the line.  Each access to a register is a step; between any two the line takes a character
from the transmitter or brings one for the receiver, and the kernel writes to the output
queue.  The caller of `kw_kick` has locked the `Uart`, with interrupts disabled.

Reading `LSR` clears the overrun, and on some devices the errors of the first character.

## Main results

* `step_inv`: what a step keeps;
* `sends`: in every run the characters go out as they were written, and no output waits
  without an interrupt to come;
* `receives`: those that came in are passed on in their order, the good ones at least.
-/

namespace Kirkwood.Ports.UartStream

open Kirkwood.Verified.Trans

abbrev Word := BitVec 32

/-! ## io.h -/

def IRRnointr : Word := 1
def IRRthrempty : Word := 2
def IRRrxdata : Word := 4
def IRRtimeout : Word := 12

def LSRrx : Word := 1 <<< 0
def LSRrunerr : Word := 1 <<< 1
def LSRparerr : Word := 1 <<< 2
def LSRframeerr : Word := 1 <<< 3
def LSRbi : Word := 1 <<< 4
def LSRthre : Word := 1 <<< 5

/-! ## The device -/

/-- A character with its errors. -/
structure Rx where
  c : UInt8
  parerr : Bool
  frameerr : Bool
  bi : Bool
  deriving DecidableEq, Repr

def Rx.bad (x : Rx) : Bool := x.bi || x.frameerr || x.parerr

/-- The size of its buffers, and whether reading `LSR` clears the errors of the first
character. -/
structure Line where
  depth : Nat
  clears : Bool
  depth_pos : 0 < depth

/-- What an interrupt is for. -/
inductive Iir where
  | nointr
  | thrempty
  | rxdata
  | timeout
  deriving DecidableEq, Repr

def Iir.code : Iir → Word
  | .nointr => IRRnointr
  | .thrempty => IRRthrempty
  | .rxdata => IRRrxdata
  | .timeout => IRRtimeout

/-! ## The driver -/

/-- Where the code is; `rx` is whether `kw_intr` has `kw_read` to call behind `uartkick`. -/
inductive Pc where
  | idle
  /-- `for(i = 0; i < 16; i++)`, up to the test of `LSR` -/
  | kick (i : Nat) (rx : Bool)
  /-- `uart->op >= uart->oe && uartstageoutput(uart) == 0` -/
  | stage (i : Nat) (rx : Bool)
  /-- `regs->thr = *uart->op++` -/
  | put (i : Nat) (rx : Bool)
  /-- `lsr = regs->lsr` of `kw_read` -/
  | read
  /-- `c = (char)regs->rbr` -/
  | got (lsr : Word)
  deriving DecidableEq, Repr

/-- The device, the `Uart` and the code.  `staged` is from `op` up to `oe`.

The rest records what has become of characters: those `written` to the queue, those that
went out on the `wire`, those that did not fit in the transmitter; those that `arrived` in
the receiver, and those taken from there, with what `kw_read` did.  `seen` is whether the
errors of the first in `rbr` have been cleared.  `owed` is whether `uartkick` has still to
be called for what was written, and `held` whether it came back because output is
stopped. -/
structure State where
  thr : List UInt8
  thrintr : Bool
  rbr : List Rx
  seen : Bool
  overrun : Bool
  cts : Bool
  blocked : Bool
  oq : List UInt8
  staged : List UInt8
  oerr : Nat
  perr : Nat
  ferr : Nat
  recvd : List UInt8
  pc : Pc
  written : List UInt8
  wire : List UInt8
  dropped : List UInt8
  arrived : List Rx
  taken : List (Rx × Bool)
  owed : Bool
  held : Bool
  deriving DecidableEq, Repr

def bitIf (b : Bool) (x : Word) : Word := if b then x else 0

/-- `regs->lsr` -/
def State.lsr (s : State) : Word :=
  bitIf (s.rbr ≠ []) LSRrx ||| bitIf s.overrun LSRrunerr |||
    bitIf (s.rbr.head?.any fun x => x.parerr && !s.seen) LSRparerr |||
    bitIf (s.rbr.head?.any fun x => x.frameerr && !s.seen) LSRframeerr |||
    bitIf (s.rbr.head?.any fun x => x.bi && !s.seen) LSRbi |||
    bitIf (s.thr = []) LSRthre

/-- The device after `LSR` was read. -/
def State.lsrRead (l : Line) (s : State) : State :=
  { s with
    overrun := false
    seen := s.seen || (l.clears && s.rbr ≠ []) }

section
variable (l : Line)

/-- Behind `uartkick`. -/
def kicked (rx : Bool) : Pc := if rx then .read else .idle

/-- `uartkick`, up to the loop of `kw_kick`. -/
def uartkick (s : State) (rx : Bool) : State :=
  if s.cts = false ∨ s.blocked then { s with pc := kicked rx, owed := false, held := true }
  else { s with pc := .kick 0 rx, owed := false, held := false }

/-- `kw_intr`, up to a call. -/
def kw_intr (s : State) (v : Word) : State :=
  if v &&& IRRthrempty ≠ 0 then uartkick s (v &&& IRRrxdata ≠ 0)
  else if v &&& IRRrxdata ≠ 0 then { s with pc := .read }
  else s

/-- `uartstageoutput`: one character and up to `more` others from the queue to the stage, or
`none` when there is nothing. -/
def uartstageoutput (more : Nat) (s : State) : Option State :=
  if s.oq = [] then none
  else some { s with staged := s.oq.take (more + 1), oq := s.oq.drop (more + 1) }

/-- `regs->thr = c` -/
def State.put (s : State) (c : UInt8) : State :=
  if s.thr.length < l.depth then { s with thr := s.thr ++ [c], thrintr := false }
  else { s with dropped := s.dropped ++ [c], thrintr := false }

/-- The next statement. -/
def turn (more : Nat) (s : State) : Option State :=
  match s.pc with
  | .idle => none
  | .kick i rx =>
      if i < 16 then
        if s.lsr &&& LSRthre = 0 then some { s.lsrRead l with pc := kicked rx }
        else some { s.lsrRead l with pc := .stage i rx }
      else some { s with pc := kicked rx }
  | .stage i rx =>
      if s.staged = [] then
        match uartstageoutput more s with
        | none => some { s with pc := kicked rx }
        | some t => some { t with pc := .put i rx }
      else some { s with pc := .put i rx }
  | .put i rx =>
      match s.staged with
      | [] => none
      | c :: rest => some { s.put l c with staged := rest, pc := .kick (i + 1) rx }
  | .read =>
      if s.lsr &&& LSRrx = 0 then some { s.lsrRead l with pc := .idle }
      else
        some { s.lsrRead l with
          oerr := if s.lsr &&& LSRrunerr ≠ 0 then s.oerr + 1 else s.oerr
          perr := if s.lsr &&& LSRparerr ≠ 0 then s.perr + 1 else s.perr
          ferr := if s.lsr &&& LSRframeerr ≠ 0 then s.ferr + 1 else s.ferr
          pc := .got s.lsr }
  | .got lsr =>
      match s.rbr with
      | [] => none
      | x :: rest =>
          let good : Bool := lsr &&& (LSRbi ||| LSRframeerr ||| LSRparerr) = 0
          some { s with
            rbr := rest
            seen := false
            taken := s.taken ++ [(x, good)]
            recvd := if good then s.recvd ++ [x.c] else s.recvd
            pc := .read }

inductive Action where
  /-- a character goes out -/
  | shift
  /-- a character comes in -/
  | arrive (x : Rx)
  /-- output is stopped, or goes on -/
  | flow (cts blocked : Bool)
  /-- the kernel writes to the output queue -/
  | write (cs : List UInt8)
  /-- and calls `uartkick` -/
  | kick
  | intr (v : Iir)
  /-- the next statement, in which `uartstageoutput` takes up to `more` besides the first -/
  | turn (more : Nat)
  deriving DecidableEq, Repr

/-- What the device may give for an interrupt: input comes first, and may wait for more. -/
def State.raises (s : State) : Iir → Bool
  | .nointr => !s.thrintr
  | .thrempty => s.thrintr
  | .rxdata => s.rbr ≠ []
  | .timeout => s.rbr ≠ []

def step (s : State) : Action → Option State
  | .shift =>
      match s.thr with
      | [] => none
      | c :: rest => some { s with
          thr := rest
          wire := s.wire ++ [c]
          thrintr := s.thrintr || rest = [] }
  | .arrive x =>
      if s.rbr.length < l.depth then
        some { s with rbr := s.rbr ++ [x], arrived := s.arrived ++ [x] }
      else some { s with overrun := true }
  | .flow cts blocked => some { s with cts := cts, blocked := blocked }
  | .write cs => some { s with oq := s.oq ++ cs, written := s.written ++ cs, owed := true }
  | .kick => if s.pc = .idle then some (uartkick s false) else none
  | .intr v =>
      if s.pc = .idle ∧ s.raises v then
        some (kw_intr { s with thrintr := s.thrintr && v ≠ .thrempty } v.code)
      else none
  | .turn more => turn l more s

end

/-- The line before it is used. -/
def State.new (cts blocked : Bool) : State where
  thr := []
  thrintr := false
  rbr := []
  seen := false
  overrun := false
  cts := cts
  blocked := blocked
  oq := []
  staged := []
  oerr := 0
  perr := 0
  ferr := 0
  recvd := []
  pc := .idle
  written := []
  wire := []
  dropped := []
  arrived := []
  taken := []
  owed := false
  held := false

/-! ## The bits of `LSR` -/

section
variable {s : State}

theorem bits_and : ∀ rx run par frame bi thre : Bool,
    let v := bitIf rx LSRrx ||| bitIf run LSRrunerr ||| bitIf par LSRparerr |||
      bitIf frame LSRframeerr ||| bitIf bi LSRbi ||| bitIf thre LSRthre
    (v &&& LSRrx = 0 ↔ rx = false) ∧ (v &&& LSRthre = 0 ↔ thre = false) ∧
      (v &&& LSRparerr = 0 ↔ par = false) ∧ (v &&& LSRframeerr = 0 ↔ frame = false) ∧
      (v &&& (LSRbi ||| LSRframeerr ||| LSRparerr) = 0 ↔
        bi = false ∧ frame = false ∧ par = false) := by
  decide

theorem lsr_rx : s.lsr &&& LSRrx = 0 ↔ s.rbr = [] :=
  (bits_and ..).1.trans (by rw [decide_eq_false_iff_not, Decidable.not_not])

theorem lsr_thre : s.lsr &&& LSRthre = 0 ↔ s.thr ≠ [] :=
  (bits_and ..).2.1.trans decide_eq_false_iff_not

/-- The errors of the first character, unless they have been cleared. -/
theorem lsr_head {x : Rx} {rest : List Rx} (h : s.rbr = x :: rest) :
    (s.lsr &&& LSRparerr = 0 ↔ (x.parerr && !s.seen) = false) ∧
      (s.lsr &&& LSRframeerr = 0 ↔ (x.frameerr && !s.seen) = false) ∧
      (s.lsr &&& (LSRbi ||| LSRframeerr ||| LSRparerr) = 0 ↔
        (x.bad && !s.seen) = false) := by
  have hlsr : s.lsr = bitIf true LSRrx ||| bitIf s.overrun LSRrunerr |||
      bitIf (x.parerr && !s.seen) LSRparerr |||
      bitIf (x.frameerr && !s.seen) LSRframeerr |||
      bitIf (x.bi && !s.seen) LSRbi ||| bitIf (s.thr = []) LSRthre := by
    unfold State.lsr
    rw [h]
    rfl
  obtain ⟨-, -, hpar, hframe, hbad⟩ := bits_and true s.overrun (x.parerr && !s.seen)
    (x.frameerr && !s.seen) (x.bi && !s.seen) (s.thr = [])
  rw [hlsr]
  refine ⟨hpar, hframe, hbad.trans ?_⟩
  unfold Rx.bad
  cases x.bi <;> cases x.frameerr <;> cases x.parerr <;> cases s.seen <;> simp

end

/-! ## Between two steps -/

/-- The kernel is not in `kw_kick`. -/
def Pc.rests : Pc → Bool
  | .kick _ _ => false
  | .stage _ _ => false
  | .put _ _ => false
  | _ => true

/-- The characters taken that have an error `e`. -/
def counted (e : Rx → Bool) (taken : List (Rx × Bool)) : Nat :=
  taken.countP fun t => e t.1

/-- The first character, when `kw_read` has `v` from `LSR`. -/
structure Looked (l : Line) (taken : List (Rx × Bool)) (perr ferr : Nat) (v : Word)
    (x : Rx) : Prop where
  good : x.bad = false → v &&& (LSRbi ||| LSRframeerr ||| LSRparerr) = 0
  bad : l.clears = false → x.bad = true → v &&& (LSRbi ||| LSRframeerr ||| LSRparerr) ≠ 0
  perr : l.clears = false → perr = counted (·.parerr) taken + x.parerr.toNat
  ferr : l.clears = false → ferr = counted (·.frameerr) taken + x.frameerr.toNat

structure Inv (l : Line) (s : State) : Prop where
  sent : s.wire ++ s.thr ++ s.staged ++ s.oq = s.written
  kept : s.dropped = []
  short : s.thr.length ≤ 1
  empty : ∀ i rx, s.pc = .stage i rx ∨ s.pc = .put i rx → s.thr = []
  ready : ∀ i rx, s.pc = .put i rx → s.staged ≠ []
  going : ∀ i rx, s.pc = .kick (i + 1) rx → s.thr ≠ [] ∨ s.thrintr = true
  prompt : s.pc.rests = true → s.staged ≠ [] ∨ s.oq ≠ [] → s.owed = false →
    s.held = false → s.thr ≠ [] ∨ s.thrintr = true
  came : s.taken.map Prod.fst ++ s.rbr = s.arrived
  recvd : s.recvd = (s.taken.filter Prod.snd).map fun t => t.1.c
  good : ∀ t ∈ s.taken, t.1.bad = false → t.2 = true
  bad : l.clears = false → ∀ t ∈ s.taken, t.1.bad = true → t.2 = false
  unseen : l.clears = false → s.seen = false
  got : ∀ v, s.pc = .got v →
    ∃ x rest, s.rbr = x :: rest ∧ Looked l s.taken s.perr s.ferr v x
  counts : l.clears = false → (∀ v, s.pc ≠ .got v) →
    s.perr = counted (·.parerr) s.taken ∧ s.ferr = counted (·.frameerr) s.taken

section
variable {l : Line} {s t : State}

theorem new_inv (l : Line) (cts blocked : Bool) : Inv l (State.new cts blocked) := by
  constructor <;> simp [State.new, counted]

/-! ### The device and the kernel -/

theorem shift_inv {c : UInt8} {rest : List UInt8} (h : Inv l s) (hthr : s.thr = c :: rest) :
    Inv l { s with
      thr := rest, wire := s.wire ++ [c], thrintr := s.thrintr || rest = [] } := by
  have hshort := h.short
  rw [hthr, List.length_cons] at hshort
  obtain rfl : rest = [] := List.length_eq_zero_iff.1 (by omega)
  exact { h with
    sent := by
      have hsent := h.sent
      rw [hthr] at hsent
      rw [List.append_nil]
      exact hsent
    short := Nat.zero_le 1
    empty := fun _ _ _ => rfl
    going := fun _ _ _ => .inr (Bool.or_true _)
    prompt := fun _ _ _ _ => .inr (Bool.or_true _) }

theorem arrive_inv (x : Rx) (h : Inv l s) :
    Inv l { s with rbr := s.rbr ++ [x], arrived := s.arrived ++ [x] } :=
  { h with
    came := by
      rw [← List.append_assoc, h.came]
    got := by
      intro v hv
      obtain ⟨y, rest, hrbr, hlooked⟩ := h.got v hv
      exact ⟨y, rest ++ [x], by rw [hrbr, List.cons_append], hlooked⟩ }

theorem write_inv (cs : List UInt8) (h : Inv l s) :
    Inv l { s with oq := s.oq ++ cs, written := s.written ++ cs, owed := true } :=
  { h with
    sent := by
      rw [← List.append_assoc, h.sent]
    prompt := nofun }

theorem lsrRead_seen (hseen : s.seen = false) (hclears : l.clears = false) :
    (s.lsrRead l).seen = false := by
  unfold State.lsrRead
  rw [hseen, hclears, Bool.false_and, Bool.or_false]

/-! ### `uartkick` -/

/-- Where `uartkick` comes back to. -/
theorem kicked_ne (rx : Bool) :
    (∀ i b, kicked rx ≠ .kick i b) ∧ (∀ i b, kicked rx ≠ .stage i b) ∧
      (∀ i b, kicked rx ≠ .put i b) ∧ ∀ v, kicked rx ≠ .got v := by
  cases rx <;> simp [kicked]

theorem uartkick_inv (h : Inv l s) (hpc : s.pc = .idle) (b rx : Bool) :
    Inv l (uartkick { s with thrintr := b } rx) := by
  have hcounts : l.clears = false → s.perr = counted (·.parerr) s.taken ∧
      s.ferr = counted (·.frameerr) s.taken := fun hclears =>
    h.counts hclears fun v hv => Pc.noConfusion (hpc.symm.trans hv)
  obtain ⟨hkick, hstage, hput, hgot⟩ := kicked_ne rx
  unfold uartkick
  split
  · exact { h with
      empty := fun i b hb => hb.elim (fun hb => absurd hb (hstage i b)) fun hb =>
        absurd hb (hput i b)
      ready := fun i b hb => absurd hb (hput i b)
      going := fun i b hb => absurd hb (hkick (i + 1) b)
      prompt := fun _ _ _ hheld => Bool.noConfusion hheld
      got := fun v hv => absurd hv (hgot v)
      counts := fun hclears _ => hcounts hclears }
  · exact { h with
      empty := fun i b hb => hb.elim nofun nofun
      ready := nofun
      going := nofun
      prompt := nofun
      got := nofun
      counts := fun hclears _ => hcounts hclears }

theorem intr_inv {v : Iir} (h : Inv l s) (hpc : s.pc = .idle) :
    Inv l (kw_intr { s with thrintr := s.thrintr && v ≠ .thrempty } v.code) := by
  have hsame : v ≠ .thrempty → (s.thrintr && decide (v ≠ .thrempty)) = s.thrintr := by
    intro hv
    rw [decide_eq_true hv, Bool.and_true]
  have hread : Inv l { s with pc := .read } :=
    { h with
      empty := fun i b hb => hb.elim nofun nofun
      ready := nofun
      going := nofun
      prompt := fun _ => h.prompt (by rw [hpc]; rfl)
      got := nofun
      counts := fun hclears _ => h.counts hclears (by rw [hpc]; exact nofun) }
  cases v with
  | nointr =>
      rw [hsame nofun]
      exact h
  | thrempty => exact uartkick_inv h hpc _ false
  | rxdata =>
      rw [hsame nofun]
      exact hread
  | timeout =>
      rw [hsame nofun]
      exact hread

/-! ### `kw_kick` -/

variable {i more : Nat} {rx : Bool}

/-- `kw_kick` comes back, with nothing to send or with an interrupt to come. -/
theorem back_inv (h : Inv l s) (hpc : s.pc.rests = false)
    (hsoon : s.staged ≠ [] ∨ s.oq ≠ [] → s.thr ≠ [] ∨ s.thrintr = true) :
    Inv l { s.lsrRead l with pc := kicked rx } ∧ Inv l { s with pc := kicked rx } := by
  obtain ⟨hkick, hstage, hput, hgot⟩ := kicked_ne rx
  have hcounts : l.clears = false → s.perr = counted (·.parerr) s.taken ∧
      s.ferr = counted (·.frameerr) s.taken := by
    refine fun hclears => h.counts hclears fun v hv => ?_
    rw [hv] at hpc
    cases hpc
  have hback : Inv l { s with pc := kicked rx } :=
    { h with
      empty := fun i b hb => hb.elim (fun hb => absurd hb (hstage i b)) fun hb =>
        absurd hb (hput i b)
      ready := fun i b hb => absurd hb (hput i b)
      going := fun i b hb => absurd hb (hkick (i + 1) b)
      prompt := fun _ hwork _ _ => hsoon hwork
      got := fun v hv => absurd hv (hgot v)
      counts := fun hclears _ => hcounts hclears }
  refine ⟨{ hback with unseen := fun hclears => ?_ }, hback⟩
  exact lsrRead_seen (h.unseen hclears) hclears

theorem kick_inv (h : Inv l s) (hpc : s.pc = .kick i rx) (ht : turn l more s = some t) :
    Inv l t := by
  have hrests : s.pc.rests = false := by
    rw [hpc]
    rfl
  unfold turn at ht
  rw [hpc] at ht
  simp only at ht
  split at ht
  · split at ht
    · next hthre =>
        cases ht
        exact (back_inv h hrests fun _ => .inl (lsr_thre.1 hthre)).1
    · next hthre =>
        cases ht
        have hthr : s.thr = [] := by
          by_contra hne
          exact hthre (lsr_thre.2 hne)
        exact { h with
          empty := fun _ _ _ => hthr
          ready := nofun
          going := nofun
          prompt := nofun
          unseen := fun hclears => lsrRead_seen (h.unseen hclears) hclears
          got := nofun
          counts := fun hclears _ => h.counts hclears (by rw [hpc]; exact nofun) }
  · next hlast =>
      cases ht
      refine (back_inv h hrests fun _ => ?_).2
      obtain ⟨j, rfl⟩ : ∃ j, i = j + 1 := ⟨i - 1, by omega⟩
      exact h.going j rx hpc

/-- `uartstageoutput` keeps what is to be sent, and stages some of it. -/
theorem uartstageoutput_some (hstaged : s.staged = []) (ht : uartstageoutput more s = some t) :
    ∃ staged oq, t = { s with staged := staged, oq := oq } ∧ staged ≠ [] ∧
      staged ++ oq = s.staged ++ s.oq := by
  unfold uartstageoutput at ht
  split at ht
  · cases ht
  · next hoq =>
      cases ht
      refine ⟨_, _, rfl, fun htake => ?_, ?_⟩
      · obtain hzero | hnil := List.take_eq_nil_iff.1 htake
        · exact absurd hzero (Nat.succ_ne_zero more)
        · exact hoq hnil
      · rw [List.take_append_drop, hstaged, List.nil_append]

theorem uartstageoutput_none (ht : uartstageoutput more s = none) : s.oq = [] := by
  unfold uartstageoutput at ht
  split at ht
  · next hoq => exact hoq
  · cases ht

theorem stage_inv (h : Inv l s) (hpc : s.pc = .stage i rx) (ht : turn l more s = some t) :
    Inv l t := by
  have hrests : s.pc.rests = false := by
    rw [hpc]
    rfl
  have hthr : s.thr = [] := h.empty i rx (.inl hpc)
  have hput : ∀ staged oq, staged ≠ [] → staged ++ oq = s.staged ++ s.oq →
      Inv l { s with staged := staged, oq := oq, pc := .put i rx } := by
    intro staged oq hne hsame
    exact { h with
      sent := by
        have hsent := h.sent
        rw [List.append_assoc _ s.staged] at hsent
        rw [List.append_assoc _ staged, hsame]
        exact hsent
      empty := fun _ _ _ => hthr
      ready := fun _ _ _ => hne
      going := nofun
      prompt := nofun
      got := nofun
      counts := fun hclears _ => h.counts hclears (by rw [hpc]; exact nofun) }
  unfold turn at ht
  rw [hpc] at ht
  simp only at ht
  split at ht
  · next hstaged =>
      split at ht
      · next hnone =>
          cases ht
          refine (back_inv h hrests fun hwork => ?_).2
          exact (hwork.elim (absurd hstaged) (absurd (uartstageoutput_none hnone)))
      · next hsome =>
          cases ht
          obtain ⟨staged, oq, rfl, hne, hsame⟩ := uartstageoutput_some hstaged hsome
          exact hput staged oq hne hsame
  · next hstaged =>
      cases ht
      exact hput s.staged s.oq hstaged rfl

theorem put_inv (h : Inv l s) (hpc : s.pc = .put i rx) (ht : turn l more s = some t) :
    Inv l t := by
  have hthr : s.thr = [] := h.empty i rx (.inr hpc)
  have hfits : s.thr.length < l.depth := by
    rw [hthr]
    exact l.depth_pos
  unfold turn at ht
  rw [hpc] at ht
  simp only at ht
  split at ht
  · cases ht
  · next c rest hstaged =>
      cases ht
      have hsent : s.wire ++ s.staged ++ s.oq = s.written := by
        have hsent := h.sent
        rw [hthr, List.append_nil] at hsent
        exact hsent
      unfold State.put
      rw [if_pos hfits, hthr]
      exact { h with
        sent := by
          show s.wire ++ [c] ++ rest ++ s.oq = s.written
          rw [← hsent, hstaged, List.append_assoc s.wire [c] rest]
          rfl
        short := Nat.le_refl 1
        empty := fun i b hb => hb.elim nofun nofun
        ready := nofun
        going := fun _ _ _ => .inl (List.cons_ne_nil c [])
        prompt := nofun
        got := nofun
        counts := fun hclears _ => h.counts hclears (by rw [hpc]; exact nofun) }

/-! ### `kw_read` -/

theorem read_inv (h : Inv l s) (hpc : s.pc = .read) (ht : turn l more s = some t) : Inv l t := by
  have hprompt := h.prompt (by rw [hpc]; rfl)
  have hcounts := fun hclears => h.counts hclears (by rw [hpc]; exact nofun)
  unfold turn at ht
  rw [hpc] at ht
  simp only at ht
  split at ht
  · cases ht
    exact { h with
      empty := fun i b hb => hb.elim nofun nofun
      ready := nofun
      going := nofun
      prompt := fun _ => hprompt
      unseen := fun hclears => lsrRead_seen (h.unseen hclears) hclears
      got := nofun
      counts := fun hclears _ => hcounts hclears }
  · next hrx =>
      cases ht
      obtain ⟨x, rest, hrbr⟩ := List.exists_cons_of_ne_nil (mt lsr_rx.2 hrx)
      obtain ⟨hpar, hframe, hbad⟩ := lsr_head hrbr
      have hlooked : Looked l s.taken
          (if s.lsr &&& LSRparerr ≠ 0 then s.perr + 1 else s.perr)
          (if s.lsr &&& LSRframeerr ≠ 0 then s.ferr + 1 else s.ferr) s.lsr x := by
        refine ⟨fun hx => hbad.2 ?_, fun hclears hx hv => ?_, fun hclears => ?_,
          fun hclears => ?_⟩
        · rw [hx, Bool.false_and]
        · have hno := hbad.1 hv
          rw [hx, h.unseen hclears] at hno
          cases hno
        · simp only [ne_eq, hpar, h.unseen hclears, (hcounts hclears).1]
          cases x.parerr <;> rfl
        · simp only [ne_eq, hframe, h.unseen hclears, (hcounts hclears).2]
          cases x.frameerr <;> rfl
      exact { h with
        empty := fun i b hb => hb.elim nofun nofun
        ready := nofun
        going := nofun
        prompt := fun _ => hprompt
        unseen := fun hclears => lsrRead_seen (h.unseen hclears) hclears
        got := by
          intro v hv
          obtain rfl := Pc.got.inj hv
          exact ⟨x, rest, hrbr, hlooked⟩
        counts := fun _ hv => absurd rfl (hv s.lsr) }

theorem counted_snoc (e : Rx → Bool) (taken : List (Rx × Bool)) (x : Rx) (good : Bool) :
    counted e (taken ++ [(x, good)]) = counted e taken + (e x).toNat := by
  unfold counted
  rw [List.countP_append, List.countP_singleton]
  cases e x <;> rfl

theorem got_inv {v : Word} (h : Inv l s) (hpc : s.pc = .got v) (ht : turn l more s = some t) :
    Inv l t := by
  obtain ⟨x, rest, hrbr, hlooked⟩ := h.got v hpc
  unfold turn at ht
  rw [hpc, hrbr] at ht
  cases ht
  exact { h with
    empty := fun i b hb => hb.elim nofun nofun
    ready := nofun
    going := nofun
    prompt := fun _ => h.prompt (by rw [hpc]; rfl)
    came := by
      have hcame := h.came
      rw [hrbr] at hcame
      rw [List.map_append, List.append_assoc]
      exact hcame
    recvd := by
      rw [List.filter_append, List.map_append, ← h.recvd]
      generalize decide (v &&& (LSRbi ||| LSRframeerr ||| LSRparerr) = 0) = good
      cases good
      · exact (List.append_nil _).symm
      · rfl
    good := by
      intro u hu hok
      obtain hu | hu := List.mem_append.1 hu
      · exact h.good u hu hok
      · obtain rfl := List.mem_singleton.1 hu
        exact decide_eq_true (hlooked.good hok)
    bad := by
      intro hclears u hu hbad
      obtain hu | hu := List.mem_append.1 hu
      · exact h.bad hclears u hu hbad
      · obtain rfl := List.mem_singleton.1 hu
        exact decide_eq_false (hlooked.bad hclears hbad)
    unseen := fun _ => rfl
    got := nofun
    counts := by
      intro hclears _
      exact ⟨(hlooked.perr hclears).trans (counted_snoc ..).symm,
        (hlooked.ferr hclears).trans (counted_snoc ..).symm⟩ }

/-! ### A step -/

theorem turn_inv (h : Inv l s) (ht : turn l more s = some t) : Inv l t := by
  cases hpc : s.pc with
  | idle =>
      unfold turn at ht
      rw [hpc] at ht
      cases ht
  | kick i rx => exact kick_inv h hpc ht
  | stage i rx => exact stage_inv h hpc ht
  | put i rx => exact put_inv h hpc ht
  | read => exact read_inv h hpc ht
  | got v => exact got_inv h hpc ht

theorem step_inv {a : Action} (h : Inv l s) (ht : step l s a = some t) : Inv l t := by
  cases a with
  | shift =>
      simp only [step] at ht
      split at ht
      · cases ht
      · next c rest hthr =>
          cases ht
          exact shift_inv h hthr
  | arrive x =>
      simp only [step] at ht
      split at ht
      · cases ht
        exact arrive_inv x h
      · cases ht
        exact { h with }
  | flow cts blocked =>
      cases ht
      exact { h with }
  | write cs =>
      cases ht
      exact write_inv cs h
  | kick =>
      simp only [step] at ht
      split at ht
      · next hpc =>
          cases ht
          exact uartkick_inv h hpc s.thrintr false
      · cases ht
  | intr v =>
      simp only [step] at ht
      split at ht
      · next hpc =>
          cases ht
          exact intr_inv h hpc.1
      · cases ht
  | turn more => exact turn_inv h ht

/-! ## A run -/

def Fresh (s : State) : Prop := ∃ cts blocked, s = State.new cts blocked

theorem reach_inv (h : Reach (step l) Free Fresh s) : Inv l s := by
  refine h.invariant ?_ fun _ _ _ hinv _ hs => step_inv hinv hs
  rintro _ ⟨cts, blocked, rfl⟩
  exact new_inv l cts blocked

/-- What was written goes out in its order: at any moment it is what went out, what the
transmitter has, what is staged and what is still in the queue, and the transmitter never
had to drop a character.  Once it is empty and has no interrupt to give, with no call of
`uartkick` to come and none that found output stopped, all of it has gone out. -/
theorem sends (h : Reach (step l) Free Fresh s) :
    s.wire ++ s.thr ++ s.staged ++ s.oq = s.written ∧ s.dropped = [] ∧
      (s.pc = .idle → s.owed = false → s.held = false → s.thr = [] → s.thrintr = false →
        s.wire = s.written) := by
  have hinv := reach_inv h
  refine ⟨hinv.sent, hinv.kept, fun hpc howed hheld hthr hintr => ?_⟩
  have hnone : ¬ (s.staged ≠ [] ∨ s.oq ≠ []) := by
    intro hwork
    obtain hthr' | hintr' := hinv.prompt (by rw [hpc]; rfl) hwork howed hheld
    · exact hthr' hthr
    · rw [hintr] at hintr'
      cases hintr'
  obtain ⟨hstaged, hoq⟩ := not_or.1 hnone
  have hsent := hinv.sent
  rw [hthr, not_not.1 hstaged, not_not.1 hoq] at hsent
  simpa using hsent

/-- Characters come in as they arrived, in their order.  None without an error is lost after
it is in the receiver, and what else `uartrecv` is given came too.  Where reading `LSR` does
not clear the errors of a character, `uartrecv` is given just those without an error, and
the errors are all counted. -/
theorem receives (h : Reach (step l) Free Fresh s) :
    ∃ took, took ++ s.rbr = s.arrived ∧
      ((took.filter (!·.bad)).map (·.c)).Sublist s.recvd ∧
      s.recvd.Sublist (took.map (·.c)) ∧
      (l.clears = false → s.recvd = (took.filter (!·.bad)).map (·.c)) ∧
      (l.clears = false → s.pc = .idle →
        s.perr = took.countP (·.parerr) ∧ s.ferr = took.countP (·.frameerr)) := by
  have hinv := reach_inv h
  have hgood : ((s.taken.map Prod.fst).filter (!·.bad)).map (·.c) =
      (s.taken.filter fun t => !t.1.bad).map fun t => t.1.c := by
    rw [List.filter_map, List.map_map]
    rfl
  have hmore : s.taken.filter (fun t => !t.1.bad) =
      (s.taken.filter Prod.snd).filter fun t => !t.1.bad := by
    rw [List.filter_filter]
    refine List.filter_congr fun t ht => ?_
    cases hbad : t.1.bad with
    | true => rfl
    | false => rw [hinv.good t ht hbad]; rfl
  refine ⟨s.taken.map Prod.fst, hinv.came, ?_, ?_, fun hclears => ?_, fun hclears hpc => ?_⟩
  · rw [hgood, hinv.recvd, hmore]
    exact List.filter_sublist.map _
  · rw [hinv.recvd, List.map_map]
    exact List.filter_sublist.map _
  · rw [hgood, hinv.recvd]
    congr 1
    refine List.filter_congr fun t ht => ?_
    cases hbad : t.1.bad with
    | true => exact hinv.bad hclears t ht hbad
    | false => exact hinv.good t ht hbad
  · rw [List.countP_map, List.countP_map]
    exact hinv.counts hclears (by rw [hpc]; exact nofun)

end

/-! ### A line with one place in its buffers -/

def sampleLine : Line := ⟨1, false, Nat.one_pos⟩

def turns (n : Nat) : List Action := List.replicate n (.turn 1)

/-- The first character is gone before `kw_kick` looks again, the second is not. -/
def sendRun : List Action :=
  [.write [7, 8, 9], .kick] ++ turns 3 ++ [.shift] ++ turns 4 ++
    [.shift, .intr .thrempty] ++ turns 4 ++ [.shift, .intr .thrempty] ++ turns 2

theorem sends_sample : ∃ s, run (step sampleLine) (State.new true false) sendRun = some s ∧
    s.wire = [7, 8, 9] ∧ s.wire = s.written := by
  have hrun : ∃ s, run (step sampleLine) (State.new true false) sendRun = some s ∧
      s.pc = .idle ∧ s.owed = false ∧ s.held = false ∧ s.thr = [] ∧ s.thrintr = false ∧
      s.wire = [7, 8, 9] := ⟨_, rfl, rfl, rfl, rfl, rfl, rfl, rfl⟩
  obtain ⟨s, hs, hpc, howed, hheld, hthr, hintr, hwire⟩ := hrun
  obtain ⟨-, -, hall⟩ := sends (Reach.of_run_free sendRun (.start ⟨true, false, rfl⟩) hs)
  exact ⟨s, hs, hwire, hall hpc howed hheld hthr hintr⟩

/-- A character, one with a parity error, one that does not fit. -/
def receiveRun : List Action :=
  [.arrive ⟨7, false, false, false⟩, .intr .rxdata] ++ turns 2 ++
    [.arrive ⟨8, true, false, false⟩, .arrive ⟨9, false, false, false⟩] ++ turns 3

theorem receives_sample : ∃ s,
    run (step sampleLine) (State.new true false) receiveRun = some s ∧ s.recvd = [7] ∧
      ∃ took, took ++ s.rbr = s.arrived ∧ s.recvd = (took.filter (!·.bad)).map (·.c) ∧
        s.perr = took.countP (·.parerr) := by
  have hrun : ∃ s, run (step sampleLine) (State.new true false) receiveRun = some s ∧
      s.pc = .idle ∧ s.recvd = [7] := ⟨_, rfl, rfl, rfl⟩
  obtain ⟨s, hs, hpc, hrecvd⟩ := hrun
  obtain ⟨took, hcame, -, -, hgood, hcounts⟩ :=
    receives (Reach.of_run_free receiveRun (.start ⟨true, false, rfl⟩) hs)
  exact ⟨s, hs, hrecvd, took, hcame, hgood rfl, (hcounts rfl hpc).1⟩

end Kirkwood.Ports.UartStream

