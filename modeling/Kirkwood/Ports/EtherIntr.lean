import Kirkwood.Verified.Trans

/-!
# Interrupts of the ethernet driver

`interrupt` of `etherkirkwood.c` reads two cause registers, clears both, and then receives
frames and sends packets for the causes that it has read.  The device raises causes at any
moment, also between a read and a clear.  Processes queue packets and call `transmit` while
interrupts are off; a process may be preempted between the two.

What `receive` and `transmit` do to a ring is in `EtherReceive` and `EtherTransmit`; here a
frame is taken or a packet given to the device at each turn of their loops, and a ring has
room as long as the device does not own all of it.

## Main results

* `step_kept`: a step keeps every frame and packet from being forgotten exactly when it is
  `Timely`;
* `unforgotten_iff`: the runs in which nothing is forgotten are those that clear no cause of
  something to do that was raised behind the read.
-/

namespace Kirkwood.Ports.EtherIntr

open Kirkwood.Verified.Trans

abbrev Word := BitVec 32

/-! ## The code -/

/-- `Irxbufferq(0)` -/
def Irxbufferq : Word := 1 <<< 2

/-- `IEtxbufferq(0)` -/
def IEtxbufferq : Word := 1 <<< 0

def Ntx : Nat := 512

/-- Where the code is: before a statement of `interrupt`, with what has been read; in the
loop of `receive`; in the loop of `transmit`. -/
inductive Pc where
  | idle
  | readirq
  | readirqe (irq : Word)
  | clearirq (irq irqe : Word)
  | clearirqe (irq irqe : Word)
  | rx (irq irqe : Word)
  | receive (irqe : Word)
  | tx (irqe : Word)
  | transmit
  deriving DecidableEq, Repr

/-- The registers `irq` and `irqe`; the frames that the device has put in the ring and
`receive` has not taken; the packets in `oq`, those that the device owns, and the processes
that have queued a packet and not called `transmit` yet. -/
structure State where
  irq : Word
  irqe : Word
  frames : Nat
  oq : Nat
  owned : Nat
  calls : Nat
  pc : Pc
  deriving DecidableEq, Repr

/-- The next statement, or turn of a loop.  In `transmit` the packet has a length that is
sent. -/
def next (s : State) : Option State :=
  match s.pc with
  | .idle => none
  | .readirq => some { s with pc := .readirqe s.irq }
  | .readirqe irq => some { s with pc := .clearirq irq s.irqe }
  | .clearirq irq irqe => some { s with irq := 0, pc := .clearirqe irq irqe }
  | .clearirqe irq irqe => some { s with irqe := 0, pc := .rx irq irqe }
  | .rx irq irqe =>
      some { s with pc := if irq &&& Irxbufferq ≠ 0 then .receive irqe else .tx irqe }
  | .receive irqe =>
      if s.frames = 0 then some { s with pc := .tx irqe }
      else some { s with frames := s.frames - 1 }
  | .tx irqe =>
      some { s with
        pc := if s.oq ≠ 0 ∧ irqe &&& IEtxbufferq ≠ 0 then .transmit else .idle }
  | .transmit =>
      if s.oq = 0 ∨ s.owned = Ntx then some { s with pc := .idle }
      else some { s with oq := s.oq - 1, owned := s.owned + 1 }

/-- The device raises causes; it completes a frame; it has sent a packet; the processor
takes the interrupt; a process queues a packet; it calls `transmit`; the next statement, in
`transmit` for a packet to be sent or for one to be freed. -/
inductive Action where
  | raise (irq irqe : Word)
  | frame
  | sent
  | interrupt
  | qbwrite
  | transmit
  | next
  | drop
  deriving DecidableEq, Repr

def step (s : State) : Action → Option State
  | .raise irq irqe => some { s with irq := s.irq ||| irq, irqe := s.irqe ||| irqe }
  | .frame => some { s with irq := s.irq ||| Irxbufferq, frames := s.frames + 1 }
  | .sent =>
      if s.owned = 0 then none
      else some { s with irqe := s.irqe ||| IEtxbufferq, owned := s.owned - 1 }
  | .interrupt =>
      if s.pc = .idle ∧ (s.irq ≠ 0 ∨ s.irqe ≠ 0) then some { s with pc := .readirq }
      else none
  | .qbwrite =>
      if s.pc = .idle then some { s with oq := s.oq + 1, calls := s.calls + 1 } else none
  | .transmit =>
      if s.pc = .idle ∧ s.calls ≠ 0 then
        some { s with calls := s.calls - 1, pc := .transmit }
      else none
  | .next => next s
  | .drop =>
      if s.pc = .transmit ∧ s.oq ≠ 0 ∧ s.owned ≠ Ntx then some { s with oq := s.oq - 1 }
      else none

/-- After `ctlrinit`. -/
def init : State where
  irq := 0
  irqe := 0
  frames := 0
  oq := 0
  owned := 0
  calls := 0
  pc := .idle

/-! ## What is not forgotten -/

/-- The handler is going to receive. -/
def Pc.receives : Pc → Bool
  | .readirqe irq | .clearirq irq _ | .clearirqe irq _ | .rx irq _ => irq &&& Irxbufferq ≠ 0
  | .receive _ => true
  | _ => false

/-- The handler is going to send, if there is anything. -/
def Pc.sends : Pc → Bool
  | .clearirq _ irqe | .clearirqe _ irqe | .rx _ irqe | .receive irqe | .tx irqe =>
      irqe &&& IEtxbufferq ≠ 0
  | .transmit => true
  | _ => false

/-- Frames have an interrupt to come, or are received; packets that are queued have an
interrupt to come, one after a packet that the device has, or are sent by the handler or a
process. -/
structure Kept (s : State) : Prop where
  frames : s.frames ≠ 0 → s.irq &&& Irxbufferq ≠ 0 ∨ s.pc.receives = true
  packets : s.oq ≠ 0 →
    s.calls ≠ 0 ∨ s.owned ≠ 0 ∨ s.irqe &&& IEtxbufferq ≠ 0 ∨ s.pc.sends = true

/-- Where a register is cleared, there is something to do only for causes that were read. -/
def Cleared (s : State) : Pc → Prop
  | .clearirq irq _ => s.frames ≠ 0 → irq &&& Irxbufferq ≠ 0
  | .clearirqe _ irqe =>
      s.oq ≠ 0 → s.calls ≠ 0 ∨ s.owned ≠ 0 ∨ irqe &&& IEtxbufferq ≠ 0
  | _ => True

instance (s : State) : (pc : Pc) → Decidable (Cleared s pc)
  | .clearirq irq _ =>
      inferInstanceAs (Decidable (s.frames ≠ 0 → irq &&& Irxbufferq ≠ 0))
  | .clearirqe _ irqe => inferInstanceAs (Decidable
      (s.oq ≠ 0 → s.calls ≠ 0 ∨ s.owned ≠ 0 ∨ irqe &&& IEtxbufferq ≠ 0))
  | .idle | .readirq | .readirqe _ | .rx _ _ | .receive _ | .tx _ | .transmit =>
      isTrue trivial

def Timely (s : State) (a : Action) : Prop := a = .next → Cleared s s.pc

instance (s : State) (a : Action) : Decidable (Timely s a) :=
  inferInstanceAs (Decidable (a = .next → Cleared s s.pc))

/-! ## A step -/

section
variable {s s' : State}

theorem or_bit {x y b : Word} (h : x &&& b ≠ 0) : (x ||| y) &&& b ≠ 0 := by
  intro hz
  rw [BitVec.and_or_distrib_right] at hz
  exact h (BitVec.or_eq_zero_iff.1 hz).1

theorem raised_bit {x b : Word} (h : b ≠ 0) : (x ||| b) &&& b ≠ 0 := by
  intro hz
  rw [BitVec.and_or_distrib_right, BitVec.and_self] at hz
  exact h (BitVec.or_eq_zero_iff.1 hz).2

/-- Where nothing is cleared. -/
theorem next_kept (h : Kept s) (hs : next s = some s')
    (hclear : ∀ irq irqe, s.pc ≠ .clearirq irq irqe ∧ s.pc ≠ .clearirqe irq irqe) :
    Kept s' := by
  obtain ⟨irq, irqe, frames, oq, owned, calls, pc⟩ := s
  obtain ⟨hframes, hpackets⟩ := h
  cases pc with
  | idle => cases hs
  | readirq =>
      cases hs
      refine ⟨fun hf => .inl ?_, hpackets⟩
      simpa [Pc.receives] using hframes hf
  | readirqe i =>
      cases hs
      refine ⟨hframes, fun ho => ?_⟩
      rcases hpackets ho with hcalls | howned | hpend | hsends
      · exact .inl hcalls
      · exact .inr (.inl howned)
      · exact .inr (.inr (.inl hpend))
      · cases hsends
  | clearirq i e => exact absurd rfl (hclear i e).1
  | clearirqe i e => exact absurd rfl (hclear i e).2
  | rx i e =>
      by_cases hbit : i &&& Irxbufferq ≠ 0
      · simp only [next, if_pos hbit] at hs
        cases hs
        exact ⟨fun _ => .inr rfl, hpackets⟩
      · simp only [next, if_neg hbit] at hs
        cases hs
        refine ⟨fun hf => ?_, hpackets⟩
        refine (hframes hf).imp_right fun hreceives => ?_
        exact absurd (of_decide_eq_true hreceives) hbit
  | receive e =>
      by_cases hnone : frames = 0
      · simp only [next, if_pos hnone] at hs
        cases hs
        exact ⟨fun hf => absurd hnone hf, hpackets⟩
      · simp only [next, if_neg hnone] at hs
        cases hs
        exact ⟨fun _ => .inr rfl, hpackets⟩
  | tx e =>
      by_cases hsend : oq ≠ 0 ∧ e &&& IEtxbufferq ≠ 0
      · simp only [next, if_pos hsend] at hs
        cases hs
        exact ⟨hframes, fun _ => .inr (.inr (.inr rfl))⟩
      · simp only [next, if_neg hsend] at hs
        cases hs
        refine ⟨hframes, fun ho => ?_⟩
        rcases hpackets ho with hcalls | howned | hpend | hsends
        · exact .inl hcalls
        · exact .inr (.inl howned)
        · exact .inr (.inr (.inl hpend))
        · exact absurd ⟨ho, of_decide_eq_true hsends⟩ hsend
  | transmit =>
      by_cases hend : oq = 0 ∨ owned = Ntx
      · simp only [next, if_pos hend] at hs
        cases hs
        refine ⟨hframes, fun ho => .inr (.inl fun hzero => ?_)⟩
        rcases hend with hnone | hfull
        · exact ho hnone
        · exact absurd (hfull.symm.trans hzero) (by decide)
      · simp only [next, if_neg hend] at hs
        cases hs
        exact ⟨hframes, fun _ => .inr (.inl (Nat.succ_ne_zero owned))⟩

theorem clearirq_kept {irq irqe : Word} (h : Kept s) (hpc : s.pc = .clearirq irq irqe)
    (hs : next s = some s') : Kept s' ↔ Timely s .next := by
  have hs' : s' = { s with irq := 0, pc := .clearirqe irq irqe } := by
    unfold next at hs
    rw [hpc] at hs
    exact (Option.some.inj hs).symm
  have hpackets := h.packets
  rw [hpc] at hpackets
  have htimely : Timely s .next ↔ (s.frames ≠ 0 → irq &&& Irxbufferq ≠ 0) := by
    unfold Timely
    rw [hpc]
    exact ⟨fun h => h rfl, fun h _ => h⟩
  subst hs'
  rw [htimely]
  constructor
  · intro hkept hf
    rcases hkept.frames hf with hpend | hreceives
    · exact absurd (BitVec.zero_and ..) hpend
    · exact of_decide_eq_true hreceives
  · exact fun htimely => ⟨fun hf => .inr (decide_eq_true (htimely hf)), hpackets⟩

theorem clearirqe_kept {irq irqe : Word} (h : Kept s) (hpc : s.pc = .clearirqe irq irqe)
    (hs : next s = some s') : Kept s' ↔ Timely s .next := by
  have hs' : s' = { s with irqe := 0, pc := .rx irq irqe } := by
    unfold next at hs
    rw [hpc] at hs
    exact (Option.some.inj hs).symm
  have hframes := h.frames
  rw [hpc] at hframes
  have htimely : Timely s .next ↔
      (s.oq ≠ 0 → s.calls ≠ 0 ∨ s.owned ≠ 0 ∨ irqe &&& IEtxbufferq ≠ 0) := by
    unfold Timely
    rw [hpc]
    exact ⟨fun h => h rfl, fun h _ => h⟩
  subst hs'
  rw [htimely]
  constructor
  · intro hkept ho
    rcases hkept.packets ho with hcalls | howned | hpend | hsends
    · exact .inl hcalls
    · exact .inr (.inl howned)
    · exact absurd (BitVec.zero_and ..) hpend
    · exact .inr (.inr (of_decide_eq_true hsends))
  · refine fun htimely => ⟨hframes, fun ho => ?_⟩
    rcases htimely ho with hcalls | howned | hbit
    · exact .inl hcalls
    · exact .inr (.inl howned)
    · exact .inr (.inr (.inr (decide_eq_true hbit)))

/-- What the device and the processes do. -/
theorem other_kept {a : Action} (h : Kept s) (hnext : a ≠ .next)
    (hs : step s a = some s') : Kept s' := by
  cases a with
  | raise x y =>
      cases hs
      refine ⟨fun hf => (h.frames hf).imp_left or_bit, fun ho => ?_⟩
      exact (h.packets ho).imp_right (Or.imp_right (Or.imp_left or_bit))
  | frame =>
      cases hs
      have hne : Irxbufferq ≠ 0 := by decide
      exact ⟨fun _ => .inl (raised_bit hne), h.packets⟩
  | sent =>
      simp only [step] at hs
      split at hs
      · cases hs
      · cases hs
        have hne : IEtxbufferq ≠ 0 := by decide
        exact ⟨h.frames, fun _ => .inr (.inr (.inl (raised_bit hne)))⟩
  | interrupt =>
      simp only [step] at hs
      split at hs
      · next hidle =>
          cases hs
          have hf := h.frames
          have hp := h.packets
          rw [hidle.1] at hf hp
          exact ⟨hf, hp⟩
      · cases hs
  | qbwrite =>
      simp only [step] at hs
      split at hs
      · cases hs
        exact ⟨h.frames, fun _ => .inl (Nat.succ_ne_zero s.calls)⟩
      · cases hs
  | transmit =>
      simp only [step] at hs
      split at hs
      · next hidle =>
          cases hs
          have hf := h.frames
          rw [hidle.1] at hf
          exact ⟨hf, fun _ => .inr (.inr (.inr rfl))⟩
      · cases hs
  | drop =>
      simp only [step] at hs
      split at hs
      · next hin =>
          cases hs
          exact ⟨h.frames, fun _ => .inr (.inr (.inr (congrArg Pc.sends hin.1)))⟩
      · cases hs
  | next => exact absurd rfl hnext

/-- **A step** keeps everything from being forgotten exactly when it is timely. -/
theorem step_kept {a : Action} (h : Kept s) (hs : step s a = some s') :
    Kept s' ↔ Timely s a := by
  by_cases hnext : a = .next
  · subst hnext
    cases hpc : s.pc with
    | clearirq irq irqe => exact clearirq_kept h hpc hs
    | clearirqe irq irqe => exact clearirqe_kept h hpc hs
    | _ =>
        refine ⟨fun _ _ => ?_, fun _ => next_kept h hs ?_⟩
        · rw [hpc]
          trivial
        · rw [hpc]
          exact fun _ _ => ⟨Pc.noConfusion, Pc.noConfusion⟩
  · refine ⟨fun _ heq => absurd heq hnext, fun _ => other_kept h hnext hs⟩

end

/-! ## A run -/

theorem init_kept : Kept init :=
  ⟨fun hf => absurd rfl hf, fun ho => absurd rfl ho⟩

/-- When the handler is not running, the processor takes an interrupt that it receives the
frames for; and so for packets, where the device has none and no process is to send them. -/
theorem idle_pending {s : State} (h : Kept s) (hidle : s.pc = .idle) :
    (s.frames ≠ 0 → s.irq &&& Irxbufferq ≠ 0) ∧
      (s.oq ≠ 0 → s.calls = 0 → s.owned = 0 → s.irqe &&& IEtxbufferq ≠ 0) := by
  have hf := h.frames
  have hp := h.packets
  rw [hidle] at hf hp
  refine ⟨fun hframes => ?_, fun ho hcalls howned => ?_⟩
  · rcases hf hframes with hpend | hreceives
    · exact hpend
    · cases hreceives
  · rcases hp ho with hc | hd | hpend | hsends
    · exact absurd hcalls hc
    · exact absurd howned hd
    · exact hpend
    · cases hsends

/-- **No frame and no packet is forgotten** in a run, whatever the device raises between any
two statements, exactly when no register is cleared of the cause of something to do that was
raised after it was read.  Where the handler is not running then, what there is to do has a
cause in a register, but for packets that a process is to send or that wait for others. -/
theorem unforgotten_iff (as : List Action) :
    (AllStates step Kept init as ↔ AllSteps step Timely init as) ∧
      ∀ s, AllSteps step Timely init as → run step init as = some s → s.pc = .idle →
        (s.frames ≠ 0 → s.irq &&& Irxbufferq ≠ 0) ∧
          (s.oq ≠ 0 → s.calls = 0 → s.owned = 0 → s.irqe &&& IEtxbufferq ≠ 0) := by
  have hiff : AllStates step Kept init as ↔ AllSteps step Timely init as :=
    allStates_iff_allSteps_self (fun _ _ _ h hs => step_kept h hs) as init_kept
  exact ⟨hiff, fun s htimely hrun hidle =>
    idle_pending (AllStates.last as (hiff.2 htimely) hrun) hidle⟩

/-- A frame comes when the handler, called for another cause, has cleared the registers. -/
def lateRun : List Action :=
  [.raise 0 (1 <<< 16), .interrupt, .next, .next, .next, .next, .frame, .next, .next]

theorem unforgotten_late : ∃ s, run step init lateRun = some s ∧ s.frames = 1 ∧
    s.irq &&& Irxbufferq ≠ 0 := by
  have hrun : run step init lateRun = some { init with irq := 4, frames := 1 } := by decide
  obtain ⟨-, hidle⟩ := unforgotten_iff lateRun
  exact ⟨_, hrun, rfl, (hidle _ (by decide) hrun rfl).1 Nat.one_ne_zero⟩

/-- A frame that comes after the read and before the clear is forgotten. -/
example : run step init [.raise 0 (1 <<< 16), .interrupt, .next, .frame, .next, .next,
    .next, .next, .next] = some { init with frames := 1 } := by
  decide

end Kirkwood.Ports.EtherIntr
