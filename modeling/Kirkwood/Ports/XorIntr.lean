import Mathlib.Logic.Function.Basic
import Kirkwood.Verified.Trans

/-!
# Completion interrupts of an XOR engine

The two channels of an engine share one cause register, in which each sets its end-of-chain
bit when it is through with its chain.  `xorintr` of `xor.c` reads the register, sets `done`
of the ports whose bits it read, and then clears the whole register.  A channel may finish
at any moment, also in between; callers do not run while the handler does.

## Main results

* `step_inv`: what holds between two steps of channels, handler and callers;
* `run_delivered_iff`: no completion of a run is lost or goes to the other port exactly when
  the register never holds, where it is cleared, a bit that was not read.
-/

namespace Kirkwood.Ports.XorIntr

open Kirkwood.Verified.Trans

/-! ## The code -/

def Iendofchain : BitVec 32 := 1#32 <<< 1

/-- The end-of-chain bit of a channel. -/
def endofchain (c : Fin 2) : BitVec 32 := Iendofchain <<< (16 * c.val)

/-- The port whose address `xorlink` registers for the interrupt of a channel. -/
def xorlink (_ : Fin 2) : Fin 2 := 0

/-- A channel and the caller that uses its port. -/
inductive Chan where
  | free
  /-- `portget` has returned the port -/
  | got
  /-- the descriptor is started; the caller sleeps until `done` -/
  | running
  /-- the chain is through; the caller sleeps until `done` -/
  | finished
deriving DecidableEq, Repr

/-- Where `xorintr` is, with the port that it is called with and what it read. -/
inductive Pc where
  | out
  | read (p : Fin 2)
  | check (p : Fin 2) (irq : BitVec 32)
  | first (p : Fin 2) (irq : BitVec 32)
  | second (p : Fin 2) (irq : BitVec 32)
  | clear (p : Fin 2) (irq : BitVec 32)
  | panic
deriving DecidableEq, Repr

/-- An engine with its two ports.  `pend`, `lost` and `stray` record what becomes of the
completions: those not delivered, those cleared before, and deliveries without one. -/
structure Xore where
  irq : BitVec 32
  done : Fin 2 → Bool
  chan : Fin 2 → Chan
  pc : Pc
  pend : Fin 2 → Bool
  lost : Fin 2 → Bool
  stray : Fin 2 → Bool

/-- `p->done = 1; wakeup(p);` -/
def deliver (s : Xore) (p : Fin 2) : Xore :=
  { s with
    done := Function.update s.done p true
    pend := Function.update s.pend p false
    stray := Function.update s.stray p (s.stray p || !s.pend p) }

/-- The next statement of `xorintr`. -/
def xorintr (s : Xore) : Option Xore :=
  match s.pc with
  | .out => none
  | .read p => some { s with pc := .check p s.irq }
  | .check p irq =>
      if irq &&& ~~~(Iendofchain ||| Iendofchain <<< 16) ≠ 0#32 then
        some { s with pc := .panic }
      else some { s with pc := .first p irq }
  | .first p irq =>
      if irq &&& Iendofchain ≠ 0#32 then some { deliver s p with pc := .second p irq }
      else some { s with pc := .second p irq }
  | .second p irq =>
      if irq &&& Iendofchain <<< 16 ≠ 0#32 then
        some { deliver s (p + 1) with pc := .clear (p + 1) irq }
      else some { s with pc := .clear p irq }
  | .clear _ _ =>
      some { s with
        pc := .out
        irq := s.irq &&& 0#32
        lost := fun c => s.lost c || decide (s.irq &&& endofchain c ≠ 0#32) && s.pend c }
  | .panic => none

inductive Act where
  /-- a channel is through with its chain -/
  | finish (c : Fin 2)
  /-- the interrupt of a channel calls the handler -/
  | intr (c : Fin 2)
  | xorintr
  | portget (c : Fin 2)
  /-- `act = XEstart` -/
  | start (c : Fin 2)
  /-- `sleep` returns, and the caller calls `portput` -/
  | portput (c : Fin 2)
deriving DecidableEq, Repr

def step (s : Xore) : Act → Option Xore
  | .finish c =>
      if s.chan c = .running then
        some { s with
          chan := Function.update s.chan c .finished
          irq := s.irq ||| endofchain c
          pend := Function.update s.pend c true }
      else none
  | .intr c => if s.pc = .out then some { s with pc := .read (xorlink c) } else none
  | .xorintr => xorintr s
  | .portget c =>
      if s.pc = .out ∧ s.chan c = .free then
        some { s with
          chan := Function.update s.chan c .got
          done := Function.update s.done c false }
      else none
  | .start c =>
      if s.pc = .out ∧ s.chan c = .got then
        some { s with chan := Function.update s.chan c .running }
      else none
  | .portput c =>
      if s.pc = .out ∧ (s.chan c = .running ∨ s.chan c = .finished) ∧ s.done c = true then
        some { s with chan := Function.update s.chan c .free }
      else none

/-- After `initengine`. -/
def init : Xore where
  irq := 0#32
  done _ := false
  chan _ := .free
  pc := .out
  pend _ := false
  lost _ := false
  stray _ := false

/-! ## What completions promise -/

/-- Completions reach their waiters. -/
structure Delivered (s : Xore) : Prop where
  reached : s.pc = .out → s.irq = 0#32 → ∀ c, s.chan c = .finished → s.done c = true
  lost : ∀ c, s.lost c = false
  stray : ∀ c, s.stray c = false

/-- Where the handler clears the register, it holds only bits that were read. -/
def OnlyRead (s : Xore) : Act → Prop
  | .xorintr =>
      match s.pc with
      | .clear _ irq => s.irq &&& ~~~irq = 0#32
      | _ => True
  | _ => True

/-! ## Between two steps -/

/-- The register with these two bits. -/
def bits (x y : Bool) : BitVec 32 :=
  (if x then endofchain 0 else 0#32) ||| if y then endofchain 1 else 0#32

/-- The register with the bits of these channels. -/
def cause (b : Fin 2 → Bool) : BitVec 32 := bits (b 0) (b 1)

/-- In the window between read and clear: `x` was read, and the bits in it that the handler
has come to are delivered; the others are not. -/
def Window (x : BitVec 32) (passed b pend : Fin 2 → Bool) : Prop :=
  ∃ r, x = cause r ∧ ∀ c, (r c = true → b c = true ∧ pend c = !passed c) ∧
    (r c = false → b c = true → pend c = true)

/-- What the handler's place says about set bits and completions. -/
def Place : Pc → (b pend : Fin 2 → Bool) → Prop
  | .out, b, pend => ∀ c, b c = true → pend c = true
  | .read p, b, pend => p = 0 ∧ ∀ c, b c = true → pend c = true
  | .check p x, b, pend => p = 0 ∧ Window x (fun _ => false) b pend
  | .first p x, b, pend => p = 0 ∧ Window x (fun _ => false) b pend
  | .second p x, b, pend => p = 0 ∧ Window x (fun c => decide (c = 0)) b pend
  | .clear _ x, b, pend => Window x (fun _ => true) b pend
  | .panic, _, _ => False

structure Inv (b : Fin 2 → Bool) (s : Xore) : Prop where
  irq : s.irq = cause b
  set : ∀ c, b c = true → s.chan c = .finished
  pend : ∀ c, s.pend c = true → b c = true ∧ s.done c = false
  waits : ∀ c, s.chan c = .finished → s.pend c = true ∨ s.done c = true
  fresh : ∀ c, s.chan c = .got ∨ s.chan c = .running → s.done c = false
  lost : ∀ c, s.lost c = false
  stray : ∀ c, s.stray c = false
  place : Place s.pc b s.pend

/-! ## The register -/

theorem cause_bit (b : Fin 2 → Bool) (c : Fin 2) :
    cause b &&& endofchain c ≠ 0#32 ↔ b c = true := by
  have hbits : ∀ x y, (bits x y &&& endofchain 0 ≠ 0#32 ↔ x = true) ∧
      (bits x y &&& endofchain 1 ≠ 0#32 ↔ y = true) := by decide
  match c with
  | 0 => exact (hbits (b 0) (b 1)).1
  | 1 => exact (hbits (b 0) (b 1)).2

theorem cause_set (b : Fin 2 → Bool) (c : Fin 2) :
    cause b ||| endofchain c = cause (Function.update b c true) := by
  have hbits : ∀ x y, bits x y ||| endofchain 0 = bits true y ∧
      bits x y ||| endofchain 1 = bits x true := by decide
  match c with
  | 0 => exact (hbits (b 0) (b 1)).1
  | 1 => exact (hbits (b 0) (b 1)).2

theorem cause_other (b : Fin 2 → Bool) :
    cause b &&& ~~~(Iendofchain ||| Iendofchain <<< 16) = 0#32 := by
  have hbits : ∀ x y, bits x y &&& ~~~(Iendofchain ||| Iendofchain <<< 16) = 0#32 := by
    decide
  exact hbits (b 0) (b 1)

theorem cause_only (b r : Fin 2 → Bool) :
    cause b &&& ~~~cause r = 0#32 ↔ ∀ c, b c = true → r c = true := by
  have hbits : ∀ x y x' y', bits x y &&& ~~~bits x' y' = 0#32 ↔
      (x = true → x' = true) ∧ (y = true → y' = true) := by decide
  rw [Fin.forall_fin_two]
  exact hbits (b 0) (b 1) (r 0) (r 1)

private theorem cause_clear : (0#32 : BitVec 32) = cause fun _ => false := by decide

/-! ## The steps -/

section
variable {b : Fin 2 → Bool} {s : Xore}

private theorem Window.finish {x : BitVec 32} {passed pend : Fin 2 → Bool}
    (h : Window x passed b pend) {c : Fin 2} (hc : b c = false) :
    Window x passed (Function.update b c true) (Function.update pend c true) := by
  obtain ⟨r, hx, hr⟩ := h
  refine ⟨r, hx, fun d => ?_⟩
  by_cases hdc : d = c
  · subst hdc
    have hnot : r d ≠ true := fun hrd => by
      have hset := ((hr d).1 hrd).1
      rw [hc] at hset
      cases hset
    simp [hnot]
  · simpa [hdc] using hr d

/-- A channel that is running has not set its bit. -/
private theorem Inv.unset (h : Inv b s) {c : Fin 2} (hc : s.chan c ≠ .finished) :
    b c = false := by
  cases hb : b c
  · rfl
  · exact absurd (h.set c hb) hc

private theorem Place.finish {pc : Pc} {pend : Fin 2 → Bool} (h : Place pc b pend)
    {c : Fin 2} (hc : b c = false) :
    Place pc (Function.update b c true) (Function.update pend c true) := by
  have hall : (∀ d, b d = true → pend d = true) →
      ∀ d, Function.update b c true d = true → Function.update pend c true d = true := by
    intro h d
    by_cases hdc : d = c
    · simp [hdc]
    · simpa [hdc] using h d
  cases pc with
  | out => exact hall h
  | read p => exact ⟨h.1, hall h.2⟩
  | check p x => exact ⟨h.1, h.2.finish hc⟩
  | first p x => exact ⟨h.1, h.2.finish hc⟩
  | second p x => exact ⟨h.1, h.2.finish hc⟩
  | clear p x => exact Window.finish h hc
  | panic => exact h

private theorem finish_inv (h : Inv b s) {c : Fin 2} (hc : s.chan c = .running) :
    Inv (Function.update b c true) { s with
      chan := Function.update s.chan c .finished
      irq := s.irq ||| endofchain c
      pend := Function.update s.pend c true } := by
  have hunset : b c = false := h.unset (by rw [hc]; decide)
  have hdone : s.done c = false := h.fresh c (.inr hc)
  refine ⟨?_, fun d => ?_, fun d => ?_, fun d => ?_, fun d => ?_, h.lost, h.stray,
    h.place.finish hunset⟩
  · show s.irq ||| endofchain c = _
    rw [h.irq, cause_set]
  · by_cases hdc : d = c
    · simp [hdc]
    · simpa [hdc] using h.set d
  · by_cases hdc : d = c
    · simp [hdc, hdone]
    · simpa [hdc] using h.pend d
  · by_cases hdc : d = c
    · simp [hdc]
    · simpa [hdc] using h.waits d
  · by_cases hdc : d = c
    · simp [hdc]
    · simpa [hdc] using h.fresh d

/-- The caller of a port changes what its channel is, and perhaps `done`. -/
private theorem caller_inv (h : Inv b s) {c : Fin 2} {x : Chan} {v : Bool}
    (hb : b c = false) (hx : x ≠ .finished)
    (hfresh : x = .got ∨ x = .running → v = false) :
    Inv b { s with
      chan := Function.update s.chan c x
      done := Function.update s.done c v } := by
  have hpend : s.pend c = false := by
    cases hp : s.pend c
    · rfl
    · rw [(h.pend c hp).1] at hb
      cases hb
  refine ⟨h.irq, fun d => ?_, fun d => ?_, fun d => ?_, fun d => ?_, h.lost, h.stray,
    h.place⟩
  · by_cases hdc : d = c
    · simp [hdc, hb]
    · simpa [hdc] using h.set d
  · by_cases hdc : d = c
    · simp [hdc, hpend]
    · simpa [hdc] using h.pend d
  · by_cases hdc : d = c
    · simp [hdc, hx]
    · simpa [hdc] using h.waits d
  · by_cases hdc : d = c
    · simpa [hdc] using hfresh
    · simpa [hdc] using h.fresh d

private theorem Inv.move (h : Inv b s) {pc : Pc} (hplace : Place pc b s.pend) :
    Inv b { s with pc := pc } :=
  { h with place := hplace }

private theorem deliver_inv (h : Inv b s) {p : Fin 2} {pc : Pc} (hp : s.pend p = true)
    (hplace : Place pc b (Function.update s.pend p false)) :
    Inv b { deliver s p with pc := pc } := by
  have hchan : s.chan p = .finished := h.set p (h.pend p hp).1
  refine ⟨h.irq, h.set, fun d => ?_, fun d => ?_, fun d => ?_, h.lost, fun d => ?_, hplace⟩
  · by_cases hdp : d = p
    · simp [deliver, hdp]
    · simpa [deliver, hdp] using h.pend d
  · by_cases hdp : d = p
    · simp [deliver, hdp]
    · simpa [deliver, hdp] using h.waits d
  · by_cases hdp : d = p
    · simp [deliver, hdp, hchan]
    · simpa [deliver, hdp] using h.fresh d
  · by_cases hdp : d = p
    · simp [deliver, hdp, hp, h.stray p]
    · simpa [deliver, hdp] using h.stray d

/-- The register is read. -/
private theorem window_read {pend : Fin 2 → Bool} (h : ∀ c, b c = true → pend c = true) :
    Window (cause b) (fun _ => false) b pend :=
  ⟨b, rfl, fun c => ⟨fun hb => ⟨hb, h c hb⟩, fun _ hb => h c hb⟩⟩

/-- The handler comes to a port whose bit it read. -/
private theorem window_deliver {x : BitVec 32} {passed pend : Fin 2 → Bool}
    (h : Window x passed b pend) {c : Fin 2} (hx : x &&& endofchain c ≠ 0#32)
    (hc : passed c = false) :
    pend c = true ∧
      Window x (Function.update passed c true) b (Function.update pend c false) := by
  obtain ⟨r, rfl, hr⟩ := h
  have hrc : r c = true := (cause_bit r c).1 hx
  refine ⟨by rw [((hr c).1 hrc).2, hc]; rfl, r, rfl, fun d => ?_⟩
  by_cases hdc : d = c
  · subst hdc
    simp [hrc, ((hr d).1 hrc).1]
  · simpa [hdc] using hr d

/-- It comes to one whose bit it did not read. -/
private theorem window_skip {x : BitVec 32} {passed pend : Fin 2 → Bool}
    (h : Window x passed b pend) {c : Fin 2} (hx : ¬ x &&& endofchain c ≠ 0#32) :
    Window x (Function.update passed c true) b pend := by
  obtain ⟨r, rfl, hr⟩ := h
  have hrc : r c ≠ true := fun hrc => hx ((cause_bit r c).2 hrc)
  refine ⟨r, rfl, fun d => ?_⟩
  by_cases hdc : d = c
  · subst hdc
    simpa [hrc] using (hr d).2
  · simpa [hdc] using hr d

/-- The handler clears the register. -/
private theorem clear_inv (h : Inv b s) {x : BitVec 32}
    (hwindow : Window x (fun _ => true) b s.pend) (honly : s.irq &&& ~~~x = 0#32) :
    Inv (fun _ => false) { s with
      pc := .out
      irq := s.irq &&& 0#32
      lost := fun c =>
        s.lost c || decide (s.irq &&& endofchain c ≠ 0#32) && s.pend c } := by
  obtain ⟨r, rfl, hr⟩ := hwindow
  rw [h.irq, cause_only] at honly
  have hpend : ∀ c, s.pend c = false := by
    intro c
    cases hp : s.pend c
    · rfl
    · have hb := (h.pend c hp).1
      have hnot := ((hr c).1 (honly c hb)).2
      rw [hp] at hnot
      cases hnot
  refine ⟨?_, fun c hc => (nomatch hc), fun c hc => ?_, h.waits, h.fresh, fun c => ?_,
    h.stray, fun c hc => (nomatch hc)⟩
  · show s.irq &&& 0#32 = _
    rw [BitVec.and_zero, cause_clear]
  · have hp : s.pend c = true := hc
    rw [hpend c] at hp
    cases hp
  · show (s.lost c || decide (s.irq &&& endofchain c ≠ 0#32) && s.pend c) = false
    rw [h.lost c, hpend c, Bool.and_false, Bool.or_false]

private theorem first_eq : endofchain 0 = Iendofchain := by decide

private theorem passed_first :
    Function.update (fun _ : Fin 2 => false) 0 true = fun c => decide (c = 0) :=
  funext (Fin.forall_fin_two.2 ⟨rfl, rfl⟩)

private theorem passed_second :
    Function.update (fun c : Fin 2 => decide (c = 0)) 1 true = fun _ => true :=
  funext (Fin.forall_fin_two.2 ⟨rfl, rfl⟩)

private theorem xorintr_inv (h : Inv b s) {t : Xore} (hs : xorintr s = some t)
    (honly : OnlyRead s .xorintr) : ∃ b', Inv b' t := by
  have hplace := h.place
  unfold xorintr at hs
  cases hpc : s.pc with
  | out =>
      simp only [hpc] at hs
      cases hs
  | read p =>
      simp only [hpc] at hs
      cases hs
      rw [hpc] at hplace
      refine ⟨b, h.move ⟨hplace.1, ?_⟩⟩
      rw [h.irq]
      exact window_read hplace.2
  | check p x =>
      rw [hpc] at hplace
      obtain ⟨hp, hwindow⟩ := hplace
      obtain ⟨r, hx, -⟩ := id hwindow
      have hother : ¬ x &&& ~~~(Iendofchain ||| Iendofchain <<< 16) ≠ 0#32 := by
        rw [hx]
        exact not_not.2 (cause_other r)
      simp only [hpc] at hs
      rw [if_neg hother] at hs
      cases hs
      exact ⟨b, h.move ⟨hp, hwindow⟩⟩
  | first p x =>
      rw [hpc] at hplace
      obtain ⟨rfl, hwindow⟩ := hplace
      simp only [hpc] at hs
      rw [← first_eq] at hs
      by_cases hx : x &&& endofchain 0 ≠ 0#32
      · rw [if_pos hx] at hs
        cases hs
        obtain ⟨hpend, hnext⟩ := window_deliver hwindow hx rfl
        rw [passed_first] at hnext
        exact ⟨b, deliver_inv h hpend ⟨rfl, hnext⟩⟩
      · rw [if_neg hx] at hs
        cases hs
        have hnext := window_skip hwindow hx
        rw [passed_first] at hnext
        exact ⟨b, h.move ⟨rfl, hnext⟩⟩
  | second p x =>
      rw [hpc] at hplace
      obtain ⟨rfl, hwindow⟩ := hplace
      simp only [hpc] at hs
      by_cases hx : x &&& endofchain 1 ≠ 0#32
      · rw [if_pos (show x &&& Iendofchain <<< 16 ≠ 0#32 from hx)] at hs
        cases hs
        obtain ⟨hpend, hnext⟩ := window_deliver hwindow hx rfl
        rw [passed_second] at hnext
        exact ⟨b, deliver_inv h hpend hnext⟩
      · rw [if_neg (show ¬ x &&& Iendofchain <<< 16 ≠ 0#32 from hx)] at hs
        cases hs
        have hnext := window_skip hwindow hx
        rw [passed_second] at hnext
        exact ⟨b, h.move hnext⟩
  | clear p x =>
      rw [hpc] at hplace
      simp only [OnlyRead, hpc] at honly
      simp only [hpc] at hs
      cases hs
      exact ⟨_, clear_inv h hplace honly⟩
  | panic =>
      simp only [hpc] at hs
      cases hs

theorem step_inv (h : Inv b s) {t : Xore} {a : Act} (honly : OnlyRead s a)
    (hs : step s a = some t) : ∃ b', Inv b' t := by
  cases a with
  | finish c =>
      by_cases hc : s.chan c = .running
      · rw [step, if_pos hc] at hs
        cases hs
        exact ⟨_, finish_inv h hc⟩
      · rw [step, if_neg hc] at hs
        cases hs
  | intr c =>
      by_cases hpc : s.pc = .out
      · rw [step, if_pos hpc] at hs
        cases hs
        have hplace := h.place
        rw [hpc] at hplace
        exact ⟨b, h.move ⟨rfl, hplace⟩⟩
      · rw [step, if_neg hpc] at hs
        cases hs
  | xorintr => exact xorintr_inv h hs honly
  | portget c =>
      by_cases hc : s.pc = .out ∧ s.chan c = .free
      · rw [step, if_pos hc] at hs
        cases hs
        have hunset : b c = false := h.unset (by rw [hc.2]; decide)
        exact ⟨b, caller_inv h hunset (by decide) fun _ => rfl⟩
      · rw [step, if_neg hc] at hs
        cases hs
  | start c =>
      by_cases hc : s.pc = .out ∧ s.chan c = .got
      · rw [step, if_pos hc] at hs
        cases hs
        have hunset : b c = false := h.unset (by rw [hc.2]; decide)
        have hinv := caller_inv (x := .running) (v := s.done c) h hunset (by decide)
          fun _ => h.fresh c (.inl hc.2)
        rw [Function.update_eq_self] at hinv
        exact ⟨b, hinv⟩
      · rw [step, if_neg hc] at hs
        cases hs
  | portput c =>
      by_cases hc : s.pc = .out ∧ (s.chan c = .running ∨ s.chan c = .finished) ∧
          s.done c = true
      · rw [step, if_pos hc] at hs
        cases hs
        -- with `done` set the completion is delivered, so its bit is clear
        have hunset : b c = false := by
          cases hb : b c
          · rfl
          · have hplace := h.place
            rw [hc.1] at hplace
            have hdone := (h.pend c (hplace c hb)).2
            rw [hc.2.2] at hdone
            cases hdone
        have hinv := caller_inv (x := .free) (v := s.done c) h hunset (by decide)
          fun hx => (nomatch hx)
        rw [Function.update_eq_self] at hinv
        exact ⟨b, hinv⟩
      · rw [step, if_neg hc] at hs
        cases hs

/-! ## Runs -/

theorem Inv.delivered (h : Inv b s) : Delivered s where
  reached hpc hzero c hc := by
    have hplace := h.place
    rw [hpc] at hplace
    rcases h.waits c hc with hpend | hdone
    · have hbit := (cause_bit b c).2 (h.pend c hpend).1
      rw [← h.irq, hzero, BitVec.zero_and] at hbit
      exact absurd rfl hbit
    · exact hdone
  lost := h.lost
  stray := h.stray

/-- A bit that was not read is lost where the register is cleared. -/
private theorem only_of_delivered (h : Inv b s) {t : Xore} {a : Act}
    (hs : step s a = some t) (ht : Delivered t) : OnlyRead s a := by
  cases a with
  | xorintr =>
      show match s.pc with
        | .clear _ irq => s.irq &&& ~~~irq = 0#32
        | _ => True
      split
      · rename_i p x hpc
        have hplace := h.place
        rw [hpc] at hplace
        obtain ⟨r, rfl, hr⟩ := hplace
        rw [h.irq, cause_only]
        intro c hb
        by_contra hrc
        have hpend := (hr c).2 (Bool.eq_false_iff.2 hrc) hb
        have hset : s.irq &&& endofchain c ≠ 0#32 := by
          rw [h.irq]
          exact (cause_bit b c).2 hb
        have hlost : t.lost c = true := by
          simp only [step, xorintr, hpc] at hs
          cases hs
          simp only [hset, ne_eq, not_false_iff, decide_true, hpend, Bool.and_true,
            Bool.or_true]
        rw [ht.lost c] at hlost
        cases hlost
      · trivial
  | finish c => trivial
  | intr c => trivial
  | portget c => trivial
  | start c => trivial
  | portput c => trivial

private theorem init_inv : Inv (fun _ => false) init where
  irq := cause_clear
  set _ h := nomatch h
  pend _ h := nomatch h
  waits _ h := nomatch h
  fresh _ _ := rfl
  lost _ := rfl
  stray _ := rfl
  place _ h := nomatch h

end

/-- The completions of a run reach their waiters exactly when every clear of the register
finds only bits that were read. -/
theorem run_delivered_iff (as : List Act) :
    AllStates step Delivered init as ↔ AllSteps step OnlyRead init as := by
  refine allStates_iff_allSteps (I := fun s => ∃ b, Inv b s) ?_ ?_ ?_ as ⟨_, init_inv⟩
  · rintro s ⟨b, h⟩
    exact h.delivered
  · rintro s a t ⟨b, h⟩ honly hs
    exact step_inv h honly hs
  · rintro s a t ⟨b, h⟩ hs ht
    exact only_of_delivered h hs ht

/-- Channel 1 finishes between the read of the register and its clear. -/
def windowRun : List Act :=
  [.portget 0, .portget 1, .start 0, .start 1, .finish 0, .intr 0, .xorintr, .finish 1,
    .xorintr, .xorintr, .xorintr, .xorintr]

/-- Its caller waits for ever: the register is clear, and `done` of its port is not set. -/
theorem window_loses :
    (∃ s, run step init windowRun = some s ∧ s.pc = .out ∧ s.irq = 0#32 ∧
      s.chan 1 = .finished ∧ s.done 1 = false) ∧
    ¬ ∀ as, AllStates step Delivered init as := by
  have hrun : ∃ s, run step init windowRun = some s ∧ s.pc = .out ∧ s.irq = 0#32 ∧
      s.chan 1 = .finished ∧ s.done 1 = false :=
    ⟨_, rfl, rfl, by decide, by decide, by decide⟩
  refine ⟨hrun, fun hall => ?_⟩
  obtain ⟨s, hs, hpc, hzero, hchan, hdone⟩ := hrun
  have hreached := ((hall windowRun).last windowRun hs).reached hpc hzero 1 hchan
  rw [hdone] at hreached
  cases hreached

end Kirkwood.Ports.XorIntr
