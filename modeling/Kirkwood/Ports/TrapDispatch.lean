import Mathlib.Data.List.Range
import Kirkwood.Ports.Trap

/-!
# Dispatch of interrupts

`intrs` of `trap.c` reads the cause register of a controller, calls the handlers of the bits
that are pending and not masked, and then acknowledges what is left.  Writing 0 to a bit of
the register clears it.  The devices raise bits at any moment, also between the read and the
write of `*irq.irq &= ibits`; a handler clears bits of vectors that have a handler, with
`intrclear`.

## Main results

* `step_inv`: what holds between two statements of `intrs`;
* `next_togo`, `next_enabled`: a call comes to its end;
* `intrs_right_iff`: a call does what it should exactly when every bit pending and not
  masked at its start has a handler.
-/

namespace Kirkwood.Ports.TrapDispatch

open Kirkwood.Verified
open Kirkwood.Verified.Trans
open Kirkwood.Ports.Trap

variable {F A : Type}

/-! ## The code -/

/-- Where `intrs` is. -/
inductive Pc where
  /-- at the test of the loop -/
  | loop (i : Nat)
  /-- in the handler of vector `i` -/
  | handler (i : Nat)
  /-- at the read of `*irq.irq &= ibits` -/
  | load
  /-- at its write; `x` was read -/
  | store (x : BitVec 32)
  | done
deriving DecidableEq, Repr

/-- A call of `intrs`: the cause register, its variable `ibits`, the vectors whose handlers
it called, and the pending bits that its own write cleared. -/
structure Intrs where
  irq : BitVec 32
  ibits : BitVec 32
  pc : Pc
  called : List Nat
  cleared : BitVec 32
deriving DecidableEq, Repr

/-- A handler is installed for vector `i`. -/
def installed (irqvec : Fin 32 → Handler F A) (i : Nat) : Bool :=
  if h : i < 32 then (irqvec ⟨i, h⟩).r.isSome else false

/-- A write to the cause register. -/
def write (irq x : BitVec 32) : BitVec 32 := irq &&& x

/-- The first two statements. -/
def intrs (irq irqmask : BitVec 32) : Intrs where
  irq := irq
  ibits := irq &&& irqmask
  pc := .loop 0
  called := []
  cleared := 0#32

/-- The next statement of the call. -/
def next (irqvec : Fin 32 → Handler F A) (s : Intrs) : Option Intrs :=
  match s.pc with
  | .loop i =>
      if i < 32 ∧ s.ibits ≠ 0#32 then
        if s.ibits.getLsbD i then
          if installed irqvec i then
            some { s with pc := .handler i, called := s.called ++ [i] }
          else some { s with pc := .loop (i + 1) }
        else some { s with pc := .loop (i + 1) }
      else if s.ibits ≠ 0#32 then some { s with pc := .load }
      else some { s with pc := .done }
  | .handler i => some { s with pc := .loop (i + 1), ibits := s.ibits &&& ~~~(1#32 <<< i) }
  | .load => some { s with pc := .store s.irq }
  | .store x =>
      some { s with
        pc := .done
        irq := write s.irq (x &&& s.ibits)
        cleared := s.irq &&& ~~~(x &&& s.ibits) }
  | .done => none

/-- What may happen. -/
inductive Act where
  /-- a device raises a bit -/
  | raise (v : Fin 32)
  /-- the handler that runs calls `intrclear` -/
  | intrclear (v : Fin 32)
  | next
deriving DecidableEq, Repr

/-- The call is in a handler. -/
def Pc.inHandler : Pc → Bool
  | .handler _ => true
  | _ => false

def step (irqvec : Fin 32 → Handler F A) (s : Intrs) : Act → Option Intrs
  | .raise v => some { s with irq := Mask.set s.irq v }
  | .intrclear v =>
      if s.pc.inHandler ∧ installed irqvec v then
        some { s with irq := write s.irq (~~~Mask.bit v) }
      else none
  | .next => next irqvec s

/-! ## What a call should do -/

/-- The vectors below `n` whose handlers are to be called. -/
def served (irqvec : Fin 32 → Handler F A) (start : BitVec 32) (n : Nat) : List Nat :=
  (List.range n).filter fun i => start.getLsbD i && installed irqvec i

/-- Pending and not masked at the start, without a handler. -/
def Spurious (irqvec : Fin 32 → Handler F A) (start : BitVec 32) (v : Nat) : Prop :=
  start.getLsbD v = true ∧ installed irqvec v = false

/-- Every handler was called that is to be, once and in ascending order, and what the call
cleared itself are the spurious bits. -/
structure Right (irqvec : Fin 32 → Handler F A) (start : BitVec 32) (s : Intrs) : Prop where
  called : s.called = served irqvec start 32
  cleared : ∀ v < 32, s.cleared.getLsbD v = true ↔ Spurious irqvec start v

/-! ## Between two statements -/

/-- The bits that the loop is done with. -/
def Pc.seen : Pc → Nat
  | .loop i => i
  | .handler i => i
  | _ => 32

/-- The bits up to which handlers were called. -/
def Pc.upto : Pc → Nat
  | .handler i => i + 1
  | pc => pc.seen

/-- `intrs` acknowledges what is left. -/
def Pc.acks : Pc → Bool
  | .load => true
  | .store _ => true
  | _ => false

structure Inv (irqvec : Fin 32 → Handler F A) (start : BitVec 32) (s : Intrs) : Prop where
  seen : s.pc.seen ≤ 32
  ibits : ∀ v < 32, s.ibits.getLsbD v =
    (start.getLsbD v && (decide (s.pc.seen ≤ v) || !installed irqvec v))
  called : s.called = served irqvec start s.pc.upto
  calling : ∀ i, s.pc = .handler i → i < 32 ∧ installed irqvec i = true
  waiting : s.pc ≠ .done → ∀ v, Spurious irqvec start v → s.irq.getLsbD v = true
  left : s.pc.acks = true → s.ibits ≠ 0#32
  loaded : ∀ x, s.pc = .store x → ∀ v, Spurious irqvec start v → x.getLsbD v = true
  before : s.pc ≠ .done → s.cleared = 0#32
  after : s.pc = .done → (s.ibits = 0#32 → s.cleared = 0#32) ∧
    ∀ v, Spurious irqvec start v → s.cleared.getLsbD v = false

section
variable {irqvec : Fin 32 → Handler F A} {start : BitVec 32}

theorem Spurious.lt {v : Nat} (h : Spurious irqvec start v) : v < 32 := by
  by_contra hv
  have hbit := h.1
  rw [BitVec.getLsbD_of_ge _ _ (Nat.le_of_not_lt hv)] at hbit
  cases hbit

theorem served_succ (n : Nat) : served irqvec start (n + 1) =
    served irqvec start n ++ if start.getLsbD n && installed irqvec n then [n] else [] := by
  rw [served, served, List.range_succ, List.filter_append]
  by_cases h : start.getLsbD n && installed irqvec n
  · rw [if_pos h, List.filter_cons, if_pos h, List.filter_nil]
  · rw [if_neg h, List.filter_cons, if_neg h, List.filter_nil]

/-- No handler is to be called from `n` on. -/
theorem served_stop {n m : Nat} (hnm : n ≤ m)
    (h : ∀ v, n ≤ v → v < m → (start.getLsbD v && installed irqvec v) = false) :
    served irqvec start m = served irqvec start n := by
  induction m, hnm using Nat.le_induction with
  | base => rfl
  | succ m hnm ih =>
      rw [served_succ, h m hnm (Nat.lt_succ_self m),
        ih fun v hn hm => h v hn (Nat.lt_succ_of_lt hm)]
      exact List.append_nil _

theorem intrs_inv (irq irqmask : BitVec 32) :
    Inv irqvec (irq &&& irqmask) (intrs irq irqmask) where
  seen := Nat.zero_le 32
  ibits v _ := by simp [intrs, Pc.seen]
  called := rfl
  calling i h := nomatch h
  waiting _ v h := by
    have hbit := h.1
    rw [BitVec.getLsbD_and, Bool.and_eq_true] at hbit
    exact hbit.1
  left h := nomatch h
  loaded x h := nomatch h
  before _ := rfl
  after h := nomatch h

/-- A change of the cause register that leaves the spurious bits pending. -/
private theorem Inv.setirq {s : Intrs} (h : Inv irqvec start s) {irq : BitVec 32}
    (hirq : s.pc ≠ .done → ∀ v, Spurious irqvec start v → irq.getLsbD v = true) :
    Inv irqvec start { s with irq := irq } :=
  { h with waiting := hirq }

/-- The loop goes on to the next vector. -/
private theorem Inv.skip {s : Intrs} (h : Inv irqvec start s) {i : Nat}
    (hpc : s.pc = .loop i) (hi : i < 32)
    (hskip : (s.ibits.getLsbD i && installed irqvec i) = false) :
    Inv irqvec start { s with pc := .loop (i + 1) } := by
  have hseen : s.pc.seen = i := by rw [hpc]; rfl
  have hupto : s.pc.upto = i := by rw [hpc]; rfl
  have hibits := h.ibits
  have hcalled := h.called
  rw [hseen] at hibits
  rw [hupto] at hcalled
  have hstart : (start.getLsbD i && installed irqvec i) = false := by
    rw [hibits i hi] at hskip
    simpa using hskip
  refine ⟨hi, fun v hv => ?_, ?_, fun _ h => (nomatch h), ?_, fun h => (nomatch h),
    fun _ h => (nomatch h), ?_, fun h => (nomatch h)⟩
  · show s.ibits.getLsbD v = (start.getLsbD v &&
      (decide (i + 1 ≤ v) || !installed irqvec v))
    rw [hibits v hv]
    by_cases hvi : v = i
    · subst hvi
      cases hst : start.getLsbD v
      · rfl
      · rw [hst, Bool.true_and] at hstart
        simp [hstart]
    · have hle : i ≤ v ↔ i + 1 ≤ v := by omega
      simp only [hle]
  · show s.called = served irqvec start (i + 1)
    rw [served_succ, hstart, hcalled]
    exact (List.append_nil _).symm
  · exact fun _ => h.waiting (by rw [hpc]; exact nofun)
  · exact fun _ => h.before (by rw [hpc]; exact nofun)

/-- The loop calls a handler. -/
private theorem Inv.call {s : Intrs} (h : Inv irqvec start s) {i : Nat}
    (hpc : s.pc = .loop i) (hi : i < 32) (hbit : s.ibits.getLsbD i = true)
    (hinst : installed irqvec i = true) :
    Inv irqvec start { s with pc := .handler i, called := s.called ++ [i] } := by
  have hseen : s.pc.seen = i := by rw [hpc]; rfl
  have hupto : s.pc.upto = i := by rw [hpc]; rfl
  have hne : s.pc ≠ .done := by rw [hpc]; exact nofun
  have hibits := h.ibits
  have hcalled := h.called
  rw [hseen] at hibits
  rw [hupto] at hcalled
  have hstart : start.getLsbD i = true := by
    rw [hibits i hi, Bool.and_eq_true] at hbit
    exact hbit.1
  refine ⟨Nat.le_of_lt hi, hibits, ?_, fun j hj => ?_, fun _ => h.waiting hne,
    fun h => (nomatch h), fun _ h => (nomatch h), fun _ => h.before hne,
    fun h => (nomatch h)⟩
  · show s.called ++ [i] = served irqvec start (i + 1)
    rw [served_succ, hstart, hinst, hcalled]
    rfl
  · cases hj
    exact ⟨hi, hinst⟩

/-- The handler returns. -/
private theorem Inv.return {s : Intrs} (h : Inv irqvec start s) {i : Nat}
    (hpc : s.pc = .handler i) :
    Inv irqvec start
      { s with pc := .loop (i + 1), ibits := s.ibits &&& ~~~(1#32 <<< i) } := by
  have hseen : s.pc.seen = i := by rw [hpc]; rfl
  have hupto : s.pc.upto = i + 1 := by rw [hpc]; rfl
  have hne : s.pc ≠ .done := by rw [hpc]; exact nofun
  obtain ⟨hi, hinst⟩ := h.calling i hpc
  have hibits := h.ibits
  have hcalled := h.called
  rw [hseen] at hibits
  rw [hupto] at hcalled
  refine ⟨hi, fun v hv => ?_, hcalled, fun _ h => (nomatch h), fun _ => h.waiting hne,
    fun h => (nomatch h), fun _ h => (nomatch h), fun _ => h.before hne,
    fun h => (nomatch h)⟩
  show (s.ibits &&& ~~~(1#32 <<< i)).getLsbD v =
    (start.getLsbD v && (decide (i + 1 ≤ v) || !installed irqvec v))
  have hclear := Mask.getLsbD_clear s.ibits ⟨i, hi⟩ ⟨v, hv⟩
  simp only [Mask.clear, Mask.bit, Fin.mk.injEq] at hclear
  rw [hclear, hibits v hv]
  by_cases hvi : v = i
  · subst hvi
    simp [hinst]
  · have hle : i ≤ v ↔ i + 1 ≤ v := by omega
    simp [hvi, hle]

/-- Nothing is left: the call is over. -/
private theorem Inv.finish {s : Intrs} (h : Inv irqvec start s) {i : Nat}
    (hpc : s.pc = .loop i) (hzero : s.ibits = 0#32) :
    Inv irqvec start { s with pc := .done } := by
  have hseen : s.pc.seen = i := by rw [hpc]; rfl
  have hupto : s.pc.upto = i := by rw [hpc]; rfl
  have hbefore := h.before (by rw [hpc]; exact nofun)
  have hi : i ≤ 32 := hseen ▸ h.seen
  have hibits := h.ibits
  have hcalled := h.called
  rw [hseen, hzero] at hibits
  rw [hupto] at hcalled
  refine ⟨Nat.le_refl 32, fun v hv => ?_, ?_, fun _ h => (nomatch h), fun h => absurd rfl h,
    fun h => (nomatch h), fun _ h => (nomatch h), fun h => absurd rfl h,
    fun _ => ⟨fun _ => hbefore, fun v hv => ?_⟩⟩
  · show s.ibits.getLsbD v = (start.getLsbD v && (decide (32 ≤ v) || !installed irqvec v))
    have hv' := hibits v hv
    rw [hzero, BitVec.getLsbD_zero] at *
    cases hst : start.getLsbD v
    · rfl
    · cases hin : installed irqvec v
      · simp [hst, hin] at hv'
      · simp [Nat.not_le.2 hv]
  · show s.called = served irqvec start 32
    rw [hcalled, served_stop hi]
    intro v hiv hv
    have hv' := hibits v hv
    cases hst : start.getLsbD v
    · rfl
    · simp [hst, hiv] at hv'
  · show s.cleared.getLsbD v = false
    rw [hbefore, BitVec.getLsbD_zero]

/-- Bits are left after the last vector. -/
private theorem Inv.load {s : Intrs} (h : Inv irqvec start s) (hpc : s.pc = .loop 32)
    (hleft : s.ibits ≠ 0#32) : Inv irqvec start { s with pc := .load } := by
  have hne : s.pc ≠ .done := by rw [hpc]; exact nofun
  have hibits := h.ibits
  have hcalled := h.called
  rw [hpc] at hibits hcalled
  exact ⟨Nat.le_refl 32, hibits, hcalled, fun _ h => (nomatch h), fun _ => h.waiting hne,
    fun _ => hleft, fun _ h => (nomatch h), fun _ => h.before hne, fun h => (nomatch h)⟩

private theorem Inv.store {s : Intrs} (h : Inv irqvec start s) (hpc : s.pc = .load) :
    Inv irqvec start { s with pc := .store s.irq } := by
  have hne : s.pc ≠ .done := by rw [hpc]; exact nofun
  have hibits := h.ibits
  have hcalled := h.called
  have hleft := h.left
  rw [hpc] at hibits hcalled hleft
  refine ⟨Nat.le_refl 32, hibits, hcalled, fun _ h => (nomatch h), fun _ => h.waiting hne,
    fun _ => hleft rfl, fun x hx => ?_, fun _ => h.before hne, fun h => (nomatch h)⟩
  cases hx
  exact h.waiting hne

/-- The write leaves every spurious bit pending. -/
private theorem Inv.ack {s : Intrs} (h : Inv irqvec start s) {x : BitVec 32}
    (hpc : s.pc = .store x) :
    Inv irqvec start { s with
      pc := .done
      irq := write s.irq (x &&& s.ibits)
      cleared := s.irq &&& ~~~(x &&& s.ibits) } := by
  have hibits := h.ibits
  have hcalled := h.called
  have hleft := h.left
  have hloaded := h.loaded x hpc
  rw [hpc] at hibits hcalled hleft
  refine ⟨Nat.le_refl 32, hibits, hcalled, fun _ h => (nomatch h), fun h => absurd rfl h,
    fun h => (nomatch h), fun _ h => (nomatch h), fun h => absurd rfl h,
    fun _ => ⟨fun hzero => absurd hzero (hleft rfl), fun v hv => ?_⟩⟩
  have hbit : s.ibits.getLsbD v = true := by
    rw [hibits v hv.lt, hv.1, hv.2]
    simp
  show (s.irq &&& ~~~(x &&& s.ibits)).getLsbD v = false
  rw [BitVec.getLsbD_and, BitVec.getLsbD_not, BitVec.getLsbD_and, hloaded v hv, hbit]
  simp

private theorem next_inv {s t : Intrs} (h : Inv irqvec start s)
    (hs : next irqvec s = some t) : Inv irqvec start t := by
  unfold next at hs
  cases hpc : s.pc with
  | loop i =>
      have hi : i ≤ 32 := by
        have hseen := h.seen
        rw [hpc] at hseen
        exact hseen
      simp only [hpc] at hs
      by_cases hmore : i < 32 ∧ s.ibits ≠ 0#32
      · rw [if_pos hmore] at hs
        by_cases hbit : s.ibits.getLsbD i = true
        · by_cases hinst : installed irqvec i = true
          · rw [if_pos hbit, if_pos hinst] at hs
            cases hs
            exact h.call hpc hmore.1 hbit hinst
          · rw [if_pos hbit, if_neg hinst] at hs
            cases hs
            exact h.skip hpc hmore.1 (by simp [hinst])
        · rw [if_neg hbit] at hs
          cases hs
          exact h.skip hpc hmore.1 (by simp [hbit])
      · rw [if_neg hmore] at hs
        by_cases hleft : s.ibits ≠ 0#32
        · rw [if_pos hleft] at hs
          cases hs
          have hlast : i = 32 := by
            by_contra hne
            exact hmore ⟨by omega, hleft⟩
          exact h.load (hlast ▸ hpc) hleft
        · rw [if_neg hleft] at hs
          cases hs
          exact h.finish hpc (not_not.1 hleft)
  | handler i =>
      simp only [hpc] at hs
      cases hs
      exact h.return hpc
  | load =>
      simp only [hpc] at hs
      cases hs
      exact h.store hpc
  | store x =>
      simp only [hpc] at hs
      cases hs
      exact h.ack hpc
  | done =>
      simp only [hpc] at hs
      cases hs

theorem step_inv {s t : Intrs} {a : Act} (h : Inv irqvec start s)
    (hs : step irqvec s a = some t) : Inv irqvec start t := by
  cases a with
  | raise v =>
      cases hs
      refine h.setirq fun hpc u hu => ?_
      have hset := Mask.getLsbD_set s.irq v ⟨u, hu.lt⟩
      simp only at hset
      rw [hset, h.waiting hpc u hu, Bool.or_true]
  | intrclear v =>
      by_cases hcall : s.pc.inHandler ∧ installed irqvec v
      · rw [step, if_pos hcall] at hs
        cases hs
        refine h.setirq fun hpc u hu => ?_
        -- the vector has a handler, so its bit is none of the spurious ones
        have hne : (⟨u, hu.lt⟩ : Fin 32) ≠ v := by
          rintro rfl
          have hinst := hcall.2
          rw [hu.2] at hinst
          cases hinst
        have hclear := Mask.getLsbD_clear s.irq v ⟨u, hu.lt⟩
        simp only [hne, decide_false, Bool.not_false, Bool.true_and,
          h.waiting hpc u hu] at hclear
        exact hclear
      · rw [step, if_neg hcall] at hs
        cases hs
  | next => exact next_inv h hs

/-! ## The call -/

/-- A call that is over did what it should exactly when there was no spurious bit. -/
private theorem Inv.right_iff {s : Intrs} (h : Inv irqvec start s) (hpc : s.pc = .done) :
    Right irqvec start s ↔
      ∀ v < 32, start.getLsbD v = true → installed irqvec v = true := by
  have hibits := h.ibits
  have hcalled := h.called
  rw [hpc] at hibits hcalled
  constructor
  · intro hright v hv hstart
    by_contra hinst
    have hspurious : Spurious irqvec start v := ⟨hstart, Bool.eq_false_iff.2 hinst⟩
    have hcleared := (hright.cleared v hv).2 hspurious
    rw [(h.after hpc).2 v hspurious] at hcleared
    cases hcleared
  · intro hall
    have hzero : s.ibits = 0#32 := by
      apply BitVec.eq_of_getLsbD_eq
      intro v hv
      rw [hibits v hv, BitVec.getLsbD_zero]
      cases hst : start.getLsbD v
      · rfl
      · rw [hall v hv hst]
        simp [Pc.seen, Nat.not_le.2 hv]
    refine ⟨hcalled, fun v hv => ?_⟩
    rw [(h.after hpc).1 hzero, BitVec.getLsbD_zero]
    refine iff_of_false Bool.false_ne_true fun hspurious => ?_
    have hinst := hall v hv hspurious.1
    rw [hspurious.2] at hinst
    cases hinst

/-- A bound on the statements before the call is over. -/
def Pc.togo : Pc → Nat
  | .loop i => 2 * (32 - i) + 3
  | .handler i => 2 * (32 - i) + 2
  | .load => 2
  | .store _ => 1
  | .done => 0

theorem next_togo {s t : Intrs} (h : Inv irqvec start s) (hs : next irqvec s = some t) :
    t.pc.togo < s.pc.togo := by
  unfold next at hs
  cases hpc : s.pc with
  | loop i =>
      simp only [hpc] at hs
      by_cases hmore : i < 32 ∧ s.ibits ≠ 0#32
      · rw [if_pos hmore] at hs
        split at hs
        · split at hs
          · cases hs
            exact Nat.lt_succ_self _
          · cases hs
            simp only [Pc.togo]
            omega
        · cases hs
          simp only [Pc.togo]
          omega
      · rw [if_neg hmore] at hs
        split at hs
        · cases hs
          simp only [Pc.togo]
          omega
        · cases hs
          simp only [Pc.togo]
          omega
  | handler i =>
      obtain ⟨hi, -⟩ := h.calling i hpc
      simp only [hpc] at hs
      cases hs
      simp only [Pc.togo]
      omega
  | load =>
      simp only [hpc] at hs
      cases hs
      exact Nat.lt_succ_self 1
  | store x =>
      simp only [hpc] at hs
      cases hs
      exact Nat.one_pos
  | done =>
      simp only [hpc] at hs
      cases hs

/-- Until it is over, a call can go on. -/
theorem next_enabled {s : Intrs} (hpc : s.pc ≠ .done) : (next irqvec s).isSome := by
  unfold next
  split
  · split
    · split
      · split
        · rfl
        · rfl
      · rfl
    · split
      · rfl
      · rfl
  · rfl
  · rfl
  · rfl
  · rename_i hdone
    exact absurd hdone hpc

end

/-- Whatever is raised and acknowledged in between, a call of `intrs` does what it should
exactly when every bit pending and not masked at its start has a handler. -/
theorem intrs_right_iff (irqvec : Fin 32 → Handler F A) (irq irqmask : BitVec 32)
    (as : List Act) (s : Intrs) (hrun : run (step irqvec) (intrs irq irqmask) as = some s)
    (hdone : s.pc = .done) :
    Right irqvec (irq &&& irqmask) s ↔
      ∀ v < 32, (irq &&& irqmask).getLsbD v = true → installed irqvec v = true := by
  have hreach : Reach (step irqvec) Free (· = intrs irq irqmask) s :=
    Reach.of_run_free as (.start rfl) hrun
  have hinv : Inv irqvec (irq &&& irqmask) s := by
    refine hreach.invariant ?_ ?_
    · rintro s rfl
      exact intrs_inv irq irqmask
    · exact fun s a t h _ hs => step_inv h hs
  exact hinv.right_iff hdone

/-- A table with handlers for vectors 0 and 2. -/
def firstandthird (v : Fin 32) : Handler Unit Unit :=
  if v.val = 0 ∨ v.val = 2 then { (intrunset : Handler Unit Unit) with r := some () }
  else intrunset

/-- Bit 1 is masked, and vector 0 comes again in the second handler: both stay. -/
theorem intrs_right_iff_raised :
    run (step firstandthird) (intrs 7#32 5#32) [.next, .intrclear 0, .next, .next, .next,
        .raise 0, .intrclear 2, .next, .next] = some ⟨3#32, 0#32, .done, [0, 2], 0#32⟩ ∧
      Right firstandthird (7#32 &&& 5#32) ⟨3#32, 0#32, .done, [0, 2], 0#32⟩ :=
  ⟨by decide,
    (intrs_right_iff firstandthird 7#32 5#32 [.next, .intrclear 0, .next, .next, .next,
      .raise 0, .intrclear 2, .next, .next] _ (by decide) rfl).2 (by decide)⟩

/-- A table with a handler for vector 0 only. -/
def onlyfirst (v : Fin 32) : Handler Unit Unit :=
  if v.val = 0 then { (intrunset : Handler Unit Unit) with r := some () } else intrunset

/-- With bit 1 spurious, an interrupt of vector 0 that comes after its handler is lost, and
bit 1 stays. -/
theorem spurious_loses_handled :
    run (step onlyfirst) (intrs 3#32 3#32)
        ([.next, .intrclear 0, .next, .raise 0] ++ List.replicate 34 .next) =
      some ⟨2#32, 2#32, .done, [0], 1#32⟩ ∧
    ¬ ∀ (irqvec : Fin 32 → Handler Unit Unit) (irq irqmask : BitVec 32) (as : List Act)
      (s : Intrs), run (step irqvec) (intrs irq irqmask) as = some s → s.pc = .done →
        Right irqvec (irq &&& irqmask) s := by
  have hrun : run (step onlyfirst) (intrs 3#32 3#32)
      ([.next, .intrclear 0, .next, .raise 0] ++ List.replicate 34 .next) =
        some ⟨2#32, 2#32, .done, [0], 1#32⟩ := by decide
  refine ⟨hrun, fun hall => ?_⟩
  have hright := hall onlyfirst 3#32 3#32 _ _ hrun rfl
  have hspurious := (hright.cleared 0 (by decide)).1 (by decide)
  exact absurd hspurious.2 (by decide)

end Kirkwood.Ports.TrapDispatch
