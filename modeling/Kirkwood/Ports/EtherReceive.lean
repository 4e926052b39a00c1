import Mathlib.Data.List.Perm.Basic
import Kirkwood.Verified.Trans
import Kirkwood.Verified.Ring

/-!
# The receive ring of the ethernet driver

`receive` of `etherkirkwood.c` takes the frames that the device has completed,
from `rxhead` on, and `rxreplenish` then puts blocks of the pool in the empty
slots, from `rxtail` on.  A descriptor belongs to the device while `RCSdmaown` is
set; the device clears it in the order of the ring, between any two turns of the
two loops.  The pool is shared, so blocks go to and come from the upper layers
and other controllers at any time.

## Main results

* `step_inv`, `step_only`: one step keeps frames and blocks accounted for exactly
  when the slot that `receive` looks at holds a block;
* `run_received_iff`: the runs that keep them are those in which it always does;
* `drained_faults`: what becomes of the others, when all descriptors are completed;
* `burst_faults`: a burst of `Nrx` good frames does that.

The loop of `receive` ends at a descriptor that belongs to the device.  When the
device has completed all that have a block, there is none.
-/

namespace Kirkwood.Ports.EtherReceive

open Kirkwood.Verified.Trans
open Kirkwood.Verified.Ring

/-! ## The code -/

abbrev Word := BitVec 32

def Nrx : Nat := 512

def Rxblocklen : Word := 2 + 1522
def Nrxblocks : Nat := Nrx + 50
def Bufalign : Word := 8

/-- `Bufsize(v)` -/
def Bufsize (v : Word) : Word := v <<< 3

def RCSmacerr : Word := 1 <<< 0
def RCSlast : Word := 1 <<< 26
def RCSfirst : Word := 1 <<< 27
def RCSenableintr : Word := 1 <<< 29
def RCSdmaown : Word := 1 <<< 31

/-- `Rx` -/
structure Rx where
  cs : Word
  countsize : Word
  buf : Word
  deriving DecidableEq, Repr

/-- `r->cs & RCSdmaown` -/
def Rx.owned (r : Rx) : Bool := r.cs &&& RCSdmaown ≠ 0

/-- `Block`: which block of the pool it is, and its pointers. -/
structure Blk where
  id : Nat
  lim : Word
  rp : Word
  wp : Word
  deriving DecidableEq, Repr

/-- `NEXT(x, Nrx)` -/
def next (x : Nat) : Nat := (x + 1) % Nrx

/-- At the test of the loop of `receive`, or of `rxreplenish`. -/
inductive Pc where
  | idle
  | receive
  | replenish
  deriving DecidableEq, Repr

/-- The controller, `freeblocks`, and the descriptor that the device is at.  The
other fields record what became of frames and blocks: the size of the pool; the
blocks that are `out` of the driver; the descriptors as the device `completed`
them; how many descriptors the loop of `receive` has `taken`, and how many since
it began; the blocks `delivered` to `etheriq`, and those `freed` by `receive`; and
whether the loop has ever ended before a completed descriptor. -/
structure State where
  rx : Nat → Rx
  rxb : Nat → Option Blk
  rxhead : Nat
  rxtail : Nat
  nofirstlast : Nat
  freeblocks : List Blk
  dev : Nat
  pc : Pc
  faulted : Bool
  pool : Nat
  out : List Blk
  completed : List Rx
  taken : Nat
  turns : Nat
  delivered : List Blk
  freed : List Blk
  left : Bool

def rxallocb (s : State) : Option Blk × State :=
  match s.freeblocks with
  | [] => (none, s)
  | b :: free => (some b, { s with freeblocks := free })

def rxfreeb (s : State) (b : Blk) : State :=
  let rp := (b.lim - Rxblocklen) &&& ~~~ (Bufalign - 1)
  { s with freeblocks := { b with rp := rp, wp := rp } :: s.freeblocks }

/-- One turn of `while(ctlr->rxb[ctlr->rxtail] == nil)`. -/
def rxreplenish (s : State) : State :=
  if (s.rxb s.rxtail).isNone then
    match rxallocb s with
    | (none, s) => { s with pc := .idle }
    | (some b, s) =>
        { s with
          rxb := Function.update s.rxb s.rxtail (some b)
          rx := Function.update s.rx s.rxtail
            { cs := RCSdmaown ||| RCSenableintr
              countsize := Bufsize Rxblocklen
              buf := b.rp }
          rxtail := next s.rxtail }
  else { s with pc := .idle }

/-- `freeb` of nil, or of a block of the pool, whose `free` is `rxfreeb`. -/
def freeb (s : State) : Option Blk → State
  | none => s
  | some b => rxfreeb { s with freed := s.freed ++ [b] } b

def etheriq (s : State) (b : Blk) : State :=
  { s with out := s.out ++ [b], delivered := s.delivered ++ [b] }

/-- The block of `rxhead` is taken out of the ring. -/
def shift (s : State) : State :=
  { s with
    rxb := Function.update s.rxb s.rxhead none
    rxhead := next s.rxhead
    taken := s.taken + 1
    turns := s.turns + 1 }

/-- What is done with the block `b` of the descriptor `r`; `b->wp = b->rp+n` faults
without one. -/
def frame (s : State) (r : Rx) (b : Option Blk) : State :=
  if r.cs &&& RCSmacerr ≠ 0 then freeb s b
  else if r.cs &&& (RCSfirst ||| RCSlast) ≠ RCSfirst ||| RCSlast then
    freeb { s with nofirstlast := s.nofirstlast + 1 } b
  else
    match b with
    | none => { s with faulted := true }
    | some b =>
        etheriq s { b with rp := b.rp + 2, wp := b.rp + (r.countsize >>> 16) }

/-- One turn of the loop of `receive`. -/
def receive (s : State) : State :=
  let r := s.rx s.rxhead
  if r.owned then
    { s with pc := .replenish, left := s.left || s.taken < s.completed.length }
  else frame (shift s) r (s.rxb s.rxhead)

inductive Action where
  /-- The device is done with the descriptor it is at. -/
  | complete (cs countsize : Word)
  /-- Another controller takes a block of the pool. -/
  | borrow
  /-- Block `i` of those out of the driver is freed. -/
  | giveback (i : Nat)
  /-- `receive` is called. -/
  | call
  /-- The loop that `receive` is in goes on. -/
  | turn

def step (s : State) (a : Action) : Option State :=
  if s.faulted then none
  else
    match a with
    | .complete cs countsize =>
        if (s.rx s.dev).owned then
          let r := { s.rx s.dev with
            cs := cs &&& ~~~ RCSdmaown, countsize := countsize }
          some { s with
            rx := Function.update s.rx s.dev r
            dev := next s.dev
            completed := s.completed ++ [r] }
        else none
    | .borrow =>
        match rxallocb s with
        | (none, _) => none
        | (some b, s) => some { s with out := s.out ++ [b] }
    | .giveback i =>
        match s.out[i]? with
        | none => none
        | some b => some (rxfreeb { s with out := s.out.eraseIdx i } b)
    | .call =>
        if s.pc = .idle then some { s with pc := .receive, turns := 0 } else none
    | .turn =>
        match s.pc with
        | .idle => none
        | .receive => some (receive s)
        | .replenish => some (rxreplenish s)

/-- The blocks of the pool; call `i` of `iallocb` returned one with these `lim` and
`rp`. -/
def initblocks (mem : List (Word × Word)) : List Blk :=
  (mem.take Nrxblocks).mapIdx fun i m =>
    { id := i, lim := m.1, rp := m.2, wp := m.2 }

/-- What `ctlrinit` leaves when it calls `rxreplenish`; `mem` is what `iallocb`
returned before it returned nil. -/
def ctlrinit (mem : List (Word × Word)) : State where
  rx := fun _ => { cs := 0, countsize := 0, buf := 0 }
  rxb := fun _ => none
  rxhead := 0
  rxtail := 0
  nofirstlast := 0
  freeblocks := (initblocks mem).reverse
  dev := 0
  pc := .replenish
  faulted := false
  pool := (initblocks mem).length
  out := []
  completed := []
  taken := 0
  turns := 0
  delivered := []
  freed := []
  left := false

/-! ## What is promised -/

/-- A whole frame without an error. -/
def Rx.good (r : Rx) : Bool :=
  r.cs &&& RCSmacerr = 0 ∧ r.cs &&& (RCSfirst ||| RCSlast) = RCSfirst ||| RCSlast

def Rx.bad (r : Rx) : Bool := !r.good

/-- Where the frame is: what the device wrote, less the two bytes of padding. -/
def Rx.data (r : Rx) : Word × Word := (r.buf + 2, r.buf + (r.countsize >>> 16))

def Blk.data (b : Blk) : Word × Word := (b.rp, b.wp)

/-- The blocks in the slots of the ring. -/
def inRing (s : State) : List Blk := (List.range Nrx).filterMap s.rxb

/-- The completed descriptors that the loop has taken. -/
def seen (s : State) : List Rx := s.completed.take s.taken

/-- There is no access without a block; the loop takes completed descriptors only,
ends when none is left, and in `Nrx` turns; the good frames are delivered, and the
blocks of the bad ones freed, once and in order; and each block of the pool is in
one place. -/
structure Kept (s : State) : Prop where
  calm : s.faulted = false
  only : s.taken ≤ s.completed.length
  all : s.left = false
  ends : s.turns ≤ Nrx
  delivered : s.delivered.map Blk.data = ((seen s).filter Rx.good).map Rx.data
  freed : s.freed.map Blk.rp = ((seen s).filter Rx.bad).map Rx.buf
  once : ((s.freeblocks ++ inRing s ++ s.out).map Blk.id).Perm (List.range s.pool)

/-- When the loop of `receive` looks at a slot, it holds a block. -/
def Filled (s : State) : Action → Prop
  | .turn => s.pc = .receive → (s.rxb s.rxhead).isSome = true
  | _ => True

/-- The ring holds the blocks `ring`, from `head` on; the device has completed the
descriptors of the first of them, as `done`, and has those of the others. -/
structure Ringed (rx : Nat → Rx) (rxb : Nat → Option Blk) (head tail dev : Nat)
    (done : List Rx) (ring : List Blk) : Prop where
  slots : Holds rxb Nrx head ring
  tail_eq : tail = slot Nrx head ring.length
  dev_eq : dev = slot Nrx head done.length
  done_le : done.length ≤ ring.length
  owned : ∀ j < Nrx, (rx (slot Nrx head j)).owned = true ↔
    done.length ≤ j ∧ j < ring.length
  bufs : window (fun i => (rx i).buf) Nrx head ring.length = ring.map Blk.rp
  status : window rx Nrx head done.length = done

/-- And what was promised holds, with `done` the completed descriptors that the
loop has yet to take. -/
structure RingInv (s : State) (done : List Rx) (ring : List Blk) : Prop where
  ringed : Ringed s.rx s.rxb s.rxhead s.rxtail s.dev done ring
  waiting : s.completed.drop s.taken = done
  calm : s.faulted = false
  only : s.taken ≤ s.completed.length
  all : s.left = false
  ends : s.turns ≤ Nrx
  room : s.pc = .receive → s.turns + ring.length ≤ Nrx
  delivered : s.delivered.map Blk.data = ((seen s).filter Rx.good).map Rx.data
  freed : s.freed.map Blk.rp = ((seen s).filter Rx.bad).map Rx.buf
  once : ((s.freeblocks ++ ring ++ s.out).map Blk.id).Perm (List.range s.pool)

def RxInv (s : State) : Prop := ∃ done ring, RingInv s done ring

/-! ## The ring -/

theorem Nrx_pos : 0 < Nrx := by decide

section
variable {rx : Nat → Rx} {rxb : Nat → Option Blk} {head tail dev : Nat}
variable {done : List Rx} {ring : List Blk}

theorem Ringed.empty_ring (h : Ringed rx rxb head tail dev done []) :
    rxb head = none ∧ (rx head).owned = false := by
  have howned := h.owned 0 Nrx_pos
  rw [slot_zero h.slots.start] at howned
  refine ⟨h.slots.start_none, Bool.eq_false_iff.2 fun htrue => ?_⟩
  exact Nat.not_lt_zero _ (howned.1 htrue).2

theorem Ringed.first {b : Blk} (h : Ringed rx rxb head tail dev done (b :: ring)) :
    (rx head).buf = b.rp ∧ ((rx head).owned = true ↔ done = []) := by
  have hbufs := h.bufs
  have howned := h.owned 0 Nrx_pos
  rw [List.length_cons, window_succ _ _ h.slots.start, List.map_cons] at hbufs
  rw [slot_zero h.slots.start] at howned
  refine ⟨(List.cons.inj hbufs).1, howned.trans ?_⟩
  constructor
  · intro hle
    exact List.eq_nil_of_length_eq_zero (Nat.le_zero.1 hle.1)
  · intro hnil
    rw [hnil]
    exact ⟨Nat.le_refl _, Nat.succ_pos _⟩

/-- The first block, whose descriptor is completed, leaves the ring. -/
theorem Ringed.shift {r : Rx} {b : Blk}
    (h : Ringed rx rxb head tail dev (r :: done) (b :: ring)) :
    rx head = r ∧
      Ringed rx (Function.update rxb head none) (next head) tail dev done ring := by
  have hbufs := h.bufs
  have hstatus := h.status
  have hlen : ring.length < Nrx := h.slots.fits
  rw [List.length_cons, window_succ _ _ h.slots.start, List.map_cons] at hbufs
  rw [List.length_cons, window_succ _ _ h.slots.start] at hstatus
  refine ⟨(List.cons.inj hstatus).1, ?_⟩
  exact {
    slots := h.slots.pop
    tail_eq := by
      unfold next
      rw [slot_succ]
      exact h.tail_eq
    dev_eq := by
      unfold next
      rw [slot_succ]
      exact h.dev_eq
    done_le := Nat.le_of_succ_le_succ h.done_le
    owned := by
      intro j hlt
      unfold next
      rw [slot_succ]
      by_cases hlast : j + 1 = Nrx
      · rw [hlast, slot_full h.slots.start, h.first.2]
        constructor
        · intro hnil
          cases hnil
        · intro hj
          omega
      · rw [h.owned (j + 1) (by omega), List.length_cons, List.length_cons,
          Nat.add_le_add_iff_right, Nat.add_lt_add_iff_right]
    bufs := (List.cons.inj hbufs).2
    status := (List.cons.inj hstatus).2
  }

/-- The device completes the descriptor it is at. -/
theorem Ringed.complete (h : Ringed rx rxb head tail dev done ring)
    (howned : (rx dev).owned = true) {r : Rx} (hr : r.owned = false)
    (hbuf : r.buf = (rx dev).buf) :
    Ringed (Function.update rx dev r) rxb head tail (next dev) (done ++ [r]) ring := by
  have hdone : done.length < Nrx := by
    apply Nat.lt_of_le_of_ne (Nat.le_trans h.done_le h.slots.fits)
    intro heq
    have hzero := h.owned 0 Nrx_pos
    rw [slot_zero h.slots.start] at hzero
    rw [h.dev_eq, heq, slot_full h.slots.start] at howned
    have hle := (hzero.1 howned).1
    have hpos := Nrx_pos
    omega
  have hlt : done.length < ring.length := by
    rw [h.dev_eq] at howned
    exact ((h.owned done.length hdone).1 howned).2
  have hbufs : (fun i => (Function.update rx dev r i).buf) = fun i => (rx i).buf := by
    funext i
    rw [Function.update_apply]
    by_cases hi : i = dev
    · rw [if_pos hi, hbuf, hi]
    · rw [if_neg hi]
  exact {
    slots := h.slots
    tail_eq := h.tail_eq
    dev_eq := by
      rw [List.length_append, List.length_singleton, h.dev_eq]
      exact slot_next _ _ _
    done_le := by
      rw [List.length_append, List.length_singleton]
      exact hlt
    owned := by
      intro j hj
      rw [List.length_append, List.length_singleton, h.dev_eq, update_slot rx r hj hdone]
      by_cases hlast : j = done.length
      · rw [if_pos hlast, hr, hlast]
        constructor
        · intro hfalse
          cases hfalse
        · intro hle
          omega
      · rw [if_neg hlast, h.owned j hj]
        omega
    bufs := by
      rw [hbufs]
      exact h.bufs
    status := by
      rw [List.length_append, List.length_singleton, h.dev_eq, window_push r hdone,
        h.status]
  }

/-- A block is put behind the others, and its descriptor given to the device. -/
theorem Ringed.fill (h : Ringed rx rxb head tail dev done ring)
    (hroom : ring.length < Nrx) {r : Rx} {b : Blk} (hr : r.owned = true)
    (hbuf : r.buf = b.rp) :
    Ringed (Function.update rx tail r) (Function.update rxb tail (some b)) head
      (next tail) dev done (ring ++ [b]) := by
  have hbufs : (fun i => (Function.update rx tail r i).buf) =
      Function.update (fun i => (rx i).buf) tail b.rp := by
    funext i
    rw [Function.update_apply, Function.update_apply]
    by_cases hi : i = tail
    · rw [if_pos hi, if_pos hi, hbuf]
    · rw [if_neg hi, if_neg hi]
  exact {
    slots := by
      rw [h.tail_eq]
      exact h.slots.push hroom
    tail_eq := by
      rw [List.length_append, List.length_singleton, h.tail_eq]
      exact slot_next _ _ _
    dev_eq := h.dev_eq
    done_le := by
      rw [List.length_append, List.length_singleton]
      exact Nat.le_succ_of_le h.done_le
    owned := by
      intro j hj
      rw [List.length_append, List.length_singleton, h.tail_eq, update_slot rx r hj hroom]
      have hle := h.done_le
      by_cases hlast : j = ring.length
      · rw [if_pos hlast, hr, hlast]
        constructor
        · intro _
          exact ⟨hle, Nat.lt_succ_self _⟩
        · intro _
          rfl
      · rw [if_neg hlast, h.owned j hj]
        omega
    bufs := by
      rw [List.length_append, List.length_singleton, hbufs, h.tail_eq,
        window_push b.rp hroom, h.bufs, List.map_append]
      rfl
    status := by
      have hkeep : window (Function.update rx tail r) Nrx head done.length =
          window rx Nrx head done.length := by
        rw [h.tail_eq]
        exact window_update r h.done_le hroom
      rw [hkeep]
      exact h.status
  }

end

/-! ## The steps -/

theorem RingInv.kept {s : State} {done : List Rx} {ring : List Blk}
    (h : RingInv s done ring) : Kept s :=
  { calm := h.calm
    only := h.only
    all := h.all
    ends := h.ends
    delivered := h.delivered
    freed := h.freed
    once := by
      have hring : (inRing s).Perm ring := h.ringed.slots.perm
      have hall : (s.freeblocks ++ inRing s ++ s.out).Perm
          (s.freeblocks ++ ring ++ s.out) :=
        (hring.append_left s.freeblocks).append_right s.out
      exact (hall.map Blk.id).trans h.once }

/-- The next completed descriptor. -/
theorem seen_shift {s : State} {r : Rx} {done : List Rx}
    (hwaiting : s.completed.drop s.taken = r :: done) :
    seen (shift s) = seen s ++ [r] ∧ s.completed.drop (s.taken + 1) = done ∧
      s.taken + 1 ≤ s.completed.length := by
  have hget : s.completed[s.taken]? = some r := by
    rw [← Nat.add_zero s.taken, ← List.getElem?_drop, hwaiting]
    rfl
  refine ⟨?_, ?_, ?_⟩
  · show s.completed.take (s.taken + 1) = s.completed.take s.taken ++ [r]
    rw [List.take_add_one, hget]
    rfl
  · rw [← List.drop_drop, hwaiting]
    rfl
  · exact (List.getElem?_eq_some_iff.1 hget).1

theorem frame_good {s : State} {r : Rx} {b : Blk} (hgood : r.good = true) :
    frame s r (some b) =
      etheriq s { b with rp := b.rp + 2, wp := b.rp + (r.countsize >>> 16) } := by
  have hboth := of_decide_eq_true hgood
  unfold frame
  rw [if_neg (not_not.2 hboth.1), if_neg (not_not.2 hboth.2)]

theorem frame_bad {s : State} {r : Rx} {b : Blk} (hbad : r.good = false) :
    ∃ n, frame s r (some b) = freeb { s with nofirstlast := n } (some b) := by
  have hnot := of_decide_eq_false hbad
  unfold frame
  by_cases herr : r.cs &&& RCSmacerr = 0
  · rw [if_neg (not_not.2 herr), if_pos fun hall => hnot ⟨herr, hall⟩]
    exact ⟨s.nofirstlast + 1, rfl⟩
  · rw [if_pos herr]
    exact ⟨s.nofirstlast, rfl⟩

theorem frame_none (s : State) (r : Rx) :
    (frame s r none).taken = s.taken ∧ (frame s r none).completed = s.completed := by
  unfold frame freeb
  by_cases herr : r.cs &&& RCSmacerr ≠ 0
  · rw [if_pos herr]
    exact ⟨rfl, rfl⟩
  · rw [if_neg herr]
    by_cases hall : r.cs &&& (RCSfirst ||| RCSlast) ≠ RCSfirst ||| RCSlast
    · rw [if_pos hall]
      exact ⟨rfl, rfl⟩
    · rw [if_neg hall]
      exact ⟨rfl, rfl⟩

/-- The block at `rxhead` is the one the device has filled. -/
theorem RingInv.buf_eq {s : State} {r : Rx} {done : List Rx} {b : Blk} {ring : List Blk}
    (h : RingInv s (r :: done) (b :: ring)) : r.buf = b.rp := by
  obtain ⟨hhead, -⟩ := h.ringed.shift
  rw [← hhead]
  exact h.ringed.first.1

/-- Wherever the block of a completed descriptor goes, the ring is in order without it. -/
theorem RingInv.shifted {s : State} {r : Rx} {done : List Rx} {b : Blk} {ring : List Blk}
    (h : RingInv s (r :: done) (b :: ring)) (hpc : s.pc = .receive)
    (free out delivered freed : List Blk) (n : Nat)
    (hdelivered : delivered.map Blk.data = ((seen s ++ [r]).filter Rx.good).map Rx.data)
    (hfreed : freed.map Blk.rp = ((seen s ++ [r]).filter Rx.bad).map Rx.buf)
    (honce : ((free ++ ring ++ out).map Blk.id).Perm
      ((s.freeblocks ++ b :: ring ++ s.out).map Blk.id)) :
    RingInv { shift s with
      freeblocks := free, out := out, delivered := delivered, freed := freed,
      nofirstlast := n } done ring := by
  obtain ⟨hseen, hdrop, hle⟩ := seen_shift h.waiting
  obtain ⟨-, hringed⟩ := h.ringed.shift
  have hroom : s.turns + (ring.length + 1) ≤ Nrx := h.room hpc
  exact {
    ringed := hringed
    waiting := hdrop
    calm := h.calm
    only := hle
    all := h.all
    ends := Nat.le_trans (Nat.add_le_add_left (Nat.succ_pos _) _) hroom
    room := by
      intro _
      show s.turns + 1 + ring.length ≤ Nrx
      omega
    delivered := by
      show delivered.map Blk.data = ((seen (shift s)).filter Rx.good).map Rx.data
      rw [hseen, hdelivered]
    freed := by
      show freed.map Blk.rp = ((seen (shift s)).filter Rx.bad).map Rx.buf
      rw [hseen, hfreed]
    once := honce.trans h.once
  }

/-- A good frame is delivered. -/
theorem frame_good_inv {s : State} {r : Rx} {done : List Rx} {b : Blk}
    {ring : List Blk} (h : RingInv s (r :: done) (b :: ring)) (hpc : s.pc = .receive)
    (hgood : r.good = true) : RingInv (frame (shift s) r (some b)) done ring := by
  rw [frame_good hgood]
  refine h.shifted hpc s.freeblocks _ _ s.freed s.nofirstlast ?_ ?_ ?_
  · show (s.delivered ++ [_]).map Blk.data = _
    rw [List.filter_append, List.filter_cons_of_pos hgood, List.filter_nil,
      List.map_append, List.map_append, h.delivered]
    show _ ++ [(b.rp + 2, b.rp + (r.countsize >>> 16))] =
      _ ++ [(r.buf + 2, r.buf + (r.countsize >>> 16))]
    rw [h.buf_eq]
  · have hskip : ¬ r.bad = true := by simp [Rx.bad, hgood]
    rw [List.filter_append, List.filter_cons_of_neg hskip, List.filter_nil,
      List.append_nil]
    exact h.freed
  · show ((s.freeblocks ++ ring ++ (s.out ++ [_])).map Blk.id).Perm _
    simp only [List.map_append, List.map_cons, List.map_nil, List.append_assoc]
    apply List.Perm.append_left
    rw [← List.append_assoc]
    exact List.perm_append_comm

/-- The block of a bad frame is freed. -/
theorem frame_bad_inv {s : State} {r : Rx} {done : List Rx} {b : Blk}
    {ring : List Blk} (h : RingInv s (r :: done) (b :: ring)) (hpc : s.pc = .receive)
    (hbad : r.good = false) : RingInv (frame (shift s) r (some b)) done ring := by
  obtain ⟨n, hframe⟩ := frame_bad (s := shift s) (b := b) hbad
  rw [hframe]
  refine h.shifted hpc _ s.out s.delivered _ n ?_ ?_ ?_
  · rw [List.filter_append, List.filter_cons_of_neg (Bool.eq_false_iff.1 hbad),
      List.filter_nil, List.append_nil]
    exact h.delivered
  · show (s.freed ++ [b]).map Blk.rp = _
    have hkeep : r.bad = true := by simp [Rx.bad, hbad]
    rw [List.filter_append, List.filter_cons_of_pos hkeep, List.filter_nil,
      List.map_append, List.map_append, h.freed]
    show _ ++ [b.rp] = _ ++ [r.buf]
    rw [h.buf_eq]
  · show (b.id :: (s.freeblocks ++ ring ++ s.out).map Blk.id).Perm
      ((s.freeblocks ++ b :: ring ++ s.out).map Blk.id)
    rw [List.append_assoc, List.append_assoc]
    exact (List.perm_middle.symm).map Blk.id

/-- A turn that finds a block keeps what was promised. -/
theorem receive_inv {s : State} {done : List Rx} {ring : List Blk}
    (h : RingInv s done ring) (hpc : s.pc = .receive)
    (hsome : (s.rxb s.rxhead).isSome = true) : RxInv (receive s) := by
  cases ring with
  | nil =>
      rw [h.ringed.empty_ring.1] at hsome
      cases hsome
  | cons b ring =>
      have hfirst : s.rxb s.rxhead = some b := h.ringed.slots.first
      have howned := h.ringed.first.2
      cases done with
      | nil =>
          have hlen : s.completed.length ≤ s.taken := List.drop_eq_nil_iff.1 h.waiting
          unfold receive
          simp only [howned.2 rfl, if_true]
          exact ⟨[], b :: ring, { h with
            all := by
              show (s.left || decide (s.taken < s.completed.length)) = false
              rw [h.all, Bool.false_or]
              exact decide_eq_false (Nat.not_lt.2 hlen)
            room := nofun }⟩
      | cons r done =>
          have hnot : ¬ (s.rx s.rxhead).owned = true := by
            rw [howned]
            exact List.cons_ne_nil r done
          have hhead : s.rx s.rxhead = r := h.ringed.shift.1
          have hreceive : receive s = frame (shift s) r (some b) := by
            rw [← hhead, ← hfirst]
            exact if_neg hnot
          rw [hreceive]
          cases hgood : r.good with
          | false => exact ⟨done, ring, frame_bad_inv h hpc hgood⟩
          | true => exact ⟨done, ring, frame_good_inv h hpc hgood⟩

/-- A turn that finds none takes a descriptor that is not completed. -/
theorem receive_only {s : State} {done : List Rx} {ring : List Blk}
    (h : RingInv s done ring) (honly : (receive s).taken ≤ (receive s).completed.length) :
    (s.rxb s.rxhead).isSome = true := by
  cases ring with
  | cons b ring =>
      rw [h.ringed.slots.first]
      rfl
  | nil =>
      obtain ⟨hnone, howned⟩ := h.ringed.empty_ring
      have hdone : done = [] :=
        List.eq_nil_of_length_eq_zero (Nat.le_zero.1 h.ringed.done_le)
      have hlen : s.completed.length ≤ s.taken := by
        apply List.drop_eq_nil_iff.1
        rw [h.waiting, hdone]
      have hreceive : receive s = frame (shift s) (s.rx s.rxhead) none := by
        unfold receive
        simp only [howned, hnone, Bool.false_eq_true, if_false]
      rw [hreceive, (frame_none _ _).1, (frame_none _ _).2] at honly
      exact absurd (Nat.le_trans honly hlen) (Nat.not_succ_le_self s.taken)

private theorem given_owned (countsize buf : Word) :
    ({ cs := RCSdmaown ||| RCSenableintr, countsize := countsize, buf := buf } : Rx).owned
      = true := by
  show decide ((RCSdmaown ||| RCSenableintr) &&& RCSdmaown ≠ 0) = true
  decide

/-- A turn that finds an empty slot and a block puts the one in the other. -/
theorem rxreplenish_fill {s : State} {done : List Rx} {ring free : List Blk} {b : Blk}
    (h : RingInv s done ring) (hpc : s.pc = .replenish) (hroom : ring.length < Nrx)
    (hfree : s.freeblocks = b :: free) :
    RingInv (rxreplenish s) done (ring ++ [b]) ∧ (rxreplenish s).pc = .replenish ∧
      (rxreplenish s).freeblocks = free := by
  have hnone := h.ringed.slots.end_none_iff.2 hroom
  rw [← h.ringed.tail_eq] at hnone
  unfold rxreplenish rxallocb
  simp only [hnone, Option.isNone_none, if_true, hfree]
  refine ⟨?_, hpc, trivial⟩
  exact { h with
    ringed := h.ringed.fill hroom (given_owned _ _) rfl
    room := by
      intro hreceive
      have hreceive' : s.pc = .receive := hreceive
      rw [hpc] at hreceive'
      cases hreceive'
    once := by
      show ((free ++ (ring ++ [b]) ++ s.out).map Blk.id).Perm _
      refine List.Perm.trans ?_ h.once
      rw [hfree]
      apply List.Perm.map
      apply List.Perm.append_right
      rw [← List.append_assoc]
      exact List.perm_append_comm }

/-- A turn that finds no empty slot, or no block, is the last. -/
theorem rxreplenish_end {s : State} {done : List Rx} {ring : List Blk}
    (h : RingInv s done ring) (hend : ring.length = Nrx ∨ s.freeblocks = []) :
    rxreplenish s = { s with pc := .idle } := by
  unfold rxreplenish
  by_cases hnone : (s.rxb s.rxtail).isNone = true
  · have hlt : ring.length < Nrx := by
      apply h.ringed.slots.end_none_iff.1
      rw [← h.ringed.tail_eq]
      exact Option.isNone_iff_eq_none.1 hnone
    have hnil := hend.resolve_left (Nat.ne_of_lt hlt)
    have halloc : rxallocb s = (none, s) := by
      unfold rxallocb
      simp only [hnil]
    rw [if_pos hnone, halloc]
  · rw [if_neg hnone]

theorem rxreplenish_inv {s : State} {done : List Rx} {ring : List Blk}
    (h : RingInv s done ring) (hpc : s.pc = .replenish) : RxInv (rxreplenish s) := by
  have hidle : RingInv { s with pc := .idle } done ring := { h with room := nofun }
  cases hfree : s.freeblocks with
  | nil =>
      rw [rxreplenish_end h (.inr hfree)]
      exact ⟨done, ring, hidle⟩
  | cons b free =>
      by_cases hfull : ring.length = Nrx
      · rw [rxreplenish_end h (.inl hfull)]
        exact ⟨done, ring, hidle⟩
      · have hroom : ring.length < Nrx :=
          Nat.lt_of_le_of_ne h.ringed.slots.fits hfull
        exact ⟨done, ring ++ [b], (rxreplenish_fill h hpc hroom hfree).1⟩

theorem complete_inv {s : State} {done : List Rx} {ring : List Blk} {r : Rx}
    (h : RingInv s done ring) (howned : (s.rx s.dev).owned = true)
    (hr : r.owned = false) (hbuf : r.buf = (s.rx s.dev).buf) :
    RingInv { s with
      rx := Function.update s.rx s.dev r
      dev := next s.dev
      completed := s.completed ++ [r] } (done ++ [r]) ring := by
  have hseen : (s.completed ++ [r]).take s.taken = seen s :=
    List.take_append_of_le_length h.only
  exact { h with
    ringed := h.ringed.complete howned hr hbuf
    waiting := by
      show (s.completed ++ [r]).drop s.taken = done ++ [r]
      rw [List.drop_append_of_le_length h.only, h.waiting]
    only := by
      show s.taken ≤ (s.completed ++ [r]).length
      rw [List.length_append]
      exact Nat.le_add_right_of_le h.only
    delivered := by
      show _ = (((s.completed ++ [r]).take s.taken).filter Rx.good).map Rx.data
      rw [hseen]
      exact h.delivered
    freed := by
      show _ = (((s.completed ++ [r]).take s.taken).filter Rx.bad).map Rx.buf
      rw [hseen]
      exact h.freed }

theorem borrow_inv {s : State} {done : List Rx} {ring free : List Blk} {b : Blk}
    (h : RingInv s done ring) (hfree : s.freeblocks = b :: free) :
    RingInv { s with freeblocks := free, out := s.out ++ [b] } done ring :=
  { h with
    once := by
      show ((free ++ ring ++ (s.out ++ [b])).map Blk.id).Perm _
      refine List.Perm.trans ?_ h.once
      rw [hfree]
      apply List.Perm.map
      rw [← List.append_assoc]
      exact List.perm_append_comm }

theorem giveback_inv {s : State} {done : List Rx} {ring : List Blk} {i : Nat} {b : Blk}
    (h : RingInv s done ring) (hi : s.out[i]? = some b) :
    RingInv (rxfreeb { s with out := s.out.eraseIdx i } b) done ring := by
  obtain ⟨hlt, hget⟩ := List.getElem?_eq_some_iff.1 hi
  have hsplit : (b :: s.out.eraseIdx i).Perm s.out := by
    rw [← hget]
    exact List.getElem_cons_eraseIdx_perm hlt
  exact { h with
    once := by
      refine List.Perm.trans ?_ h.once
      show ((b :: (s.freeblocks ++ ring ++ s.out.eraseIdx i)).map Blk.id).Perm _
      apply List.Perm.map
      exact List.perm_middle.symm.trans (hsplit.append_left _) }

theorem call_inv {s : State} {done : List Rx} {ring : List Blk}
    (h : RingInv s done ring) :
    RingInv { s with pc := .receive, turns := 0 } done ring :=
  { h with
    ends := Nat.zero_le _
    room := by
      intro _
      show 0 + ring.length ≤ Nrx
      rw [Nat.zero_add]
      exact h.ringed.slots.fits }

/-! ## Runs -/

/-- What a step does. -/
inductive Did (s : State) : Action → State → Prop where
  | complete (cs countsize : Word) (howned : (s.rx s.dev).owned = true) (r : Rx)
      (hr : r = { s.rx s.dev with
        cs := cs &&& ~~~ RCSdmaown, countsize := countsize }) :
      Did s (.complete cs countsize) { s with
        rx := Function.update s.rx s.dev r
        dev := next s.dev
        completed := s.completed ++ [r] }
  | borrow (b : Blk) (free : List Blk) (hfree : s.freeblocks = b :: free) :
      Did s .borrow { s with freeblocks := free, out := s.out ++ [b] }
  | giveback (i : Nat) (b : Blk) (hi : s.out[i]? = some b) :
      Did s (.giveback i) (rxfreeb { s with out := s.out.eraseIdx i } b)
  | call (hpc : s.pc = .idle) : Did s .call { s with pc := .receive, turns := 0 }
  | look (hpc : s.pc = .receive) : Did s .turn (receive s)
  | fill (hpc : s.pc = .replenish) : Did s .turn (rxreplenish s)

theorem step_did {s s' : State} {a : Action} (h : step s a = some s') :
    Did s a s' := by
  unfold step at h
  by_cases hfault : s.faulted = true
  · rw [if_pos hfault] at h
    cases h
  · rw [if_neg hfault] at h
    cases a with
    | complete cs countsize =>
        by_cases howned : (s.rx s.dev).owned = true
        · simp only [if_pos howned] at h
          cases h
          exact .complete cs countsize howned _ rfl
        · simp only [if_neg howned] at h
          cases h
    | borrow =>
        unfold rxallocb at h
        cases hfree : s.freeblocks with
        | nil =>
            simp only [hfree] at h
            cases h
        | cons b free =>
            simp only [hfree] at h
            cases h
            exact .borrow b free hfree
    | giveback i =>
        cases hi : s.out[i]? with
        | none =>
            simp only [hi] at h
            cases h
        | some b =>
            simp only [hi] at h
            cases h
            exact .giveback i b hi
    | call =>
        by_cases hpc : s.pc = .idle
        · simp only [if_pos hpc] at h
          cases h
          exact .call hpc
        · simp only [if_neg hpc] at h
          cases h
    | turn =>
        cases hpc : s.pc with
        | idle =>
            simp only [hpc] at h
            cases h
        | receive =>
            simp only [hpc] at h
            cases h
            exact .look hpc
        | replenish =>
            simp only [hpc] at h
            cases h
            exact .fill hpc

/-- The device clears the bit. -/
theorem released_not_owned (r : Rx) (cs countsize : Word) :
    ({ r with cs := cs &&& ~~~ RCSdmaown, countsize := countsize } : Rx).owned =
      false := by
  have hclear : cs &&& ~~~ RCSdmaown &&& RCSdmaown = 0 := by
    rw [BitVec.and_assoc, BitVec.and_comm (~~~ RCSdmaown)]
    rw [show RCSdmaown &&& ~~~ RCSdmaown = 0 by decide]
    exact BitVec.and_zero
  unfold Rx.owned
  rw [hclear]
  rfl

/-- A step at a slot that holds a block keeps what was promised. -/
theorem step_inv {s s' : State} {a : Action} (h : RxInv s) (hfilled : Filled s a)
    (hstep : step s a = some s') : RxInv s' := by
  obtain ⟨done, ring, h⟩ := h
  cases step_did hstep with
  | complete cs countsize howned r hr =>
      subst hr
      exact ⟨_, ring, complete_inv h howned (released_not_owned _ cs countsize) rfl⟩
  | borrow b free hfree => exact ⟨done, ring, borrow_inv h hfree⟩
  | giveback i b hi => exact ⟨done, ring, giveback_inv h hi⟩
  | call hpc => exact ⟨done, ring, call_inv h⟩
  | look hpc => exact receive_inv h hpc (hfilled hpc)
  | fill hpc => exact rxreplenish_inv h hpc

/-- A step that keeps it is one at a slot that holds a block. -/
theorem step_only {s s' : State} {a : Action} (h : RxInv s)
    (hstep : step s a = some s') (hkept : Kept s') : Filled s a := by
  obtain ⟨done, ring, h⟩ := h
  cases step_did hstep with
  | complete => trivial
  | borrow => trivial
  | giveback => trivial
  | call => trivial
  | look hpc => exact fun _ => receive_only h hkept.only
  | fill hpc =>
      intro hreceive
      rw [hpc] at hreceive
      cases hreceive

theorem initblocks_id (mem : List (Word × Word)) :
    (initblocks mem).map Blk.id = List.range (initblocks mem).length := by
  apply List.ext_getElem
  · rw [List.length_map, List.length_range]
  · intro i hi hi'
    rw [List.getElem_map, List.getElem_range]
    unfold initblocks
    rw [List.getElem_mapIdx]

theorem ctlrinit_ring (mem : List (Word × Word)) : RingInv (ctlrinit mem) [] [] :=
  { ringed := {
      slots := Holds.nil Nrx_pos fun _ => rfl
      tail_eq := (slot_zero Nrx_pos).symm
      dev_eq := (slot_zero Nrx_pos).symm
      done_le := Nat.le_refl 0
      owned := by
        intro j _
        constructor
        · intro howned
          exact absurd howned (show ¬ Rx.owned ⟨0, 0, 0⟩ = true by decide)
        · intro hj
          exact absurd hj.2 (Nat.not_lt_zero j)
      bufs := rfl
      status := rfl }
    waiting := rfl
    calm := rfl
    only := Nat.le_refl 0
    all := rfl
    ends := Nat.zero_le _
    room := nofun
    delivered := rfl
    freed := rfl
    once := by
      show (((initblocks mem).reverse ++ [] ++ []).map Blk.id).Perm
        (List.range (initblocks mem).length)
      rw [List.append_nil, List.append_nil, ← initblocks_id]
      exact (List.reverse_perm _).map Blk.id }

theorem ctlrinit_inv (mem : List (Word × Word)) : RxInv (ctlrinit mem) :=
  ⟨[], [], ctlrinit_ring mem⟩

/-- The runs that keep what was promised are those in which `receive` never looks at
a slot without a block. -/
theorem run_received_iff (mem : List (Word × Word)) (as : List Action) :
    AllStates step Kept (ctlrinit mem) as ↔
      AllSteps step Filled (ctlrinit mem) as :=
  allStates_iff_allSteps (I := RxInv) (fun _ ⟨_, _, h⟩ => h.kept)
    (fun _ _ _ => step_inv) (fun _ _ _ => step_only) as (ctlrinit_inv mem)

/-! ## A full ring -/

/-- A turn of the loop that `receive` or `rxreplenish` is in. -/
theorem step_turn {s : State} (hcalm : s.faulted = false) :
    (s.pc = .receive → step s .turn = some (receive s)) ∧
      (s.pc = .replenish → step s .turn = some (rxreplenish s)) := by
  unfold step
  rw [hcalm]
  constructor
  · intro hpc
    rw [hpc]
    rfl
  · intro hpc
    rw [hpc]
    rfl

/-- With enough blocks, `rxreplenish` fills the ring. -/
theorem fill_run {s : State} {done : List Rx} {ring : List Blk} (n : Nat)
    (h : RingInv s done ring) (hpc : s.pc = .replenish) (hn : ring.length + n = Nrx)
    (hfree : n ≤ s.freeblocks.length) :
    ∃ s' ring', run step s (List.replicate (n + 1) .turn) = some s' ∧
      RingInv s' done ring' ∧ s'.pc = .idle ∧ ring'.length = Nrx := by
  have hstep := (step_turn h.calm).2 hpc
  induction n generalizing s ring with
  | zero =>
      rw [rxreplenish_end h (.inl hn)] at hstep
      exact ⟨_, ring, run_cons _ hstep, { h with room := nofun }, rfl, hn⟩
  | succ n ih =>
      cases hblocks : s.freeblocks with
      | nil =>
          rw [hblocks] at hfree
          exact absurd hfree (Nat.not_succ_le_zero n)
      | cons b free =>
          obtain ⟨hfill, hpc', hfree'⟩ :=
            rxreplenish_fill h hpc (by omega) hblocks
          have hlen : (ring ++ [b]).length + n = Nrx := by
            rw [List.length_append, List.length_singleton]
            omega
          have hleft : n ≤ (rxreplenish s).freeblocks.length := by
            rw [hfree']
            rw [hblocks, List.length_cons] at hfree
            omega
          obtain ⟨s', ring', hrun, hrest⟩ :=
            ih hfill hpc' hlen hleft ((step_turn hfill.calm).2 hpc')
          refine ⟨s', ring', ?_, hrest⟩
          rw [List.replicate_succ, run_cons _ hstep]
          exact hrun

/-- The device completes what it has, each descriptor with a good frame. -/
theorem complete_run {s : State} {done : List Rx} {ring : List Blk} (n : Nat)
    (size : Word) (h : RingInv s done ring) (hn : done.length + n = ring.length)
    (hgood : ∀ r ∈ done, r.good = true) :
    ∃ s' done', run step s
        (List.replicate n (.complete (RCSfirst ||| RCSlast) size)) = some s' ∧
      RingInv s' done' ring ∧ s'.pc = s.pc ∧ done'.length = ring.length ∧
      ∀ r ∈ done', r.good = true := by
  induction n generalizing s done with
  | zero => exact ⟨s, done, rfl, h, rfl, hn, hgood⟩
  | succ n ih =>
      have hfits := h.ringed.slots.fits
      have howned : (s.rx s.dev).owned = true := by
        rw [h.ringed.dev_eq]
        exact (h.ringed.owned done.length (by omega)).2 ⟨Nat.le_refl _, by omega⟩
      have hr : ∀ r : Rx, ({ r with
          cs := (RCSfirst ||| RCSlast) &&& ~~~ RCSdmaown, countsize := size } : Rx).good =
            true := by
        intro r
        have hcs : (RCSfirst ||| RCSlast) &&& ~~~ RCSdmaown = RCSfirst ||| RCSlast := by
          decide
        show decide ((RCSfirst ||| RCSlast) &&& ~~~ RCSdmaown &&& RCSmacerr = 0 ∧
          (RCSfirst ||| RCSlast) &&& ~~~ RCSdmaown &&& (RCSfirst ||| RCSlast) =
            RCSfirst ||| RCSlast) = true
        rw [hcs]
        decide
      have hnext := complete_inv h howned
        (released_not_owned _ (RCSfirst ||| RCSlast) size) rfl
      obtain ⟨s', done', hrun, hinv, hpc, hlen, hall⟩ := ih hnext (by
        rw [List.length_append, List.length_singleton]
        omega) (by
        intro r hmem
        cases List.mem_append.1 hmem with
        | inl hold => exact hgood r hold
        | inr hnew =>
            rw [List.mem_singleton.1 hnew]
            exact hr _)
      refine ⟨s', done', ?_, hinv, hpc, hlen, hall⟩
      rw [List.replicate_succ]
      refine (run_cons _ ?_).trans hrun
      unfold step
      rw [h.calm]
      exact if_pos howned

/-- Where the device has completed all its descriptors, and the status of every slot
is that of a good frame, the loop delivers the frames and then faults. -/
theorem drained_faults {s : State} {done : List Rx} {ring : List Blk}
    (h : RingInv s done ring) (hpc : s.pc = .receive)
    (hall : done.length = ring.length) (hgood : ∀ i, i < Nrx → (s.rx i).good = true) :
    ∃ s', run step s (List.replicate (ring.length + 1) .turn) = some s' ∧
      s'.faulted = true := by
  have hstep := (step_turn h.calm).1 hpc
  have hhead := hgood s.rxhead h.ringed.slots.start
  induction ring generalizing s done with
  | nil =>
      obtain ⟨hnone, howned⟩ := h.ringed.empty_ring
      have hboth := of_decide_eq_true hhead
      refine ⟨receive s, run_cons _ hstep, ?_⟩
      unfold receive frame
      simp only [howned, hnone, Bool.false_eq_true, if_false, hboth.1, hboth.2, ne_eq,
        not_true_eq_false]
  | cons b ring ih =>
      cases done with
      | nil => cases hall
      | cons r done =>
          have hnot : ¬ (s.rx s.rxhead).owned = true := by
            rw [h.ringed.first.2]
            exact List.cons_ne_nil r done
          have hr : s.rx s.rxhead = r := h.ringed.shift.1
          rw [hr] at hhead
          have hreceive : receive s = frame (shift s) r (some b) := by
            rw [← hr, ← h.ringed.slots.first]
            exact if_neg hnot
          have hinv := frame_good_inv h hpc hhead
          rw [← hreceive] at hinv
          have hsame : (receive s).pc = .receive ∧ (receive s).rx = s.rx := by
            rw [hreceive, frame_good hhead]
            exact ⟨hpc, rfl⟩
          have hgood' : ∀ i, i < Nrx → ((receive s).rx i).good = true := by
            rw [hsame.2]
            exact hgood
          obtain ⟨s', hs', hfault⟩ := ih hinv hsame.1 (Nat.succ.inj hall) hgood'
            ((step_turn hinv.calm).1 hsame.1) (hgood' _ hinv.ringed.slots.start)
          refine ⟨s', ?_, hfault⟩
          rw [List.length_cons, List.replicate_succ, run_cons _ hstep]
          exact hs'

/-- With blocks for the whole ring, a burst of `Nrx` good frames ends in an access
without a block. -/
theorem burst_faults (mem : List (Word × Word)) (size : Word) (hmem : Nrx ≤ mem.length) :
    ∃ s, run step (ctlrinit mem) (List.replicate (Nrx + 1) .turn ++
        (List.replicate Nrx (.complete (RCSfirst ||| RCSlast) size) ++
          .call :: List.replicate (Nrx + 1) .turn)) = some s ∧
      s.faulted = true := by
  have hblocks : Nrx ≤ (ctlrinit mem).freeblocks.length := by
    show Nrx ≤ ((initblocks mem).reverse).length
    unfold initblocks
    rw [List.length_reverse, List.length_mapIdx, List.length_take]
    exact Nat.le_min.2 ⟨by decide, hmem⟩
  obtain ⟨s₁, ring, hrun₁, hinv₁, hpc₁, hlen⟩ :=
    fill_run Nrx (ctlrinit_ring mem) rfl (Nat.zero_add _) hblocks
  obtain ⟨s₂, done, hrun₂, hinv₂, hpc₂, hdone, hgood⟩ :=
    complete_run Nrx size hinv₁ (by rw [hlen]; exact Nat.zero_add _)
      (fun r hr => absurd hr List.not_mem_nil)
  have hcall : step s₂ .call = some { s₂ with pc := .receive, turns := 0 } := by
    unfold step
    rw [hinv₂.calm]
    exact if_pos (hpc₂.trans hpc₁)
  have hinv₃ : RingInv { s₂ with pc := .receive, turns := 0 } done ring := call_inv hinv₂
  have hall : ∀ i, i < Nrx → (s₂.rx i).good = true := by
    intro i hi
    apply hgood
    rw [← hinv₂.ringed.status, hdone, hlen]
    refine mem_window.2 ⟨gap Nrx s₂.rxhead i, gap_lt _ _ Nrx_pos, ?_⟩
    rw [slot_gap hinv₂.ringed.slots.start hi]
  obtain ⟨s, hrun, hfault⟩ := drained_faults hinv₃ rfl hdone hall
  refine ⟨s, ?_, hfault⟩
  rw [run_append _ _ hrun₁, run_append _ _ hrun₂, run_cons _ hcall, ← hlen]
  exact hrun

/-- All blocks are there, 2048 bytes apart, and `Nrx` frames of 64 bytes come before
`receive` is called. -/
theorem burst_not_kept : ¬ ∀ (mem : List (Word × Word)) (as : List Action),
    AllStates step Kept (ctlrinit mem) as := by
  intro hall
  have hmem : Nrx ≤ ((List.range Nrxblocks).map fun i =>
      (BitVec.ofNat 32 (2048 * i + 67067), BitVec.ofNat 32 (2048 * i + 65536))).length := by
    rw [List.length_map, List.length_range]
    decide
  obtain ⟨s, hrun, hfault⟩ := burst_faults _ (64 <<< 16) hmem
  have hcalm : s.faulted = false := ((hall _ _).last _ hrun).calm
  rw [hfault] at hcalm
  cases hcalm

end Kirkwood.Ports.EtherReceive
