import Kirkwood.Verified.Trans
import Kirkwood.Verified.Ring

/-!
# The transmit ring of the ethernet driver

`transmit` of `etherkirkwood.c` frees the packets that the device has sent, from
`txtail` on, and gives it new ones, from `txhead` on.  A descriptor belongs to
the device while `TCSdmaown` is set; the device clears it in the order of the
ring, between any two statements.

## Main results

* `step_inv`, `step_only`: one step keeps the packets accounted for exactly when
  the slot that it looks at is the way the code needs it;
* `run_sent_iff`: the runs that keep the packets are those in which it always is;
* `left_stays`: a packet that was sent, and left when the loop ended, is not freed
  later.

The loop that frees packets goes on while the descriptor belongs to the device,
and ends when it does not; and a full ring has `txhead` equal to `txtail`, like
an empty one.
-/

namespace Kirkwood.Ports.EtherTransmit

open Kirkwood.Verified.Trans
open Kirkwood.Verified.Ring

/-! ## The code -/

abbrev Word := BitVec 32

def Ntx : Nat := 512

def TCSpadding : Word := 1 <<< 19
def TCSlast : Word := 1 <<< 20
def TCSfirst : Word := 1 <<< 21
def TCSenableintr : Word := 1 <<< 23
def TCSdmaown : Word := 1 <<< 31

/-- `Tx`; `buf` is the block whose bytes it points at. -/
structure Tx where
  cs : Word
  countchk : Word
  buf : Nat

/-- `t->cs & TCSdmaown` -/
def Tx.owned (t : Tx) : Bool := t.cs &&& TCSdmaown ≠ 0

/-- A block of the output queue: its number in the order of arrival, and `BLEN`. -/
structure Blk where
  id : Nat
  len : Nat
  deriving DecidableEq, Repr

/-- `NEXT(x, Ntx)` -/
def next (x : Nat) : Nat := (x + 1) % Ntx

/-- Where `transmit` is: at the test of the loop that frees packets, at `freeb`, at
the test of the loop that queues packets, at `qget`. -/
inductive Pc where
  | idle
  | reclaim
  | freeing
  | queue
  | filling
  deriving DecidableEq, Repr

/-- The controller, the output queue, and the descriptor that the device is at.
The other fields record what became of blocks: those `taken` from the queue,
`given` to the device and `freed`, in this order; those freed while the device
had their descriptor; those whose slot was overwritten; and whether the loop has
ever ended at a packet that was sent. -/
structure State where
  minmtu : Nat
  maxmtu : Nat
  tx : Nat → Tx
  txb : Nat → Option Blk
  txhead : Nat
  txtail : Nat
  txringfull : Nat
  oq : List Blk
  dev : Nat
  pc : Pc
  panicked : Bool
  arrived : Nat
  taken : List Blk
  given : List Blk
  freed : List Blk
  early : List Blk
  lost : List Blk
  missed : Bool

/-- The length is one that can be sent. -/
def State.sendable (s : State) (b : Blk) : Bool :=
  ¬ (b.len < s.minmtu ∨ b.len > s.maxmtu)

/-- `while(ctlr->txtail != ctlr->txhead)`, up to the test of the descriptor. -/
def reclaimTest (s : State) : State :=
  let owned := (s.tx s.txtail).owned
  let left := { s with
    pc := .queue
    missed := s.missed || ((s.txb s.txtail).isSome && !owned) }
  if s.txtail = s.txhead then left
  else if ¬ owned then left
  else { s with pc := .freeing }

/-- The rest of that loop. -/
def reclaimFree (s : State) : State :=
  match s.txb s.txtail with
  | none => { s with panicked := true }
  | some b =>
      { s with
        pc := .reclaim
        freed := s.freed ++ [b]
        early := if (s.tx s.txtail).owned then s.early ++ [b] else s.early
        txb := Function.update s.txb s.txtail none
        txtail := next s.txtail }

/-- `while(qcanread(e->oq))`, up to the test of the descriptor. -/
def queueTest (s : State) : State :=
  if s.oq = [] then { s with pc := .idle }
  else if (s.tx s.txhead).owned then
    { s with pc := .idle, txringfull := s.txringfull + 1 }
  else { s with pc := .filling }

/-- `t->countchk = BLEN(b)<<16;`, `t->buf = (ulong)b->rp;`, and `t->cs`. -/
def fillTx (b : Blk) : Tx :=
  { cs := TCSpadding ||| TCSfirst ||| TCSlast ||| TCSenableintr ||| TCSdmaown
    countchk := BitVec.ofNat 32 b.len <<< 16
    buf := b.id }

/-- `qget` returns `b` and leaves `oq`. -/
def State.qget (s : State) (b : Blk) (oq : List Blk) : State :=
  { s with oq := oq, taken := s.taken ++ [b], pc := .queue }

/-- What is done with the block `b` that `qget` returned. -/
def place (s : State) (b : Blk) : State :=
  if s.sendable b then
    { s with
      txb := Function.update s.txb s.txhead (some b)
      tx := Function.update s.tx s.txhead (fillTx b)
      txhead := next s.txhead
      given := s.given ++ [b]
      lost := s.lost ++ (s.txb s.txhead).toList }
  else { s with freed := s.freed ++ [b] }

/-- The rest of that loop; without a block, `BLEN` faults. -/
def queueFill (s : State) : State :=
  match s.oq with
  | [] => { s with panicked := true }
  | b :: oq => place (s.qget b oq) b

inductive Action where
  /-- A packet of this length for the output queue. -/
  | arrive (len : Nat)
  /-- The device is done with the descriptor it is at, with this status. -/
  | release (cs : Word)
  /-- `transmit` is called. -/
  | call
  /-- `transmit` goes on. -/
  | turn

def step (s : State) (a : Action) : Option State :=
  if s.panicked then none
  else
    match a with
    | .arrive len =>
        some { s with
          oq := s.oq ++ [{ id := s.arrived, len := len }]
          arrived := s.arrived + 1 }
    | .release cs =>
        if (s.tx s.dev).owned then
          some { s with
            tx := Function.update s.tx s.dev
              { s.tx s.dev with cs := cs &&& ~~~ TCSdmaown }
            dev := next s.dev }
        else none
    | .call => if s.pc = .idle then some { s with pc := .reclaim } else none
    | .turn =>
        match s.pc with
        | .idle => none
        | .reclaim => some (reclaimTest s)
        | .freeing => some (reclaimFree s)
        | .queue => some (queueTest s)
        | .filling => some (queueFill s)

/-- What `ctlrinit` leaves, for an `Ether` with these bounds. -/
def ctlrinit (minmtu maxmtu : Nat) : State where
  minmtu := minmtu
  maxmtu := maxmtu
  tx := fun _ => { cs := 0, countchk := 0, buf := 0 }
  txb := fun _ => none
  txhead := 0
  txtail := 0
  txringfull := 0
  oq := []
  dev := 0
  pc := .idle
  panicked := false
  arrived := 0
  taken := []
  given := []
  freed := []
  early := []
  lost := []
  missed := false

/-! ## What is promised -/

/-- The blocks in the slots of the ring. -/
def pending (s : State) : List Blk := (List.range Ntx).filterMap s.txb

/-- Blocks are taken in the order of arrival, and those that can be sent are
given to the device in that order; each block taken is either freed, once, or in
one slot; none was freed while the device had its descriptor; none was
overwritten; and none that was sent was left when the loop ended. -/
structure Kept (s : State) : Prop where
  calm : s.panicked = false
  queue : (s.taken ++ s.oq).map Blk.id = List.range s.arrived
  order : s.given = s.taken.filter s.sendable
  once : (s.freed ++ pending s).Perm s.taken
  early : s.early = []
  lost : s.lost = []
  prompt : s.missed = false

/-- All slots hold a block. -/
def Full (s : State) : Prop := s.txtail = s.txhead ∧ (s.txb s.txtail).isSome = true

/-- When the loop looks at a slot with a block, its descriptor belongs to the
device; when the block is freed, it no longer does; and no packet is placed in a
full ring. -/
def Timely (s : State) : Action → Prop
  | .turn =>
      match s.pc with
      | .reclaim => (s.txb s.txtail).isSome = true → (s.tx s.txtail).owned = true
      | .freeing => (s.tx s.txtail).owned = false
      | .filling => ∀ b ∈ s.oq.head?, s.sendable b = true → ¬ Full s
      | _ => True
  | _ => True

/-- The ring holds the blocks `ring`, from `txtail` on. -/
structure RingInv (s : State) (ring : List Blk) : Prop where
  slots : Holds s.txb Ntx s.txtail ring
  head : s.txhead = slot Ntx s.txtail ring.length
  queue : (s.taken ++ s.oq).map Blk.id = List.range s.arrived
  order : s.given = s.taken.filter s.sendable
  once : (s.freed ++ ring).Perm s.taken
  calm : s.panicked = false
  early : s.early = []
  lost : s.lost = []
  prompt : s.missed = false
  freeing : s.pc = .freeing → s.txtail ≠ s.txhead
  filling : s.pc = .filling → s.oq ≠ []

def TxInv (s : State) : Prop := ∃ ring, RingInv s ring

/-! ## What the invariant gives -/

theorem Ntx_pos : 0 < Ntx := by decide

theorem RingInv.kept {s : State} {ring : List Blk} (h : RingInv s ring) : Kept s :=
  { calm := h.calm
    queue := h.queue
    order := h.order
    once := by
      have hpending : (pending s).Perm ring := h.slots.perm
      exact (hpending.append_left s.freed).trans h.once
    early := h.early
    lost := h.lost
    prompt := h.prompt }

theorem RingInv.ne_nil {s : State} {ring : List Blk} (h : RingInv s ring)
    (hne : s.txtail ≠ s.txhead) : ring ≠ [] := by
  intro hnil
  have hhead := h.head
  rw [hnil, List.length_nil, slot_zero h.slots.start] at hhead
  exact hne hhead.symm

/-- A ring with a free slot is not full. -/
theorem RingInv.full_iff {s : State} {ring : List Blk} (h : RingInv s ring) :
    Full s ↔ ring.length = Ntx := by
  have hend := h.slots.end_none_iff
  rw [← h.head] at hend
  constructor
  · intro hfull
    by_contra hne
    have hnone := hend.2 (Nat.lt_of_le_of_ne h.slots.fits hne)
    have hsome := hfull.2
    rw [hfull.1, hnone] at hsome
    cases hsome
  · intro hlen
    have hhead := h.head
    rw [hlen, slot_full h.slots.start] at hhead
    refine ⟨hhead.symm, ?_⟩
    rw [← hhead, Option.isSome_iff_ne_none]
    intro hnone
    exact absurd (hend.1 hnone) (by omega)

/-! ## The steps -/

theorem arrive_inv {s : State} {ring : List Blk} (len : Nat) (h : RingInv s ring) :
    RingInv { s with
      oq := s.oq ++ [{ id := s.arrived, len := len }], arrived := s.arrived + 1 }
      ring :=
  { h with
    queue := by
      show (s.taken ++ (s.oq ++ [_])).map Blk.id = List.range (s.arrived + 1)
      rw [← List.append_assoc, List.map_append, h.queue, List.range_succ]
      rfl
    filling := fun _ => List.append_ne_nil_of_right_ne_nil _ (List.cons_ne_nil _ _) }

theorem reclaimTest_inv {s : State} {ring : List Blk} (h : RingInv s ring)
    (htimely : (s.txb s.txtail).isSome = true → (s.tx s.txtail).owned = true) :
    RingInv (reclaimTest s) ring := by
  have hmissed : (s.missed || ((s.txb s.txtail).isSome && !(s.tx s.txtail).owned)) =
      false := by
    rw [h.prompt, Bool.false_or]
    cases hsome : (s.txb s.txtail).isSome with
    | false => rfl
    | true => rw [htimely hsome]; rfl
  have hleft : RingInv { s with
      pc := .queue
      missed := s.missed || ((s.txb s.txtail).isSome && !(s.tx s.txtail).owned) }
      ring := { h with prompt := hmissed, freeing := nofun, filling := nofun }
  unfold reclaimTest
  by_cases heq : s.txtail = s.txhead
  · simp only [if_pos heq]
    exact hleft
  · simp only [if_neg heq]
    by_cases howned : (s.tx s.txtail).owned = true
    · rw [if_neg (not_not.2 howned)]
      exact { h with freeing := fun _ => heq, filling := nofun }
    · rw [if_pos howned]
      exact hleft

theorem reclaimTest_only {s : State} (hprompt : (reclaimTest s).missed = false) :
    (s.txb s.txtail).isSome = true → (s.tx s.txtail).owned = true := by
  intro hsome
  by_contra howned
  have hfalse : (s.tx s.txtail).owned = false := Bool.eq_false_iff.2 howned
  unfold reclaimTest at hprompt
  simp only [hsome, hfalse, Bool.not_false, Bool.and_true, Bool.or_true,
    Bool.false_eq_true, not_false_eq_true, if_true, ite_self] at hprompt
  cases hprompt

theorem reclaimFree_inv {s : State} {ring : List Blk} (h : RingInv s ring)
    (hpc : s.pc = .freeing) (howned : (s.tx s.txtail).owned = false) :
    TxInv (reclaimFree s) := by
  cases ring with
  | nil => exact absurd rfl (h.ne_nil (h.freeing hpc))
  | cons b ring =>
      refine ⟨ring, ?_⟩
      unfold reclaimFree
      rw [h.slots.first]
      simp only [howned]
      exact {
        slots := h.slots.pop
        head := by
          show s.txhead = slot Ntx (next s.txtail) ring.length
          unfold next
          rw [slot_succ]
          exact h.head
        queue := h.queue
        order := h.order
        once := by
          show ((s.freed ++ [b]) ++ ring).Perm s.taken
          rw [List.append_assoc]
          exact h.once
        calm := h.calm
        early := h.early
        lost := h.lost
        prompt := h.prompt
        freeing := nofun
        filling := nofun
      }

theorem reclaimFree_only {s : State} {ring : List Blk} (h : RingInv s ring)
    (hpc : s.pc = .freeing) (hearly : (reclaimFree s).early = []) :
    (s.tx s.txtail).owned = false := by
  cases ring with
  | nil => exact absurd rfl (h.ne_nil (h.freeing hpc))
  | cons b ring =>
      cases howned : (s.tx s.txtail).owned with
      | false => rfl
      | true =>
          unfold reclaimFree at hearly
          rw [h.slots.first] at hearly
          simp only [howned, if_true] at hearly
          exact absurd hearly
            (List.append_ne_nil_of_right_ne_nil _ (List.cons_ne_nil _ _))

/-- The test of the second loop moves on, and counts. -/
theorem queueTest_eq (s : State) : ∃ pc n,
    queueTest s = { s with pc := pc, txringfull := n } ∧ pc ≠ .freeing ∧
      (pc = .filling → s.oq ≠ []) := by
  unfold queueTest
  by_cases hempty : s.oq = []
  · rw [if_pos hempty]
    exact ⟨.idle, s.txringfull, rfl, nofun, nofun⟩
  · rw [if_neg hempty]
    by_cases howned : (s.tx s.txhead).owned = true
    · rw [if_pos howned]
      exact ⟨.idle, s.txringfull + 1, rfl, nofun, nofun⟩
    · rw [if_neg howned]
      exact ⟨.filling, s.txringfull, rfl, nofun, fun _ => hempty⟩

theorem queueTest_inv {s : State} {ring : List Blk} (h : RingInv s ring) :
    RingInv (queueTest s) ring := by
  obtain ⟨pc, n, heq, hpc, hoq⟩ := queueTest_eq s
  rw [heq]
  exact { h with
    freeing := fun hfreeing => absurd hfreeing hpc
    filling := hoq }

theorem place_good {s : State} {b : Blk} (hgood : s.sendable b = true) :
    place s b = { s with
      txb := Function.update s.txb s.txhead (some b)
      tx := Function.update s.tx s.txhead (fillTx b)
      txhead := next s.txhead
      given := s.given ++ [b]
      lost := s.lost ++ (s.txb s.txhead).toList } :=
  if_pos hgood

theorem place_bad {s : State} {b : Blk} (hbad : s.sendable b = false) :
    place s b = { s with freed := s.freed ++ [b] } :=
  if_neg (Bool.eq_false_iff.1 hbad)

/-- A packet of a bad length is freed. -/
theorem place_bad_inv {s : State} {ring oq : List Blk} {b : Blk} (h : RingInv s ring)
    (hoq : s.oq = b :: oq) (hbad : s.sendable b = false) :
    RingInv (place (s.qget b oq) b) ring := by
  have hqueue := h.queue
  rw [hoq] at hqueue
  have hbad' : (s.qget b oq).sendable b = false := hbad
  rw [place_bad hbad']
  exact { h with
    queue := by
      show ((s.taken ++ [b]) ++ oq).map Blk.id = _
      rw [List.append_assoc]
      exact hqueue
    order := by
      show s.given = (s.taken ++ [b]).filter s.sendable
      rw [List.filter_append, List.filter_cons_of_neg (Bool.eq_false_iff.1 hbad),
        List.filter_nil, List.append_nil]
      exact h.order
    once := by
      show ((s.freed ++ [b]) ++ ring).Perm (s.taken ++ [b])
      have hswap : ((s.freed ++ [b]) ++ ring).Perm ((s.freed ++ ring) ++ [b]) := by
        rw [List.append_assoc, List.append_assoc]
        exact List.perm_append_comm.append_left s.freed
      exact hswap.trans (h.once.append_right [b])
    freeing := nofun
    filling := nofun }

/-- A packet that can be sent is placed behind the others. -/
theorem place_good_inv {s : State} {ring oq : List Blk} {b : Blk} (h : RingInv s ring)
    (hoq : s.oq = b :: oq) (hgood : s.sendable b = true) (hroom : ¬ Full s) :
    RingInv (place (s.qget b oq) b) (ring ++ [b]) := by
  have hlen : ring.length < Ntx :=
    Nat.lt_of_le_of_ne h.slots.fits fun heq => hroom (h.full_iff.2 heq)
  have hslot : s.txb s.txhead = none := by
    rw [h.head]
    exact h.slots.end_none_iff.2 hlen
  have hqueue := h.queue
  rw [hoq] at hqueue
  have hgood' : (s.qget b oq).sendable b = true := hgood
  rw [place_good hgood']
  exact {
    slots := by
      show Holds (Function.update s.txb s.txhead (some b)) Ntx s.txtail (ring ++ [b])
      rw [h.head]
      exact h.slots.push hlen
    head := by
      show next s.txhead = slot Ntx s.txtail (ring ++ [b]).length
      rw [List.length_append, List.length_singleton, h.head]
      exact slot_next _ _ _
    queue := by
      show ((s.taken ++ [b]) ++ oq).map Blk.id = _
      rw [List.append_assoc]
      exact hqueue
    order := by
      show s.given ++ [b] = (s.taken ++ [b]).filter s.sendable
      rw [List.filter_append, List.filter_cons_of_pos hgood, List.filter_nil, h.order]
    once := by
      show (s.freed ++ (ring ++ [b])).Perm (s.taken ++ [b])
      rw [← List.append_assoc]
      exact h.once.append_right [b]
    calm := h.calm
    early := h.early
    lost := by
      show s.lost ++ (s.txb s.txhead).toList = []
      rw [hslot, h.lost]
      rfl
    prompt := h.prompt
    freeing := nofun
    filling := nofun
  }

theorem queueFill_inv {s : State} {ring : List Blk} (h : RingInv s ring)
    (hpc : s.pc = .filling)
    (hroom : ∀ b ∈ s.oq.head?, s.sendable b = true → ¬ Full s) :
    TxInv (queueFill s) := by
  unfold queueFill
  cases hoq : s.oq with
  | nil => exact absurd hoq (h.filling hpc)
  | cons b oq =>
      have hb : b ∈ s.oq.head? := by rw [hoq]; rfl
      cases hsend : s.sendable b with
      | false => exact ⟨ring, place_bad_inv h hoq hsend⟩
      | true => exact ⟨ring ++ [b], place_good_inv h hoq hsend (hroom b hb hsend)⟩

theorem queueFill_only {s : State} (hlost : (queueFill s).lost = []) :
    ∀ b ∈ s.oq.head?, s.sendable b = true → ¬ Full s := by
  intro b hb hsend hfull
  unfold queueFill at hlost
  cases hoq : s.oq with
  | nil =>
      rw [hoq] at hb
      cases hb
  | cons c oq =>
      rw [hoq] at hb hlost
      cases hb
      have hplace : (place (s.qget b oq) b).lost = [] := hlost
      have hsend' : (s.qget b oq).sendable b = true := hsend
      rw [place_good hsend'] at hplace
      have hnone : (s.txb s.txhead).toList = [] := (List.append_eq_nil_iff.1 hplace).2
      have hsome := hfull.2
      rw [hfull.1] at hsome
      obtain ⟨c, hc⟩ := Option.isSome_iff_exists.1 hsome
      rw [hc] at hnone
      cases hnone

/-! ## Runs -/

/-- What a step does. -/
inductive Did (s : State) : Action → State → Prop where
  | arrive (len : Nat) :
      Did s (.arrive len) { s with
        oq := s.oq ++ [{ id := s.arrived, len := len }], arrived := s.arrived + 1 }
  | release (cs : Word) (howned : (s.tx s.dev).owned = true) :
      Did s (.release cs) { s with
        tx := Function.update s.tx s.dev
          { s.tx s.dev with cs := cs &&& ~~~ TCSdmaown }
        dev := next s.dev }
  | call (hpc : s.pc = .idle) : Did s .call { s with pc := .reclaim }
  | test (hpc : s.pc = .reclaim) : Did s .turn (reclaimTest s)
  | free (hpc : s.pc = .freeing) : Did s .turn (reclaimFree s)
  | look (hpc : s.pc = .queue) : Did s .turn (queueTest s)
  | fill (hpc : s.pc = .filling) : Did s .turn (queueFill s)

theorem step_did {s s' : State} {a : Action} (h : step s a = some s') :
    Did s a s' := by
  unfold step at h
  by_cases hpanic : s.panicked = true
  · rw [if_pos hpanic] at h
    cases h
  · rw [if_neg hpanic] at h
    cases a with
    | arrive len =>
        cases h
        exact .arrive len
    | release cs =>
        by_cases howned : (s.tx s.dev).owned = true
        · simp only [if_pos howned] at h
          cases h
          exact .release cs howned
        · simp only [if_neg howned] at h
          cases h
    | call =>
        by_cases hpc : s.pc = .idle
        · simp only [if_pos hpc] at h
          cases h
          exact .call hpc
        · simp only [if_neg hpc] at h
          cases h
    | turn =>
        cases hpc : s.pc with
        | idle =>
            simp only [hpc] at h
            cases h
        | reclaim =>
            simp only [hpc] at h
            cases h
            exact .test hpc
        | freeing =>
            simp only [hpc] at h
            cases h
            exact .free hpc
        | queue =>
            simp only [hpc] at h
            cases h
            exact .look hpc
        | filling =>
            simp only [hpc] at h
            cases h
            exact .fill hpc

/-- A timely step keeps the packets accounted for. -/
theorem step_inv {s s' : State} {a : Action} (h : TxInv s) (htimely : Timely s a)
    (hstep : step s a = some s') : TxInv s' := by
  obtain ⟨ring, h⟩ := h
  cases step_did hstep with
  | arrive len => exact ⟨ring, arrive_inv len h⟩
  | release cs howned => exact ⟨ring, { h with }⟩
  | call hpc => exact ⟨ring, { h with freeing := nofun, filling := nofun }⟩
  | test hpc =>
      simp only [Timely, hpc] at htimely
      exact ⟨ring, reclaimTest_inv h htimely⟩
  | free hpc =>
      simp only [Timely, hpc] at htimely
      exact reclaimFree_inv h hpc htimely
  | look hpc => exact ⟨ring, queueTest_inv h⟩
  | fill hpc =>
      simp only [Timely, hpc] at htimely
      exact queueFill_inv h hpc htimely

/-- A step that keeps the packets accounted for is timely. -/
theorem step_only {s s' : State} {a : Action} (h : TxInv s)
    (hstep : step s a = some s') (hkept : Kept s') : Timely s a := by
  obtain ⟨ring, h⟩ := h
  cases step_did hstep with
  | arrive len => trivial
  | release cs howned => trivial
  | call hpc => trivial
  | test hpc =>
      simp only [Timely, hpc]
      exact reclaimTest_only hkept.prompt
  | free hpc =>
      simp only [Timely, hpc]
      exact reclaimFree_only h hpc hkept.early
  | look hpc => simp only [Timely, hpc]
  | fill hpc =>
      simp only [Timely, hpc]
      exact queueFill_only hkept.lost

theorem ctlrinit_inv (minmtu maxmtu : Nat) : TxInv (ctlrinit minmtu maxmtu) :=
  ⟨[], {
    slots := Holds.nil Ntx_pos fun _ => rfl
    head := (slot_zero Ntx_pos).symm
    queue := rfl
    order := rfl
    once := List.Perm.refl _
    calm := rfl
    early := rfl
    lost := rfl
    prompt := rfl
    freeing := nofun
    filling := nofun }⟩

/-- The runs that keep the packets accounted for are those whose steps are timely. -/
theorem run_sent_iff (minmtu maxmtu : Nat) (as : List Action) :
    AllStates step Kept (ctlrinit minmtu maxmtu) as ↔
      AllSteps step Timely (ctlrinit minmtu maxmtu) as :=
  allStates_iff_allSteps (I := TxInv) (fun _ ⟨_, h⟩ => h.kept)
    (fun _ _ _ => step_inv) (fun _ _ _ => step_only) as
    (ctlrinit_inv minmtu maxmtu)

/-- A packet is given to the device, and `transmit` is called again before it is
sent. -/
theorem owned_is_freed : ¬ ∀ (minmtu maxmtu : Nat) (as : List Action),
    AllStates step Kept (ctlrinit minmtu maxmtu) as := by
  intro hall
  have hstates := hall 60 1514
    [.arrive 60, .call, .turn, .turn, .turn, .turn, .call, .turn, .turn]
  have hrun : (run step (ctlrinit 60 1514)
      [.arrive 60, .call, .turn, .turn, .turn, .turn, .call, .turn, .turn]).map
        State.early = some [⟨0, 60⟩] := by
    decide +kernel
  obtain ⟨s, hs, hearly⟩ := Option.map_eq_some_iff.1 hrun
  have hnone : s.early = [] := (hstates.last _ hs).early
  rw [hearly] at hnone
  cases hnone

/-! ## Packets that are left -/

/-- The packet `b` at `txtail` has been sent, and is not about to be freed. -/
def Passed (s : State) (b : Blk) : Prop :=
  s.txb s.txtail = some b ∧ (s.tx s.txtail).owned = false ∧ s.pc ≠ .freeing

theorem reclaimTest_passed {s : State} {b : Blk} (hb : s.txb s.txtail = some b)
    (hsent : (s.tx s.txtail).owned = false) : Passed (reclaimTest s) b := by
  unfold reclaimTest
  by_cases heq : s.txtail = s.txhead
  · simp only [if_pos heq]
    exact ⟨hb, hsent, nofun⟩
  · simp only [if_neg heq, hsent, Bool.false_eq_true, not_false_eq_true, if_true]
    exact ⟨hb, hsent, nofun⟩

theorem queueTest_passed {s : State} {b : Blk} (h : Passed s b) :
    Passed (queueTest s) b := by
  obtain ⟨pc, n, heq, hpc, _⟩ := queueTest_eq s
  rw [heq]
  exact ⟨h.1, h.2.1, hpc⟩

theorem queueFill_passed {s : State} {b : Blk} (h : Passed s b) :
    Passed (queueFill s) b ∨ b ∈ (queueFill s).lost := by
  obtain ⟨hb, hsent, hpc⟩ := h
  unfold queueFill
  cases hoq : s.oq with
  | nil => exact .inl ⟨hb, hsent, hpc⟩
  | cons c oq =>
      cases hsend : (s.qget c oq).sendable c with
      | false =>
          simp only [place_bad hsend]
          exact .inl ⟨hb, hsent, nofun⟩
      | true =>
          simp only [place_good hsend]
          by_cases heq : s.txtail = s.txhead
          · right
            apply List.mem_append_right
            show b ∈ (s.txb s.txhead).toList
            rw [← heq, hb]
            exact List.mem_singleton_self b
          · refine .inl ⟨?_, ?_, nofun⟩
            · show Function.update s.txb s.txhead _ s.txtail = some b
              rw [Function.update_of_ne heq]
              exact hb
            · show (Function.update s.tx s.txhead _ s.txtail).owned = false
              rw [Function.update_of_ne heq]
              exact hsent

/-- Nothing that was overwritten comes back. -/
theorem step_lost {s s' : State} {a : Action} (hstep : step s a = some s') :
    s.lost ⊆ s'.lost := by
  cases step_did hstep with
  | arrive len => exact List.Subset.refl _
  | release cs howned => exact List.Subset.refl _
  | call hpc => exact List.Subset.refl _
  | test hpc =>
      simp only [reclaimTest, apply_ite State.lost, ite_self, List.Subset.refl]
  | free hpc =>
      unfold reclaimFree
      cases s.txb s.txtail <;> exact List.Subset.refl _
  | look hpc =>
      obtain ⟨pc, n, heq, _⟩ := queueTest_eq s
      rw [heq]
      exact List.Subset.refl _
  | fill hpc =>
      unfold queueFill
      cases s.oq with
      | nil => exact List.Subset.refl _
      | cons b oq =>
          cases hsend : (s.qget b oq).sendable b with
          | false =>
              simp only [place_bad hsend]
              exact List.Subset.refl _
          | true =>
              simp only [place_good hsend]
              exact List.subset_append_left _ _

theorem step_passed {s s' : State} {a : Action} {b : Blk} (h : Passed s b)
    (hstep : step s a = some s') : Passed s' b ∨ b ∈ s'.lost := by
  cases step_did hstep with
  | arrive len => exact .inl h
  | release cs howned =>
      have hne : s.txtail ≠ s.dev := by
        intro heq
        have hsent := h.2.1
        rw [heq, howned] at hsent
        cases hsent
      refine .inl ⟨h.1, ?_, h.2.2⟩
      show (Function.update s.tx s.dev _ s.txtail).owned = false
      rw [Function.update_of_ne hne]
      exact h.2.1
  | call hpc => exact .inl ⟨h.1, h.2.1, nofun⟩
  | test hpc => exact .inl (reclaimTest_passed h.1 h.2.1)
  | free hpc => exact absurd hpc h.2.2
  | look hpc => exact .inl (queueTest_passed h)
  | fill hpc => exact queueFill_passed h

/-- A packet that the loop leaves though it was sent is never freed: it stays in its
slot until it is overwritten. -/
theorem left_stays {s s' : State} {b : Blk} (hb : s.txb s.txtail = some b)
    (hsent : (s.tx s.txtail).owned = false)
    (hreach : Reach step Free (· = reclaimTest s) s') :
    Passed s' b ∨ b ∈ s'.lost := by
  apply hreach.invariant (P := fun t => Passed t b ∨ b ∈ t.lost)
  · intro t ht
    rw [ht]
    exact .inl (reclaimTest_passed hb hsent)
  · intro t a t' h _ hstep
    cases h with
    | inl h => exact step_passed h hstep
    | inr h => exact .inr (step_lost hstep h)

end Kirkwood.Ports.EtherTransmit
