import Kirkwood.Verified.WriteBack
import Kirkwood.Ports.EtherReceive
import Kirkwood.Ports.EtherTransmit

/-!
# The descriptors of the ethernet driver and the cache

The descriptors of the two rings of `etherkirkwood.c` are in cached memory, two to a
line.  `ctlrinit` links them, `rxreplenish` and `transmit` fill them and write their
lines back, and `receive` and `transmit` invalidate a line before they look at what
the device has made of it.

Each statement that loads, stores, writes back or invalidates is a step, and the
cache may write a line back and drop it between any two.  The words of the rings are
all that is in the cache here; the bytes of packets are in other lines.

## Main results

* `covers_descr`: the loops of `l.s` over a descriptor do its line;
* `step_inv`: one step keeps the stores accounted for when it invalidates no line
  that has not been written back since `ctlrinit`;
* `run_survives_iff`: the runs that lose no store are those, and in them the device
  reads the links that `ctlrinit` wrote, when it reads no descriptor too early.

`ctlrinit` does not write the lines back.  In the receive ring `rxreplenish` does it
for the descriptors that it finds blocks for.
-/

namespace Kirkwood.Ports.EtherCache

open Kirkwood.Verified.Trans
open Kirkwood.Verified.WriteBack
open Kirkwood.Ports.EtherReceive (Nrx Rxblocklen Bufsize RCSmacerr RCSlast RCSfirst
  RCSenableintr RCSdmaown)
open Kirkwood.Ports.EtherTransmit (Ntx TCSpadding TCSlast TCSfirst TCSenableintr TCSdmaown)

/-! ## Descriptors in memory -/

abbrev Word := BitVec 32

def Descralign : Nat := 16
def CACHELINESIZE : Nat := 32

inductive Ring where
  | rx
  | tx
  deriving DecidableEq, Repr

/-- The words of an `Rx` or a `Tx`; `count` is `countsize` or `countchk`. -/
inductive Field where
  | cs
  | count
  | buf
  | next
  deriving DecidableEq, Repr

def Field.offset : Field → Nat
  | cs => 0
  | count => 4
  | buf => 8
  | next => 12

/-- A word of the rings. -/
structure Addr where
  ring : Ring
  i : Nat
  field : Field
  deriving DecidableEq, Repr

/-- Where `xspanalloc` has put the rings, as multiples of `Descralign`, and the
bounds of a packet. -/
structure Ether where
  base : Ring → Nat
  minmtu : Nat
  maxmtu : Nat

/-- `sizeof (Rx)`, `sizeof (Tx)` -/
def descrsize : Nat := 16

/-- `Nrx`, `Ntx` -/
def Ring.size : Ring → Nat
  | rx => Nrx
  | tx => Ntx

/-- `NEXT(x, Nrx)`, `NEXT(x, Ntx)` -/
def Ring.NEXT (r : Ring) (x : Nat) : Nat := (x + 1) % r.size

section
variable (e : Ether)

/-- `&ctlr->rx[i]`, `&ctlr->tx[i]` -/
def descr (r : Ring) (i : Nat) : Nat := Descralign * e.base r + descrsize * i

/-- The cache line of a word. -/
def line (a : Addr) : Nat := (descr e a.ring a.i + a.field.offset) / CACHELINESIZE

/-- The cache line of a descriptor. -/
def descrline (r : Ring) (i : Nat) : Nat := descr e r i / CACHELINESIZE

/-- What `ctlrinit` stores in `next`. -/
def link (r : Ring) (i : Nat) : Word := BitVec.ofNat 32 (descr e r (r.NEXT i))

end

/-! ## The cache operations of `l.s` -/

/-- The lines that a loop over the `n` bytes at `a` does: from the one of `a`, which
is always done, up to the end. -/
def covers (a n : Nat) : List Nat :=
  List.range' (a / CACHELINESIZE)
    (max 1 ((a % CACHELINESIZE + n + (CACHELINESIZE - 1)) / CACHELINESIZE))

abbrev Words := Cache Addr Word

section
variable (e : Ether)

def dcinv (c : Words) (a n : Nat) : Words :=
  (covers a n).foldl (fun c l => c.discard l) c

def dcwb (c : Words) (a n : Nat) : Words :=
  (covers a n).foldl (fun c l => c.clean (line e) l) c

def dcwbinv (c : Words) (a n : Nat) : Words :=
  (covers a n).foldl (fun c l => c.flush (line e) l) c

end

/-! ## The code -/

/-- `Block`: `BLEN` and `rp`. -/
structure Block where
  len : Nat
  rp : Word
  deriving DecidableEq, Repr

/-- `ctlrinit`: the test and the store of `cs`, and the store of `next`, for
descriptor `i` of each ring. -/
inductive InitPc where
  | rxcs (i : Nat)
  | rxnext (i : Nat)
  | txcs (i : Nat)
  | txnext (i : Nat)
  deriving DecidableEq, Repr

/-- `rxreplenish`: the test of the loop, the three stores and `dcwb`. -/
inductive FillPc where
  | test
  | count
  | buf
  | cs
  | wb
  deriving DecidableEq, Repr

/-- `receive`: `dcinv`, the three tests of `cs`, and the load of `countsize`; the last
ones for descriptor `i`. -/
inductive ReceivePc where
  | inv
  | own
  | mac (i : Nat)
  | first (i : Nat)
  | count (i : Nat)
  deriving DecidableEq, Repr

/-- `transmit`: the test of the first loop, its `dcinv` and the test of `cs`; the same
of the second, its three stores and `dcwbinv`. -/
inductive TransmitPc where
  | reap
  | reapinv
  | reapown
  | send
  | sendinv
  | sendown
  | count
  | buf
  | cs
  | wb
  deriving DecidableEq, Repr

/-- The next statement; `rxreplenish` is called by `ctlrinit` or by `receive`. -/
inductive Pc where
  | ctlrinit (p : InitPc)
  | rxreplenish (init : Bool) (p : FillPc)
  | receive (p : ReceivePc)
  | transmit (p : TransmitPc)
  | idle
  | stopped
  deriving DecidableEq, Repr

/-- The controller, the words of its rings, `freeblocks`, `e->oq`; and the
descriptors that the driver has given to the device. -/
structure State where
  words : Words
  rxb : Nat → Option Word
  txb : Nat → Option Block
  rxhead : Nat
  rxtail : Nat
  txhead : Nat
  txtail : Nat
  nofirstlast : Nat
  txringfull : Nat
  free : List Word
  oq : List Block
  pc : Pc
  given : Ring → Nat → Bool

/-- What may happen: the next statement of the driver; a call of `receive` or
`transmit`; the cache writes a line back and drops it; the device writes `cs` and
the count of a descriptor, or reads a descriptor; others free and allocate blocks,
and write packets. -/
inductive Action where
  | turn
  | receive
  | transmit
  | evict (l : Nat)
  | device (r : Ring) (i : Nat) (cs count : Word)
  | fetch (r : Ring) (i : Nat)
  | blocks (free : List Word)
  | packets (oq : List Block)

section
variable (e : Ether)

def load (s : State) (r : Ring) (i : Nat) (f : Field) : Word × State :=
  match s.words.load (line e) ⟨r, i, f⟩ with
  | (v, words) => (v, { s with words := words })

def store (s : State) (r : Ring) (i : Nat) (f : Field) (v : Word) : State :=
  { s with words := s.words.store (line e) ⟨r, i, f⟩ v }

/-- A store of `ctlrinit`, which marks the line as not written back. -/
def initstore (s : State) (r : Ring) (i : Nat) (f : Field) (v : Word) : State :=
  { s with
    words := (s.words.store (line e) ⟨r, i, f⟩ v).mark (line e ⟨r, i, f⟩) }

/-- After `dcwb` or `dcwbinv`, the descriptor is the device's. -/
def give (s : State) (r : Ring) (i : Nat) : State :=
  { s with given := Function.update s.given r (Function.update (s.given r) i true) }

def ctlrinitturn (s : State) : InitPc → State
  | .rxcs i =>
      if i < Nrx then { initstore e s .rx i .cs 0 with pc := .ctlrinit (.rxnext i) }
      else { s with rxtail := 0, rxhead := 0, pc := .rxreplenish true .test }
  | .rxnext i =>
      { initstore e s .rx i .next (link e .rx i) with
        rxb := Function.update s.rxb i none
        pc := .ctlrinit (.rxcs (i + 1)) }
  | .txcs i =>
      if i < Ntx then { initstore e s .tx i .cs 0 with pc := .ctlrinit (.txnext i) }
      else { s with txtail := 0, txhead := 0, pc := .idle }
  | .txnext i =>
      { initstore e s .tx i .next (link e .tx i) with
        txb := Function.update s.txb i none
        pc := .ctlrinit (.txcs (i + 1)) }

/-- Where `rxreplenish` returns to. -/
def fillend (init : Bool) : Pc := if init then .ctlrinit (.txcs 0) else .idle

def rxreplenishturn (s : State) (init : Bool) : FillPc → State
  | .test =>
      match s.rxb s.rxtail, s.free with
      | none, b :: free =>
          { s with
            free := free
            rxb := Function.update s.rxb s.rxtail (some b)
            pc := .rxreplenish init .count }
      | _, _ => { s with pc := fillend init }
  | .count =>
      { store e s .rx s.rxtail .count (Bufsize Rxblocklen) with
        pc := .rxreplenish init .buf }
  | .buf =>
      { store e s .rx s.rxtail .buf ((s.rxb s.rxtail).getD 0) with
        pc := .rxreplenish init .cs }
  | .cs =>
      { store e s .rx s.rxtail .cs (RCSdmaown ||| RCSenableintr) with
        pc := .rxreplenish init .wb }
  | .wb =>
      { give s .rx s.rxtail with
        words := dcwb e s.words (descr e .rx s.rxtail) descrsize
        rxtail := Ring.rx.NEXT s.rxtail
        pc := .rxreplenish init .test }

/-- The block is freed, or passed to `etheriq`. -/
def receiveturn (s : State) : ReceivePc → State
  | .inv =>
      { s with
        words := dcinv s.words (descr e .rx s.rxhead) descrsize
        pc := .receive .own }
  | .own =>
      match load e s .rx s.rxhead .cs with
      | (cs, s) =>
          if cs &&& RCSdmaown ≠ 0 then { s with pc := .rxreplenish false .test }
          else
            { s with
              rxb := Function.update s.rxb s.rxhead none
              rxhead := Ring.rx.NEXT s.rxhead
              pc := .receive (.mac s.rxhead) }
  | .mac i =>
      match load e s .rx i .cs with
      | (cs, s) =>
          if cs &&& RCSmacerr ≠ 0 then { s with pc := .receive .inv }
          else { s with pc := .receive (.first i) }
  | .first i =>
      match load e s .rx i .cs with
      | (cs, s) =>
          if cs &&& (RCSfirst ||| RCSlast) ≠ RCSfirst ||| RCSlast then
            { s with nofirstlast := s.nofirstlast + 1, pc := .receive .inv }
          else { s with pc := .receive (.count i) }
  | .count i =>
      match load e s .rx i .count with
      | (_, s) => { s with pc := .receive .inv }

def transmitturn (s : State) : TransmitPc → State
  | .reap =>
      if s.txtail ≠ s.txhead then { s with pc := .transmit .reapinv }
      else { s with pc := .transmit .send }
  | .reapinv =>
      { s with
        words := dcinv s.words (descr e .tx s.txtail) descrsize
        pc := .transmit .reapown }
  | .reapown =>
      match load e s .tx s.txtail .cs with
      | (cs, s) =>
          if cs &&& TCSdmaown = 0 then { s with pc := .transmit .send }
          else
            match s.txb s.txtail with
            | none => { s with pc := .stopped }
            | some _ =>
                { s with
                  txb := Function.update s.txb s.txtail none
                  txtail := Ring.tx.NEXT s.txtail
                  pc := .transmit .reap }
  | .send =>
      if s.oq = [] then { s with pc := .idle } else { s with pc := .transmit .sendinv }
  | .sendinv =>
      { s with
        words := dcinv s.words (descr e .tx s.txhead) descrsize
        pc := .transmit .sendown }
  | .sendown =>
      match load e s .tx s.txhead .cs with
      | (cs, s) =>
          if cs &&& TCSdmaown ≠ 0 then
            { s with txringfull := s.txringfull + 1, pc := .idle }
          else
            match s.oq with
            | [] => { s with pc := .stopped }
            | b :: oq =>
                if b.len < e.minmtu ∨ b.len > e.maxmtu then
                  { s with oq := oq, pc := .transmit .send }
                else
                  { s with
                    oq := oq
                    txb := Function.update s.txb s.txhead (some b)
                    pc := .transmit .count }
  | .count =>
      { store e s .tx s.txhead .count
          (BitVec.ofNat 32 (((s.txb s.txhead).map Block.len).getD 0) <<< 16) with
        pc := .transmit .buf }
  | .buf =>
      { store e s .tx s.txhead .buf (((s.txb s.txhead).map Block.rp).getD 0) with
        pc := .transmit .cs }
  | .cs =>
      { store e s .tx s.txhead .cs
          (TCSpadding ||| TCSfirst ||| TCSlast ||| TCSenableintr ||| TCSdmaown) with
        pc := .transmit .wb }
  | .wb =>
      { give s .tx s.txhead with
        words := dcwbinv e s.words (descr e .tx s.txhead) descrsize
        txhead := Ring.tx.NEXT s.txhead
        pc := .transmit .send }

/-- The next statement of the driver, when it is called. -/
def turn (s : State) : Option State :=
  match s.pc with
  | .ctlrinit p => some (ctlrinitturn e s p)
  | .rxreplenish init p => some (rxreplenishturn e s init p)
  | .receive p => some (receiveturn e s p)
  | .transmit p => some (transmitturn e s p)
  | .idle => none
  | .stopped => none

/-- Whether `ctlrinit` has started the device. -/
def Pc.started : Pc → Bool
  | .ctlrinit _ => false
  | .rxreplenish init _ => !init
  | _ => true

def step (s : State) : Action → Option State
  | .turn => turn e s
  | .receive => if s.pc = .idle then some { s with pc := .receive .inv } else none
  | .transmit => if s.pc = .idle then some { s with pc := .transmit .reap } else none
  | .evict l => some { s with words := s.words.flush (line e) l }
  | .device r i cs count =>
      some { s with words := (s.words.device ⟨r, i, .cs⟩ cs).device ⟨r, i, .count⟩ count }
  | .fetch r i => if s.pc.started = true ∧ i < r.size then some s else none
  | .blocks free => some { s with free := free }
  | .packets oq => some { s with oq := oq }

end

/-- `ctlrinit` is called; no line has been written back since. -/
def ctlrinit (s : State) : State :=
  { s with
    words := { s.words with written := fun _ => false }
    pc := .ctlrinit (.rxcs 0)
    given := fun _ _ => false }

/-! ## Lines and descriptors -/

/-- The word lies in its descriptor's line. -/
theorem line_eq (e : Ether) (r : Ring) (i : Nat) (f : Field) :
    line e ⟨r, i, f⟩ = descrline e r i := by
  have hoff : f.offset < 16 := by cases f <;> decide
  show (Descralign * e.base r + descrsize * i + f.offset) / CACHELINESIZE =
    (Descralign * e.base r + descrsize * i) / CACHELINESIZE
  unfold Descralign descrsize CACHELINESIZE
  omega

theorem covers_descr (e : Ether) (r : Ring) (i : Nat) :
    covers (descr e r i) descrsize = [descrline e r i] := by
  have hone : max 1 ((descr e r i % CACHELINESIZE + descrsize + (CACHELINESIZE - 1)) /
      CACHELINESIZE) = 1 := by
    unfold descr Descralign descrsize CACHELINESIZE
    omega
  rw [covers, hone, descrline]
  rfl

theorem dcinv_descr (e : Ether) (c : Words) (r : Ring) (i : Nat) :
    dcinv c (descr e r i) descrsize = c.discard (descrline e r i) := by
  rw [dcinv, covers_descr]
  rfl

theorem dcwb_descr (e : Ether) (c : Words) (r : Ring) (i : Nat) :
    dcwb e c (descr e r i) descrsize = c.clean (line e) (descrline e r i) := by
  rw [dcwb, covers_descr]
  rfl

theorem dcwbinv_descr (e : Ether) (c : Words) (r : Ring) (i : Nat) :
    dcwbinv e c (descr e r i) descrsize = c.flush (line e) (descrline e r i) := by
  rw [dcwbinv, covers_descr]
  rfl

/-! ## The invariant of the cache -/

/-- The links stored so far are tracked; only the line that is being stored to may be
dirty and written back before; and the device has the links of what it was given. -/
structure Sound (e : Ether) (c : Words) (done : Ring → Nat) (given : Ring → Nat → Bool)
    (storing : Option Nat) : Prop where
  tracked : ∀ r i, i < done r → Tracked (line e) c ⟨r, i, .next⟩ (link e r i)
  dirty : ∀ l, c.dirty l = true → c.written l = false ∨ storing = some l
  given : ∀ r i, given r i = true → i < done r ∧ c.mem ⟨r, i, .next⟩ = link e r i

section
variable {e : Ether} {c : Words} {done : Ring → Nat} {given : Ring → Nat → Bool}
variable {storing : Option Nat} {r : Ring} {i l : Nat} {f : Field} {v : Word}

private theorem next_ne (r' : Ring) (i' : Nat) (hf : f ≠ .next) :
    (⟨r', i', .next⟩ : Addr) ≠ ⟨r, i, f⟩ := by
  intro h
  cases h
  exact hf rfl

theorem Sound.load (h : Sound e c done given storing) (a : Addr) :
    Sound e (c.load (line e) a).2 done given storing where
  tracked r i hi := (h.tracked r i hi).load
  dirty l hl := by
    rw [Cache.load, fill_dirty] at hl
    rw [Cache.load, fill_written]
    exact h.dirty l hl
  given r i hi := by
    rw [Cache.load, fill_mem]
    exact h.given r i hi

/-- A store of `rxreplenish` or `transmit`. -/
theorem Sound.store (h : Sound e c done given storing) (hf : f ≠ .next)
    (hone : storing = none ∨ storing = some (descrline e r i)) :
    Sound e (c.store (line e) ⟨r, i, f⟩ v) done given (some (descrline e r i)) where
  tracked r' i' hi := (h.tracked r' i' hi).store (next_ne r' i' hf)
  dirty l hl := by
    rw [store_written]
    by_cases hline : l = descrline e r i
    · exact .inr (by rw [hline])
    rw [store_dirty, line_eq, Function.update_of_ne hline] at hl
    rcases h.dirty l hl with hw | hs
    · exact .inl hw
    · rcases hone with hno | hsome
      · rw [hno] at hs
        cases hs
      · exact .inr (hsome ▸ hs)
  given r i hi := by
    rw [store_mem]
    exact h.given r i hi

/-- A store of `ctlrinit`: of `cs`. -/
theorem Sound.initcs (h : Sound e c done given storing) :
    Sound e ((c.store (line e) ⟨r, i, .cs⟩ v).mark (line e ⟨r, i, .cs⟩)) done given
      storing where
  tracked r' i' hi :=
    ((h.tracked r' i' hi).store (next_ne r' i' (by decide))).mark
      (by rw [store_dirty, Function.update_self])
  dirty l hl := by
    rcases start_dirty hl with hw | ⟨hd, hw⟩
    · exact .inl hw
    · rw [hw]
      exact h.dirty l hd
  given r' i' hi := by
    show _ ∧ (c.store (line e) ⟨r, i, .cs⟩ v).mem _ = _
    rw [store_mem]
    exact h.given r' i' hi

/-- And of `next`, for the first descriptor that has none. -/
theorem Sound.initnext {done' : Ring → Nat} (h : Sound e c done given storing)
    (hi : i = done r) (hsame : ∀ r', r' ≠ r → done' r' = done r')
    (hnext : done' r = done r + 1) :
    Sound e ((c.store (line e) ⟨r, i, .next⟩ (link e r i)).mark (line e ⟨r, i, .next⟩))
      done' given storing where
  tracked r' i' hi' := by
    by_cases hat : r' = r ∧ i' = i
    · rw [hat.1, hat.2]
      exact Tracked.start
    have hlt : i' < done r' := by
      by_cases hr : r' = r
      · rw [hr] at hi' ⊢
        have hne : i' ≠ i := fun hii => hat ⟨hr, hii⟩
        omega
      · rw [← hsame r' hr]
        exact hi'
    have hne : (⟨r', i', .next⟩ : Addr) ≠ ⟨r, i, .next⟩ := by
      intro heq
      cases heq
      exact hat ⟨rfl, rfl⟩
    exact ((h.tracked r' i' hlt).store hne).mark (by rw [store_dirty, Function.update_self])
  dirty l hl := by
    rcases start_dirty hl with hw | ⟨hd, hw⟩
    · exact .inl hw
    · rw [hw]
      exact h.dirty l hd
  given r' i' hi' := by
    show _ ∧ (c.store (line e) ⟨r, i, .next⟩ (link e r i)).mem _ = _
    rw [store_mem]
    obtain ⟨hlt, hmem⟩ := h.given r' i' hi'
    refine ⟨?_, hmem⟩
    by_cases hr : r' = r
    · rw [hr] at hlt ⊢
      omega
    · rw [hsame r' hr]
      exact hlt

theorem Sound.discard (h : Sound e c done given none) (hw : c.written l = true) :
    Sound e (c.discard l) done given none where
  tracked r i hi := (h.tracked r i hi).discard hw
  dirty k hk := h.dirty k (discard_dirty hk).2
  given := h.given

theorem Sound.clean (h : Sound e c done given storing) :
    Sound e (c.clean (line e) l) done given storing where
  tracked r i hi := (h.tracked r i hi).clean
  dirty k hk := by
    obtain ⟨_, hd, hw⟩ := clean_dirty hk
    rw [hw]
    exact h.dirty k hd
  given r i hi := by
    obtain ⟨hlt, hmem⟩ := h.given r i hi
    exact ⟨hlt, (h.tracked r i hlt).clean_mem hmem⟩

theorem Sound.flush (h : Sound e c done given storing) :
    Sound e (c.flush (line e) l) done given storing where
  tracked r i hi := (h.tracked r i hi).flush
  dirty k hk := h.clean.dirty k (discard_dirty hk).2
  given := h.clean.given

/-- The line that was stored to has been written back. -/
theorem Sound.stored (h : Sound e c done given storing)
    (hone : storing = none ∨ storing = some l) (hl : c.dirty l = false) :
    Sound e c done given none where
  tracked := h.tracked
  dirty k hk := by
    rcases h.dirty k hk with hw | hs
    · exact .inl hw
    · rcases hone with hno | hsome
      · rw [hno] at hs
        cases hs
      · obtain rfl : l = k := Option.some.inj (hsome.symm.trans hs)
        rw [hl] at hk
        cases hk
  given := h.given

/-- A descriptor whose line has been written back is given to the device. -/
theorem Sound.give (h : Sound e c done given storing) (hi : i < done r)
    (hw : c.written (descrline e r i) = true) :
    Sound e c done (Function.update given r (Function.update (given r) i true))
      storing where
  tracked := h.tracked
  dirty := h.dirty
  given r' i' hgiven := by
    by_cases hat : r' = r ∧ i' = i
    · rw [hat.1, hat.2]
      exact ⟨hi, ((h.tracked r i hi).settled (by rwa [line_eq])).mem⟩
    · refine h.given r' i' ?_
      by_cases hr : r' = r
      · rw [hr, Function.update_self,
          Function.update_of_ne fun hii => hat ⟨hr, hii⟩] at hgiven
        rw [hr]
        exact hgiven
      · rwa [Function.update_of_ne hr] at hgiven

theorem Sound.device (h : Sound e c done given storing) (hf : f ≠ .next) :
    Sound e (c.device ⟨r, i, f⟩ v) done given storing where
  tracked r' i' hi := (h.tracked r' i' hi).device (next_ne r' i' hf)
  dirty := h.dirty
  given r' i' hi := by
    obtain ⟨hlt, hmem⟩ := h.given r' i' hi
    exact ⟨hlt, (Function.update_of_ne (next_ne r' i' hf) ..).trans hmem⟩

end

/-! ## The invariant of the driver -/

/-- How many descriptors of a ring `ctlrinit` has linked. -/
def Pc.done : Pc → Ring → Nat
  | .ctlrinit (.rxcs i), .rx => i
  | .ctlrinit (.rxnext i), .rx => i
  | .ctlrinit (.rxcs _), .tx => 0
  | .ctlrinit (.rxnext _), .tx => 0
  | .ctlrinit (.txcs i), .tx => i
  | .ctlrinit (.txnext i), .tx => i
  | .rxreplenish true _, .tx => 0
  | _, r => r.size

/-- Whether the indices into a ring are set. -/
def Pc.set : Pc → Ring → Bool
  | .ctlrinit (.rxcs _), _ => false
  | .ctlrinit (.rxnext _), _ => false
  | .ctlrinit _, .tx => false
  | .rxreplenish true _, .tx => false
  | _, _ => true

/-- The line that the driver has stored to and not yet written back. -/
def storing (e : Ether) (s : State) : Option Nat :=
  match s.pc with
  | .rxreplenish _ .buf => some (descrline e .rx s.rxtail)
  | .rxreplenish _ .cs => some (descrline e .rx s.rxtail)
  | .rxreplenish _ .wb => some (descrline e .rx s.rxtail)
  | .transmit .buf => some (descrline e .tx s.txhead)
  | .transmit .cs => some (descrline e .tx s.txhead)
  | .transmit .wb => some (descrline e .tx s.txhead)
  | _ => none

/-- The loops of `ctlrinit` stay within the rings. -/
def Pc.Bounded : Pc → Prop
  | .ctlrinit (.rxcs i) => i ≤ Nrx
  | .ctlrinit (.rxnext i) => i < Nrx
  | .ctlrinit (.txcs i) => i ≤ Ntx
  | .ctlrinit (.txnext i) => i < Ntx
  | _ => True

structure Inv (e : Ether) (s : State) : Prop where
  sound : Sound e s.words s.pc.done s.given (storing e s)
  bounded : s.pc.Bounded
  rx : s.pc.set .rx = true → s.rxhead < Nrx ∧ s.rxtail < Nrx
  tx : s.pc.set .tx = true → s.txhead < Ntx ∧ s.txtail < Ntx

/-- The descriptor whose line the next statement invalidates. -/
def invalidates (s : State) : Option (Ring × Nat) :=
  match s.pc with
  | .receive .inv => some (.rx, s.rxhead)
  | .transmit .reapinv => some (.tx, s.txtail)
  | .transmit .sendinv => some (.tx, s.txhead)
  | _ => none

/-- The line that this step invalidates has been written back since `ctlrinit`. -/
def Written (e : Ether) (s : State) : Action → Prop
  | .turn => ∀ r i, invalidates s = some (r, i) → s.words.written (descrline e r i) = true
  | _ => True

/-- This step does not invalidate a line with stores that are not written back. -/
def Survives (e : Ether) (s : State) : Action → Prop
  | .turn => ∀ r i, invalidates s = some (r, i) → s.words.dirty (descrline e r i) = false
  | _ => True

/-- A descriptor that the device reads was given to it, or its line has been written back
since `ctlrinit`. -/
def Ready (e : Ether) (s : State) : Action → Prop
  | .fetch r i => s.given r i = true ∨ s.words.written (descrline e r i) = true
  | _ => True

/-- A descriptor that the device reads has the link that `ctlrinit` wrote. -/
def Linked (e : Ether) (s : State) : Action → Prop
  | .fetch r i => s.words.mem ⟨r, i, .next⟩ = link e r i
  | _ => True

section
variable {e : Ether} {s s' : State}

theorem NEXT_lt (r : Ring) (x : Nat) : r.NEXT x < r.size := by
  cases r <;> exact Nat.mod_lt _ (by decide)

private theorem Nrx_pos : 0 < Nrx := by decide

private theorem Ntx_pos : 0 < Ntx := by decide

theorem init_inv (e : Ether) (s : State) : Inv e (ctlrinit s) where
  sound := ⟨fun r i hi => by cases r <;> exact absurd hi (Nat.not_lt_zero i),
    fun _ _ => .inl rfl, nofun⟩
  bounded := Nat.zero_le _
  rx := nofun
  tx := nofun

private theorem Sound.at (h : Sound e s.words s.pc.done s.given (storing e s)) {pc : Pc}
    (hpc : s.pc = pc) :
    Sound e s.words pc.done s.given (storing e { s with pc := pc }) := by
  subst hpc
  exact h

private theorem ctlrinit_inv {p : InitPc} (hpc : s.pc = .ctlrinit p) (h : Inv e s) :
    Inv e (ctlrinitturn e s p) := by
  have hs : Sound e s.words (Pc.ctlrinit p).done s.given none := h.sound.at hpc
  have hbounded := h.bounded
  have hrx := h.rx
  rw [hpc] at hbounded hrx
  cases p with
  | rxcs i =>
      unfold ctlrinitturn
      by_cases hi : i < Nrx
      · simp only [if_pos hi]
        have hdone : (Pc.ctlrinit (.rxcs i)).done = (Pc.ctlrinit (.rxnext i)).done := by
          funext r
          cases r <;> rfl
        exact ⟨hdone ▸ hs.initcs, hi, nofun, nofun⟩
      · simp only [if_neg hi]
        have hdone : (Pc.ctlrinit (.rxcs i)).done = (Pc.rxreplenish true .test).done := by
          funext r
          obtain rfl : i = Nrx := Nat.le_antisymm hbounded (Nat.le_of_not_lt hi)
          cases r <;> rfl
        exact ⟨hdone ▸ hs, trivial, fun _ => ⟨Nrx_pos, Nrx_pos⟩, nofun⟩
  | rxnext i =>
      refine ⟨hs.initnext rfl (fun r hr => ?_) rfl, hbounded, nofun, nofun⟩
      cases r with
      | rx => exact absurd rfl hr
      | tx => rfl
  | txcs i =>
      unfold ctlrinitturn
      by_cases hi : i < Ntx
      · simp only [if_pos hi]
        have hdone : (Pc.ctlrinit (.txcs i)).done = (Pc.ctlrinit (.txnext i)).done := by
          funext r
          cases r <;> rfl
        exact ⟨hdone ▸ hs.initcs, hi, hrx, nofun⟩
      · simp only [if_neg hi]
        have hdone : (Pc.ctlrinit (.txcs i)).done = Pc.idle.done := by
          funext r
          obtain rfl : i = Ntx := Nat.le_antisymm hbounded (Nat.le_of_not_lt hi)
          cases r <;> rfl
        exact ⟨hdone ▸ hs, trivial, hrx, fun _ => ⟨Ntx_pos, Ntx_pos⟩⟩
  | txnext i =>
      refine ⟨hs.initnext rfl (fun r hr => ?_) rfl, hbounded, hrx, nofun⟩
      cases r with
      | rx => rfl
      | tx => exact absurd rfl hr

private theorem rxreplenish_inv {init : Bool} {p : FillPc}
    (hpc : s.pc = .rxreplenish init p) (h : Inv e s) :
    Inv e (rxreplenishturn e s init p) := by
  have hs := h.sound.at hpc
  have hrx : s.rxhead < Nrx ∧ s.rxtail < Nrx := h.rx (by rw [hpc]; cases init <;> rfl)
  have htx := h.tx
  rw [hpc] at htx
  have hdone : ∀ q, (Pc.rxreplenish init p).done = (Pc.rxreplenish init q).done := by
    intro q
    funext r
    cases init <;> cases r <;> rfl
  have hset : ∀ q, (Pc.rxreplenish init q).set .tx = true →
      s.txhead < Ntx ∧ s.txtail < Ntx := by
    intro q hq
    cases init with
    | true => cases hq
    | false => exact htx rfl
  cases p with
  | test =>
      have hend : Inv e { s with pc := fillend init } := by
        cases init with
        | true =>
            have hinit :
                (Pc.rxreplenish true .test).done = (Pc.ctlrinit (.txcs 0)).done := by
              funext r
              cases r <;> rfl
            exact ⟨hinit ▸ hs, Nat.zero_le _, fun _ => hrx, nofun⟩
        | false =>
            have hidle : (Pc.rxreplenish false .test).done = Pc.idle.done := by
              funext r
              cases r <;> rfl
            exact ⟨hidle ▸ hs, trivial, fun _ => hrx, fun _ => hset .test rfl⟩
      unfold rxreplenishturn
      dsimp only
      split
      · exact ⟨hdone .count ▸ hs, trivial, fun _ => hrx, hset .count⟩
      · exact hend
  | count =>
      refine ⟨?_, trivial, fun _ => hrx, hset .buf⟩
      exact hdone .buf ▸ hs.store (by decide) (.inl rfl)
  | buf =>
      refine ⟨?_, trivial, fun _ => hrx, hset .cs⟩
      exact hdone .cs ▸ hs.store (by decide) (.inr rfl)
  | cs =>
      refine ⟨?_, trivial, fun _ => hrx, hset .wb⟩
      exact hdone .wb ▸ hs.store (by decide) (.inr rfl)
  | wb =>
      refine ⟨?_, trivial, fun _ => ⟨hrx.1, NEXT_lt .rx _⟩, hset .test⟩
      have htail : s.rxtail < (Pc.rxreplenish init .wb).done .rx := by
        cases init <;> exact hrx.2
      have hwb := (hs.clean.give htail clean_written).stored (.inr rfl)
        (Function.update_self ..)
      rw [← dcwb_descr] at hwb
      exact hdone .test ▸ hwb

private theorem receive_inv {p : ReceivePc} (hpc : s.pc = .receive p) (h : Inv e s)
    (hw : Written e s .turn) : Inv e (receiveturn e s p) := by
  have hs : Sound e s.words Ring.size s.given none := by
    have hat := h.sound.at hpc
    cases p <;> exact hat
  have hrx : s.rxhead < Nrx ∧ s.rxtail < Nrx := h.rx (by rw [hpc]; rfl)
  have htx : s.txhead < Ntx ∧ s.txtail < Ntx := h.tx (by rw [hpc]; rfl)
  have hnext : Ring.rx.NEXT s.rxhead < Nrx := NEXT_lt .rx _
  cases p with
  | inv =>
      refine ⟨?_, trivial, fun _ => hrx, fun _ => htx⟩
      have hwritten := hw .rx s.rxhead (by rw [invalidates, hpc])
      have hdiscard := hs.discard hwritten
      rw [← dcinv_descr] at hdiscard
      exact hdiscard
  | own =>
      unfold receiveturn load
      dsimp only
      split
      · exact ⟨hs.load _, trivial, fun _ => hrx, fun _ => htx⟩
      · exact ⟨hs.load _, trivial, fun _ => ⟨hnext, hrx.2⟩, fun _ => htx⟩
  | mac i | first i =>
      unfold receiveturn load
      dsimp only
      split
      · exact ⟨hs.load _, trivial, fun _ => hrx, fun _ => htx⟩
      · exact ⟨hs.load _, trivial, fun _ => hrx, fun _ => htx⟩
  | count i => exact ⟨hs.load _, trivial, fun _ => hrx, fun _ => htx⟩

private theorem transmit_inv {p : TransmitPc} (hpc : s.pc = .transmit p) (h : Inv e s)
    (hw : Written e s .turn) : Inv e (transmitturn e s p) := by
  have hs := h.sound.at hpc
  have hrx : s.rxhead < Nrx ∧ s.rxtail < Nrx := h.rx (by rw [hpc]; rfl)
  have htx : s.txhead < Ntx ∧ s.txtail < Ntx := h.tx (by rw [hpc]; rfl)
  have hnext : ∀ x, Ring.tx.NEXT x < Ntx := NEXT_lt .tx
  cases p with
  | reap =>
      unfold transmitturn
      dsimp only
      split
      · exact ⟨hs, trivial, fun _ => hrx, fun _ => htx⟩
      · exact ⟨hs, trivial, fun _ => hrx, fun _ => htx⟩
  | reapinv =>
      refine ⟨?_, trivial, fun _ => hrx, fun _ => htx⟩
      have hdiscard := Sound.discard hs (hw .tx s.txtail (by rw [invalidates, hpc]))
      rw [← dcinv_descr] at hdiscard
      exact hdiscard
  | reapown =>
      unfold transmitturn load
      dsimp only
      split
      · exact ⟨hs.load _, trivial, fun _ => hrx, fun _ => htx⟩
      · split
        · exact ⟨hs.load _, trivial, fun _ => hrx, fun _ => htx⟩
        · exact ⟨hs.load _, trivial, fun _ => hrx, fun _ => ⟨htx.1, hnext _⟩⟩
  | send =>
      unfold transmitturn
      dsimp only
      split
      · exact ⟨hs, trivial, fun _ => hrx, fun _ => htx⟩
      · exact ⟨hs, trivial, fun _ => hrx, fun _ => htx⟩
  | sendinv =>
      refine ⟨?_, trivial, fun _ => hrx, fun _ => htx⟩
      have hdiscard := Sound.discard hs (hw .tx s.txhead (by rw [invalidates, hpc]))
      rw [← dcinv_descr] at hdiscard
      exact hdiscard
  | sendown =>
      unfold transmitturn load
      dsimp only
      split
      · exact ⟨hs.load _, trivial, fun _ => hrx, fun _ => htx⟩
      · split
        · exact ⟨hs.load _, trivial, fun _ => hrx, fun _ => htx⟩
        · split
          · exact ⟨hs.load _, trivial, fun _ => hrx, fun _ => htx⟩
          · exact ⟨hs.load _, trivial, fun _ => hrx, fun _ => htx⟩
  | count =>
      exact ⟨hs.store (by decide) (.inl rfl), trivial, fun _ => hrx, fun _ => htx⟩
  | buf =>
      exact ⟨hs.store (by decide) (.inr rfl), trivial, fun _ => hrx, fun _ => htx⟩
  | cs =>
      exact ⟨hs.store (by decide) (.inr rfl), trivial, fun _ => hrx, fun _ => htx⟩
  | wb =>
      refine ⟨?_, trivial, fun _ => hrx, fun _ => ⟨hnext _, htx.2⟩⟩
      have hhead : s.txhead < (Pc.transmit .wb).done .tx := htx.1
      have hwritten : (s.words.flush (line e) (descrline e .tx s.txhead)).written
          (descrline e .tx s.txhead) = true := Function.update_self ..
      have hwb := (hs.flush.give hhead hwritten).stored (.inr rfl) (Function.update_self ..)
      rw [← dcwbinv_descr] at hwb
      exact hwb

/-- A step that invalidates no line before it has been written back keeps the stores
accounted for. -/
theorem step_inv {a : Action} (h : Inv e s) (hw : Written e s a)
    (hstep : step e s a = some s') : Inv e s' := by
  cases a with
  | turn =>
      unfold step turn at hstep
      dsimp only at hstep
      split at hstep
      · next hpc => exact Option.some.inj hstep ▸ ctlrinit_inv hpc h
      · next hpc => exact Option.some.inj hstep ▸ rxreplenish_inv hpc h
      · next hpc => exact Option.some.inj hstep ▸ receive_inv hpc h hw
      · next hpc => exact Option.some.inj hstep ▸ transmit_inv hpc h hw
      · cases hstep
      · cases hstep
  | receive | transmit =>
      obtain ⟨hidle, rfl⟩ := Option.ite_some_none_eq_some.1 hstep
      have hs : Sound e s.words Pc.idle.done s.given none := h.sound.at hidle
      exact ⟨hs, trivial, fun _ => h.rx (by rw [hidle]; rfl),
        fun _ => h.tx (by rw [hidle]; rfl)⟩
  | evict l =>
      cases hstep
      exact ⟨h.sound.flush, h.bounded, h.rx, h.tx⟩
  | device r i cs count =>
      cases hstep
      exact ⟨(h.sound.device (by decide)).device (by decide), h.bounded, h.rx, h.tx⟩
  | fetch r i =>
      obtain ⟨_, rfl⟩ := Option.ite_some_none_eq_some.1 hstep
      exact h
  | blocks free =>
      cases hstep
      exact ⟨h.sound, h.bounded, h.rx, h.tx⟩
  | packets oq =>
      cases hstep
      exact ⟨h.sound, h.bounded, h.rx, h.tx⟩

/-- A line that is about to be invalidated: no statement is in the middle of a
descriptor, and all are linked. -/
private theorem invalidates_spec {r : Ring} {i : Nat} (h : Inv e s)
    (hinv : invalidates s = some (r, i)) :
    Sound e s.words Ring.size s.given none ∧ i < r.size := by
  have hs := h.sound
  have hrx := h.rx
  have htx := h.tx
  unfold invalidates at hinv
  split at hinv
  · next hpc =>
      cases hinv
      rw [hpc] at hrx
      have hat : Sound e s.words (Pc.receive .inv).done s.given none := hs.at hpc
      exact ⟨hat, (hrx rfl).1⟩
  · next hpc =>
      cases hinv
      rw [hpc] at htx
      have hat : Sound e s.words (Pc.transmit .reapinv).done s.given none := hs.at hpc
      exact ⟨hat, (htx rfl).2⟩
  · next hpc =>
      cases hinv
      rw [hpc] at htx
      have hat : Sound e s.words (Pc.transmit .sendinv).done s.given none := hs.at hpc
      exact ⟨hat, (htx rfl).1⟩
  · cases hinv

/-- The lines that may be invalidated without loss are those written back. -/
theorem survives_iff (h : Inv e s) (a : Action) : Survives e s a ↔ Written e s a := by
  have hboth : ∀ r i, invalidates s = some (r, i) →
      (s.words.dirty (descrline e r i) = false ↔
        s.words.written (descrline e r i) = true) := by
    intro r i hinv
    obtain ⟨hs, hi⟩ := invalidates_spec h hinv
    have htracked := hs.tracked r i hi
    constructor
    · intro hclean
      cases hw : s.words.written (descrline e r i) with
      | true => rfl
      | false =>
          have hdirty := htracked.dirty (by rwa [line_eq])
          rw [line_eq, hclean] at hdirty
          cases hdirty
    · intro hw
      cases hdirty : s.words.dirty (descrline e r i) with
      | false => rfl
      | true =>
          rcases hs.dirty _ hdirty with hno | hno
          · rw [hw] at hno
            cases hno
          · cases hno
  cases a with
  | turn =>
      exact ⟨fun h r i hinv => (hboth r i hinv).1 (h r i hinv),
        fun h r i hinv => (hboth r i hinv).2 (h r i hinv)⟩
  | _ => exact Iff.rfl

theorem linked {a : Action} (h : Inv e s) (hready : Ready e s a)
    (hstep : step e s a = some s') : Linked e s a := by
  cases a with
  | fetch r i =>
      obtain ⟨⟨hstarted, hi⟩, _⟩ := Option.ite_some_none_eq_some.1 hstep
      have hdone : s.pc.done r = r.size := by
        revert hstarted
        cases s.pc with
        | ctlrinit p => nofun
        | rxreplenish init p =>
            cases init with
            | true => nofun
            | false => cases r <;> exact fun _ => rfl
        | _ => cases r <;> exact fun _ => rfl
      rcases hready with hgiven | hw
      · exact (h.sound.given r i hgiven).2
      · exact ((h.sound.tracked r i (hdone ▸ hi)).settled (by rwa [line_eq])).mem
  | _ => trivial

end

private theorem survives_runs (e : Ether) (s : State) (as : List Action) :
    AllSteps (step e) (Survives e) (ctlrinit s) as ↔
      AllSteps (step e) (Written e) (ctlrinit s) as :=
  allSteps_iff_allSteps (fun _ _ _ h hw hs => step_inv h hw hs)
    (fun _ a _ h _ => survives_iff h a) as (init_inv e s)

/-- A run of `ctlrinit`, `receive` and `transmit` loses no store exactly when each line
that it invalidates has been written back since `ctlrinit`.  When that is so and the device
reads no descriptor before it has been given to it or written back, each descriptor that it
reads has the link that `ctlrinit` wrote. -/
theorem run_survives_iff (e : Ether) (s : State) (as : List Action) :
    (AllSteps (step e) (Survives e) (ctlrinit s) as ↔
      AllSteps (step e) (Written e) (ctlrinit s) as) ∧
    (AllSteps (step e) (fun s a => Written e s a ∧ Ready e s a) (ctlrinit s) as →
      AllSteps (step e) (Linked e) (ctlrinit s) as) := by
  constructor
  · exact survives_runs e s as
  · exact AllSteps.imp (fun _ _ _ h hw hs => step_inv h hw.1 hs)
      (fun _ _ _ h hw hs => linked h hw.2 hs) as (init_inv e s)

/-! ## The first packet -/

/-- No line has been written back, the memory has what it had before, and there is
no block for the receive ring. -/
structure Untouched (s : State) : Prop where
  written : ∀ l, s.words.written l = false
  mem : ∀ a, s.words.mem a = 0
  free : s.free = []

section
variable {e : Ether} {s : State}

private theorem initstore_untouched (h : Untouched s) (r : Ring) (i : Nat) (f : Field)
    (v : Word) : Untouched (initstore e s r i f v) where
  written l := by
    show Function.update (s.words.store (line e) _ v).written _ false l = false
    rw [store_written]
    by_cases hl : l = line e ⟨r, i, f⟩
    · rw [hl, Function.update_self]
    · rw [Function.update_of_ne hl]
      exact h.written l
  mem a := by
    show (s.words.store (line e) _ v).mem a = 0
    rw [store_mem]
    exact h.mem a
  free := h.free

private theorem Untouched.of_eq {s' : State} (h : Untouched s) (hwords : s'.words = s.words)
    (hfree : s'.free = s.free) : Untouched s' :=
  ⟨fun l => hwords ▸ h.written l, fun a => hwords ▸ h.mem a, hfree.trans h.free⟩

/-- One turn of a loop of `ctlrinit`: it stores two fields of a descriptor. -/
private theorem twostores_untouched {s1 s2 : State} {r : Ring} {i : Nat} (h : Untouched s)
    (hcs : step e s .turn = some s1) (hnext : step e s1 .turn = some s2)
    (hwords1 : s1.words = (initstore e s r i .cs 0).words) (hfree1 : s1.free = s.free)
    (hwords2 : s2.words = (initstore e s1 r i .next (link e r i)).words)
    (hfree2 : s2.free = s1.free) :
    (∀ as, run (step e) s (.turn :: .turn :: as) = run (step e) s2 as) ∧
      Untouched s2 := by
  have h1 : Untouched s1 := (initstore_untouched h r i .cs 0).of_eq hwords1 hfree1
  exact ⟨fun _ => by rw [run_cons _ hcs, run_cons _ hnext],
    (initstore_untouched h1 r i .next (link e r i)).of_eq hwords2 hfree2⟩

/-- The loop of `ctlrinit` over the receive ring, from descriptor `i` on. -/
private theorem rx_untouched (n : Nat) {i : Nat} (hn : i + n = Nrx) {s : State}
    (hpc : s.pc = .ctlrinit (.rxcs i)) (h : Untouched s) :
    ∃ as s', run (step e) s as = some s' ∧ s'.pc = .rxreplenish true .test ∧
      Untouched s' := by
  induction n generalizing i s with
  | zero =>
      have hi : ¬ i < Nrx := by omega
      have hstep : step e s .turn =
          some { s with rxtail := 0, rxhead := 0, pc := .rxreplenish true .test } := by
        simp only [step, turn, hpc, ctlrinitturn, if_neg hi]
      exact ⟨[.turn], _, run_cons [] hstep, rfl, ⟨h.written, h.mem, h.free⟩⟩
  | succ n ih =>
      have hi : i < Nrx := by omega
      have hcs : step e s .turn =
          some { initstore e s .rx i .cs 0 with pc := .ctlrinit (.rxnext i) } := by
        simp only [step, turn, hpc, ctlrinitturn, if_pos hi]
      have hnext : step e { initstore e s .rx i .cs 0 with pc := .ctlrinit (.rxnext i) }
          .turn = some (ctlrinitturn e _ (.rxnext i)) := rfl
      obtain ⟨hturns, h2⟩ := twostores_untouched h hcs hnext rfl rfl rfl rfl
      obtain ⟨as, s', hrun, hend⟩ := ih (i := i + 1) (by omega) rfl h2
      exact ⟨.turn :: .turn :: as, s', (hturns as).trans hrun, hend⟩

/-- The loop of `ctlrinit` over the transmit ring, from descriptor `i` on. -/
private theorem tx_untouched (n : Nat) {i : Nat} (hn : i + n = Ntx) {s : State}
    (hpc : s.pc = .ctlrinit (.txcs i)) (h : Untouched s) :
    ∃ as s', run (step e) s as = some s' ∧ s'.pc = .idle ∧ s'.txhead = 0 ∧
      s'.txtail = 0 ∧ Untouched s' := by
  induction n generalizing i s with
  | zero =>
      have hi : ¬ i < Ntx := by omega
      have hstep :
          step e s .turn = some { s with txtail := 0, txhead := 0, pc := .idle } := by
        simp only [step, turn, hpc, ctlrinitturn, if_neg hi]
      exact ⟨[.turn], _, run_cons [] hstep, rfl, rfl, rfl, ⟨h.written, h.mem, h.free⟩⟩
  | succ n ih =>
      have hi : i < Ntx := by omega
      have hcs : step e s .turn =
          some { initstore e s .tx i .cs 0 with pc := .ctlrinit (.txnext i) } := by
        simp only [step, turn, hpc, ctlrinitturn, if_pos hi]
      have hnext : step e { initstore e s .tx i .cs 0 with pc := .ctlrinit (.txnext i) }
          .turn = some (ctlrinitturn e _ (.txnext i)) := rfl
      obtain ⟨hturns, h2⟩ := twostores_untouched h hcs hnext rfl rfl rfl rfl
      obtain ⟨as, s', hrun, hend⟩ := ih (i := i + 1) (by omega) rfl h2
      exact ⟨.turn :: .turn :: as, s', (hturns as).trans hrun, hend⟩

end

/-- `ctlrinit` runs, no line being evicted, and a packet is written; `transmit` is
about to invalidate the line of the first descriptor. -/
private theorem before_dcinv (e : Ether) {s : State} (h : Untouched (ctlrinit s)) :
    ∃ as s', run (step e) (ctlrinit s) as = some s' ∧ s'.pc = .transmit .sendinv ∧
      s'.txhead = 0 ∧ Untouched s' := by
  obtain ⟨as, s1, hrun, hpc1, h1⟩ := rx_untouched (e := e) Nrx (Nat.zero_add _) rfl h
  have hfill : step e s1 .turn = some { s1 with pc := .ctlrinit (.txcs 0) } := by
    simp only [step, turn, hpc1, rxreplenishturn, h1.free]
    cases s1.rxb s1.rxtail <;> rfl
  obtain ⟨as', s2, hrun', hpc2, hhead, htail, h2⟩ := tx_untouched (e := e) Ntx
    (Nat.zero_add _) (s := { s1 with pc := .ctlrinit (.txcs 0) }) rfl
    ⟨h1.written, h1.mem, h1.free⟩
  refine ⟨as ++ .turn :: (as' ++ [.packets [⟨60, 0⟩], .transmit, .turn, .turn]),
    { s2 with oq := [⟨60, 0⟩], pc := .transmit .sendinv }, ?_, rfl, hhead,
    ⟨h2.written, h2.mem, h2.free⟩⟩
  rw [run_append as _ hrun, run_cons _ hfill, run_append as' _ hrun']
  simp [run, step, turn, transmitturn, hpc2, hhead, htail]

/-- The rings at 0 and 8192, and the bounds of an ethernet packet. -/
def rings : Ether where
  base := fun | .rx => 0 | .tx => 512
  minmtu := 60
  maxmtu := 1514

/-- An empty cache, and a memory of zeros. -/
def zeroed : Words where
  mem := fun _ => 0
  held := fun _ => 0
  present := fun _ => false
  dirty := fun _ => false
  written := fun _ => false
  tidy := nofun

/-- Before `ctlrinit`; there are no blocks for the receive ring. -/
def attached : State where
  words := zeroed
  rxb := fun _ => none
  txb := fun _ => none
  rxhead := 0
  rxtail := 0
  txhead := 0
  txtail := 0
  nofirstlast := 0
  txringfull := 0
  free := []
  oq := []
  pc := .idle
  given := fun _ _ => false

/-- The first packet: what `ctlrinit` stored in the first transmit descriptor is
discarded, and the memory that the device reads has no link. -/
theorem first_packet_discards : ∃ as s, run (step rings) (ctlrinit attached) as = some s ∧
    s.pc = .transmit .sendinv ∧ s.txhead = 0 ∧
    s.words.mem ⟨.tx, 0, .next⟩ ≠ link rings .tx 0 ∧
    ¬ AllSteps (step rings) (Survives rings) (ctlrinit attached) (as ++ [.turn]) := by
  obtain ⟨as, s, hrun, hpc, hhead, h⟩ := before_dcinv rings (s := attached)
    ⟨fun _ => rfl, fun _ => rfl, rfl⟩
  refine ⟨as, s, hrun, hpc, hhead, ?_, ?_⟩
  · rw [h.mem]
    decide
  · intro hall
    have hturn : step rings s .turn = some (transmitturn rings s .sendinv) := by
      simp only [step, turn, hpc]
    have hinv : invalidates s = some (.tx, 0) := by
      simp only [invalidates, hpc, hhead]
    have hw : Written rings s .turn :=
      ((survives_runs rings attached _).1 hall).last as hrun hturn
    have hline := hw .tx 0 hinv
    rw [h.written] at hline
    cases hline

end Kirkwood.Ports.EtherCache
