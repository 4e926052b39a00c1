import Kirkwood.Verified.ByteMem

/-!
# Packets and connections of the ethernet device

`etheriq` of `devether.c` gives a packet to every connection that wants it.  A
packet from the wire is not used afterwards, so the first connection that wants
whole packets gets the block itself, and the others get copies; a connection that
only wants headers gets a trace.  `etheroq` sends a packet, and gives it to
`etheriq` first when this interface is to hear it too.

What the kernel answers is not known to the code: whether a queue has room,
whether there is a block to be had and what it held before, which multicast
addresses are in use.  `qpass` and `qbwrite` own the block that they are given,
whether they queue it or not.

## Main results

* `visit_spec`, `loop_spec`: what one turn, and all turns, of the loop over the
  connections log for each connection, and which blocks they dispose of;
* `demultiplexed`: each connection that wants the packet gets it or counts as an
  overflow, and each block is disposed of once.
-/

namespace Kirkwood.Ports.DevEther

open Kirkwood.Verified
open Kirkwood.Verified.ByteMem

/-! ## Blocks -/

/-- `Block`: its bytes from `rp` to `lim`, and `wp`. -/
structure Block where
  id : Nat
  mem : Bytes
  wp : Nat
  room : wp ≤ mem.length

namespace Block

/-- `BLEN(b)` -/
def len (b : Block) : Nat := b.wp

def bytes (b : Block) : Bytes := b.mem.take b.wp

end Block

/-- A block with room for `size` bytes more. -/
abbrev Roomy (size : Nat) := { b : Block // b.wp + size ≤ b.mem.length }

/-- `memmove(b->wp, bs, n); b->wp += n` -/
def put (bs : Bytes) (b : Roomy bs.length) : Block where
  id := b.val.id
  mem := patch b.val.mem b.val.wp bs
  wp := b.val.wp + bs.length
  room := by
    rw [patch_length b.property]
    exact b.property

/-! ## Packets -/

abbrev Eaddr := Vector UInt8 6

/-- The header of an `Etherpkt`. -/
structure Etherpkt where
  d : Eaddr
  s : Eaddr
  type : Vector UInt8 2

/-- `(Etherpkt*)bp->rp` -/
def Block.pkt (b : Block) : Etherpkt where
  d := Vector.ofFn fun i => b.mem.getD i.val 0
  s := Vector.ofFn fun i => b.mem.getD (6 + i.val) 0
  type := Vector.ofFn fun i => b.mem.getD (12 + i.val) 0

/-- `(pkt->type[0]<<8)|pkt->type[1]` -/
def Etherpkt.etype (pkt : Etherpkt) : BitVec 16 :=
  (pkt.type[0].toBitVec.setWidth 16 <<< 8) ||| pkt.type[1].toBitVec.setWidth 16

/-- `pkt->d[0] & 1` -/
def Etherpkt.multi (pkt : Etherpkt) : Bool := pkt.d[0] &&& 1 ≠ 0

/-! ## The interface -/

/-- `Netfile`, a connection; its queue is known by its place in `f`. -/
structure Netfile where
  type : Int
  prom : Bool
  bridge : Bool
  headersonly : Bool
  deriving DecidableEq, Repr

/-- `Ether`; `transmit` is whether there is one. -/
structure Ether where
  ea : Eaddr
  bcast : Eaddr
  prom : Int
  f : List (Option Netfile)
  transmit : Bool

/-- What the kernel answers on behalf of a connection: `qwindow`; what the block of
`iallocb` held, when there is one; and whether `qpass` fails. -/
structure Answer where
  window : Int
  block : Option (Nat → UInt8)
  full : Bool

/-- The kernel around the device; `ms` is `TK2MS(MACHP(0)->ticks)`. -/
structure Kernel where
  activemulti : Eaddr → Bool
  answer : Nat → Answer
  ms : BitVec 32

/-- What becomes of a block: it is queued for a connection, or freed because its
queue is full; freed; written to `oq`.  And an overflow counted for a connection. -/
inductive Event where
  | passed (k : Nat) (b : Block)
  | full (k : Nat) (b : Block)
  | soverflow (k : Nat)
  | freed (b : Block)
  | written (b : Block)

/-- The counters, the next block that is allocated, what became of blocks, and how
often `transmit` was called. -/
structure State where
  inpackets : Nat
  outpackets : Nat
  soverflows : Nat
  next : Nat
  transmits : Nat
  log : List Event

namespace State

def add (s : State) (e : Event) : State := { s with log := s.log ++ [e] }

/-- `ether->soverflows++`, for connection `k`. -/
def overflow (s : State) (k : Nat) : State :=
  { s with soverflows := s.soverflows + 1, log := s.log ++ [.soverflow k] }

end State

/-! ## The code -/

def freeb (s : State) (b : Block) : State := s.add (.freed b)

/-- An empty block, with what its memory held before. -/
def fresh (id size : Nat) (held : Nat → UInt8) : Block where
  id := id
  mem := (List.range size).map held
  wp := 0
  room := Nat.zero_le _

theorem fresh_room (id size : Nat) (held : Nat → UInt8) :
    (fresh id size held).wp + size ≤ (fresh id size held).mem.length := by
  simp [fresh]

def iallocb (s : State) (a : Answer) (size : Nat) : Option (Roomy size) × State :=
  match a.block with
  | none => (none, s)
  | some held =>
      (some ⟨fresh s.next size held, fresh_room ..⟩, { s with next := s.next + 1 })

def qpass (s : State) (k : Nat) (a : Answer) (b : Block) : Int × State :=
  if a.full then (-1, s.add (.full k b)) else (b.len, s.add (.passed k b))

def qbwrite (s : State) (b : Block) : State := s.add (.written b)

/-- The six bytes behind the header of a trace. -/
def stamp (len : Nat) (ms : BitVec 32) : Bytes :=
  [UInt8.ofNat (len >>> 8), UInt8.ofNat len, ⟨(ms >>> 24).setWidth 8⟩,
    ⟨(ms >>> 16).setWidth 8⟩, ⟨(ms >>> 8).setWidth 8⟩, ⟨ms.setWidth 8⟩]

/-- How much of a packet a trace holds. -/
def tracelen (len : Nat) : Nat := if len > 58 then 58 else len

theorem tracelen_le (len : Nat) : tracelen len ≤ 58 ∧ tracelen len ≤ len := by
  unfold tracelen
  split <;> omega

private theorem trace_length (b : Roomy 64) (bs : Bytes) (len : Nat) (ms : BitVec 32)
    (h : bs.length ≤ 58) :
    (patch (patch b.val.mem b.val.wp bs) (b.val.wp + 58) (stamp len ms)).length =
      b.val.mem.length := by
  have hroom := b.property
  have hstamp : (stamp len ms).length = 6 := rfl
  have hhead : (patch b.val.mem b.val.wp bs).length = b.val.mem.length :=
    patch_length (by omega)
  rw [patch_length (by omega), hhead]

/-- The trace of `pkt` in a new block. -/
def trace (b : Roomy 64) (pkt : Block) (len : Nat) (ms : BitVec 32) : Block where
  id := b.val.id
  mem := patch (patch b.val.mem b.val.wp (pkt.mem.take (tracelen len)))
    (b.val.wp + 58) (stamp len ms)
  wp := b.val.wp + 64
  room := by
    rw [trace_length b _ len ms
      (Nat.le_trans (List.length_take_le ..) (tracelen_le len).1)]
    exact b.property

def etherrtrace (kern : Kernel) (s : State) (k : Nat) (pkt : Block) (len : Nat) : State :=
  if (kern.answer k).window ≤ 0 then s
  else
    match iallocb s (kern.answer k) 64 with
    | (none, s) => s
    | (some bp, s) => (qpass s k (kern.answer k) (trace bp pkt len kern.ms)).2

/-- The branch of `etheriq` for a connection that gets a copy. -/
def copy (kern : Kernel) (s : State) (k : Nat) (pkt : Block) : State :=
  match iallocb s (kern.answer k) pkt.bytes.length with
  | (some xbp, s) =>
      match qpass s k (kern.answer k) (put pkt.bytes xbp) with
      | (r, s) => if r < 0 then s.overflow k else s
  | (none, s) => s.overflow k

section
variable (kern : Kernel) (ether : Ether) (bp : Block) (fromwire : Bool)

def tome : Bool := bp.pkt.d = ether.ea

def fromme : Bool := bp.pkt.s = ether.ea

/-- The check for valid multicast addresses fails. -/
def rejected : Bool :=
  bp.pkt.multi && decide (bp.pkt.d ≠ ether.bcast) && decide (ether.prom = 0) &&
    !kern.activemulti bp.pkt.d

/-- The connection wants the packet. -/
def wants (f : Netfile) : Bool :=
  (f.type = bp.pkt.etype.toNat || f.type < 0) && (tome ether bp || bp.pkt.multi || f.prom)

/-- It doesn't want to hear bridged packets. -/
def skips (f : Netfile) : Bool := f.bridge && !fromwire && !fromme ether bp

/-- One turn of the loop over the connections; `fx` is the one that gets `bp`. -/
def visit (k : Nat) (f : Netfile) (fx : Option Nat) (s : State) : Option Nat × State :=
  if wants ether bp f then
    if skips ether bp fromwire f then (fx, s)
    else if !f.headersonly then
      if fromwire && fx.isNone then (some k, s)
      else (fx, copy kern s k bp)
    else (fx, etherrtrace kern s k bp bp.len)
  else (fx, s)

/-- The loop, from connection `k` on. -/
def loop (k : Nat) : List (Option Netfile) → Option Nat → State → Option Nat × State
  | [], fx, s => (fx, s)
  | none :: fs, fx, s => loop (k + 1) fs fx s
  | some f :: fs, fx, s =>
      match visit kern ether bp fromwire k f fx s with
      | (fx, s) => loop (k + 1) fs fx s

def etheriq (s : State) : Option Block × State :=
  let s := { s with inpackets := s.inpackets + 1 }
  if rejected kern ether bp then
    if fromwire then (none, freeb s bp) else (some bp, s)
  else
    match loop kern ether bp fromwire 0 ether.f none s with
    | (some k, s) =>
        match qpass s k (kern.answer k) bp with
        | (r, s) => (none, if r < 0 then s.overflow k else s)
    | (none, s) => if fromwire then (none, freeb s bp) else (some bp, s)

def etheroq (s : State) : Nat × State :=
  let s := { s with outpackets := s.outpackets + 1 }
  let s :=
    if tome ether bp || decide (bp.pkt.d = ether.bcast) || decide (ether.prom ≠ 0) then
      (etheriq kern ether bp false s).2
    else s
  if !tome ether bp then
    let s := qbwrite s bp
    (bp.len, if ether.transmit then { s with transmits := s.transmits + 1 } else s)
  else (bp.len, freeb s bp)

end

/-! ## What each connection gets -/

namespace Event

/-- The connection that an event is about. -/
def conn : Event → Option Nat
  | passed k _ => some k
  | full k _ => some k
  | soverflow k => some k
  | freed _ => none
  | written _ => none

/-- The block that an event disposes of. -/
def block : Event → Option Block
  | passed _ b => some b
  | full _ b => some b
  | soverflow _ => none
  | freed b => some b
  | written b => some b

/-- Whether an event counts in `soverflows`. -/
def counted : Event → Bool
  | soverflow _ => true
  | _ => false

end Event

/-- The events about connection `k`. -/
def about (k : Nat) (evs : List Event) : List Event := evs.filter fun e => e.conn = some k

/-- The blocks that are disposed of. -/
def ids (evs : List Event) : List Nat := (evs.filterMap Event.block).map Block.id

theorem about_append (k : Nat) (evs evs' : List Event) :
    about k (evs ++ evs') = about k evs ++ about k evs' :=
  List.filter_append ..

theorem ids_append (evs evs' : List Event) : ids (evs ++ evs') = ids evs ++ ids evs' := by
  rw [ids, List.filterMap_append, List.map_append, ids, ids]

theorem about_self {k : Nat} {evs : List Event} (h : ∀ e ∈ evs, e.conn = some k) :
    about k evs = evs :=
  List.filter_eq_self.2 fun e he => decide_eq_true (h e he)

theorem about_eq_nil {k : Nat} {evs : List Event} (h : ∀ e ∈ evs, e.conn ≠ some k) :
    about k evs = [] :=
  List.filter_eq_nil_iff.2 fun e he => by simpa using h e he

/-- A header trace of `bp`: the first bytes of the packet, its length and the time. -/
structure IsTrace (b bp : Block) (ms : BitVec 32) : Prop where
  len : b.len = 64
  head : b.bytes.take (tracelen bp.len) = bp.bytes.take (tracelen bp.len)
  tail : b.bytes.drop 58 = stamp bp.len ms

/-- What connection `k` gets of a packet that it wants, by what the kernel answers. -/
inductive Served (kern : Kernel) (bp : Block) (k : Nat) (f : Netfile) :
    List Event → Prop where
  /-- A packet with the bytes of `bp`. -/
  | packet (b : Block) : f.headersonly = false → (kern.answer k).full = false →
      b.bytes = bp.bytes → Served kern bp k f [.passed k b]
  /-- No room for it in the queue. -/
  | full (b : Block) : f.headersonly = false → (kern.answer k).full = true →
      b.bytes = bp.bytes → Served kern bp k f [.full k b, .soverflow k]
  /-- No block for a copy. -/
  | noblock : f.headersonly = false → (kern.answer k).block = none →
      Served kern bp k f [.soverflow k]
  | header (b : Block) : f.headersonly = true → 0 < (kern.answer k).window →
      (kern.answer k).full = false → IsTrace b bp kern.ms →
      Served kern bp k f [.passed k b]
  | headerfull (b : Block) : f.headersonly = true → 0 < (kern.answer k).window →
      (kern.answer k).full = true → IsTrace b bp kern.ms →
      Served kern bp k f [.full k b]
  /-- No window, or no block for a trace. -/
  | noheader : f.headersonly = true →
      (kern.answer k).window ≤ 0 ∨ (kern.answer k).block = none → Served kern bp k f []

/-- From `s` to `s'` the events `evs` are logged, overflows among them are counted,
and the blocks that they dispose of are those allocated meanwhile, each once. -/
structure Adds (s : State) (evs : List Event) (s' : State) : Prop where
  log : s'.log = s.log ++ evs
  counts : s'.soverflows = s.soverflows + evs.countP Event.counted
  le : s.next ≤ s'.next
  ids : ids evs = List.range' s.next (s'.next - s.next)

theorem Adds.refl (s : State) : Adds s [] s where
  log := (List.append_nil _).symm
  counts := rfl
  le := Nat.le_refl _
  ids := by rw [Nat.sub_self]; rfl

theorem Adds.trans {s s' s'' : State} {evs evs' : List Event} (h : Adds s evs s')
    (h' : Adds s' evs' s'') : Adds s (evs ++ evs') s'' where
  log := by rw [h'.log, h.log, List.append_assoc]
  counts := by rw [h'.counts, h.counts, List.countP_append, Nat.add_assoc]
  le := Nat.le_trans h.le h'.le
  ids := by
    have hsum : s''.next - s.next = (s'.next - s.next) + (s''.next - s'.next) := by
      have := h.le
      have := h'.le
      omega
    have hnext : s'.next = s.next + (s'.next - s.next) := by
      have := h.le
      omega
    rw [ids_append, h.ids, h'.ids, hsum, ← List.range'_append_1, ← hnext]

theorem put_bytes {bs : Bytes} (b : Roomy bs.length) (h : b.val.wp = 0) :
    (put bs b).bytes = bs := by
  have htake : (put bs b).bytes =
      (patch b.val.mem b.val.wp bs).take (b.val.wp + bs.length) := rfl
  rw [htake, h, patch, List.take_zero, List.nil_append, Nat.zero_add, List.take_left]

theorem trace_isTrace (b : Roomy 64) (bp : Block) (ms : BitVec 32) (h : b.val.wp = 0) :
    IsTrace (trace b bp bp.len ms) bp ms := by
  obtain ⟨hshort, hin⟩ := tracelen_le bp.len
  obtain ⟨head, hhead⟩ : ∃ head, head = bp.mem.take (tracelen bp.len) := ⟨_, rfl⟩
  have hroom : 64 ≤ b.val.mem.length := by
    have hb := b.property
    rwa [h, Nat.zero_add] at hb
  have hbp : bp.len ≤ bp.mem.length := bp.room
  have hlen : head.length = tracelen bp.len := by
    rw [hhead, List.length_take_of_le (by omega)]
  have hfirst : (patch b.val.mem 0 head).length = b.val.mem.length :=
    patch_length (by omega)
  have hcut : ((patch b.val.mem 0 head).take 58).length = 58 :=
    List.length_take_of_le (by omega)
  have hstamp : (stamp bp.len ms).length = 6 := rfl
  have hbytes : (trace b bp bp.len ms).bytes =
      (patch b.val.mem 0 head).take 58 ++ stamp bp.len ms := by
    have htake : (trace b bp bp.len ms).bytes =
        (patch (patch b.val.mem b.val.wp (bp.mem.take (tracelen bp.len)))
          (b.val.wp + 58) (stamp bp.len ms)).take (b.val.wp + 64) := rfl
    have hboth : ((patch b.val.mem 0 head).take 58 ++ stamp bp.len ms).length = 64 := by
      rw [List.length_append, hcut, hstamp]
    rw [htake, h, ← hhead, Nat.zero_add, Nat.zero_add, patch, List.take_append_of_le_length
      (Nat.le_of_eq hboth.symm), List.take_of_length_le (Nat.le_of_eq hboth)]
  constructor
  · show b.val.wp + 64 = 64
    rw [h]
  · have hbp : bp.bytes.take (tracelen bp.len) = head := by
      rw [Block.bytes, ← Block.len, List.take_take, Nat.min_eq_left hin, hhead]
    rw [hbytes, hbp, List.take_append_of_le_length (by omega), List.take_take,
      Nat.min_eq_left hshort, patch, List.take_zero, List.nil_append, ← hlen,
      List.take_left]
  · rw [hbytes, List.drop_left' hcut]

theorem iallocb_none {s : State} {a : Answer} {size : Nat} (h : a.block = none) :
    iallocb s a size = (none, s) := by
  rw [iallocb, h]

theorem iallocb_some (s : State) {a : Answer} (size : Nat) {held : Nat → UInt8}
    (h : a.block = some held) :
    ∃ b : Roomy size, b.val.wp = 0 ∧ b.val.id = s.next ∧
      iallocb s a size = (some b, { s with next := s.next + 1 }) := by
  refine ⟨⟨fresh s.next size held, fresh_room ..⟩, rfl, rfl, ?_⟩
  rw [iallocb, h]

private theorem one_id (n : Nat) : [n] = List.range' n (n + 1 - n) := by
  rw [Nat.add_sub_cancel_left]
  rfl

/-- One event that disposes of a new block. -/
private theorem adds_disposed (s : State) {e : Event} {b : Block} (hids : ids [e] = [b.id])
    (hid : b.id = s.next) (hcount : Event.counted e = false) :
    Adds s [e] (({ s with next := s.next + 1 } : State).add e) where
  log := rfl
  counts := by
    rw [List.countP_singleton, hcount]
    rfl
  le := Nat.le_succ _
  ids := by
    rw [hids, hid]
    exact one_id s.next

private theorem adds_overflow (s : State) (k : Nat) :
    Adds s [.soverflow k] (s.overflow k) where
  log := rfl
  counts := rfl
  le := Nat.le_refl _
  ids := by
    show [] = List.range' s.next (s.next - s.next)
    rw [Nat.sub_self]
    rfl

theorem copy_spec (kern : Kernel) (s : State) (k : Nat) (bp : Block) {f : Netfile}
    (hf : f.headersonly = false) :
    ∃ evs, Adds s evs (copy kern s k bp) ∧ Served kern bp k f evs ∧
      ∀ e ∈ evs, e.conn = some k := by
  unfold copy
  cases hblock : (kern.answer k).block with
  | none =>
      rw [iallocb_none hblock]
      exact ⟨_, adds_overflow s k, .noblock hf hblock, by simp [Event.conn]⟩
  | some held =>
      obtain ⟨b, hwp, hid, halloc⟩ := iallocb_some s bp.bytes.length hblock
      obtain ⟨xbp, hxbp⟩ : ∃ xbp, xbp = put bp.bytes b := ⟨_, rfl⟩
      have hbytes : xbp.bytes = bp.bytes := by rw [hxbp, put_bytes b hwp]
      have hxid : xbp.id = s.next := by rw [hxbp, ← hid]; rfl
      rw [halloc]
      simp only [← hxbp]
      cases hfull : (kern.answer k).full with
      | true =>
          simp only [qpass, hfull, if_true]
          rw [if_pos (by decide)]
          exact ⟨_, (adds_disposed s rfl hxid rfl).trans (adds_overflow _ k),
            .full _ hf hfull hbytes,
            by simp [Event.conn]⟩
      | false =>
          simp only [qpass, hfull, Bool.false_eq_true, if_false]
          rw [if_neg (by omega)]
          exact ⟨_, adds_disposed s rfl hxid rfl, .packet _ hf hfull hbytes,
            by simp [Event.conn]⟩

theorem etherrtrace_spec (kern : Kernel) (s : State) (k : Nat) (bp : Block) {f : Netfile}
    (hf : f.headersonly = true) :
    ∃ evs, Adds s evs (etherrtrace kern s k bp bp.len) ∧ Served kern bp k f evs ∧
      ∀ e ∈ evs, e.conn = some k := by
  unfold etherrtrace
  by_cases hwindow : (kern.answer k).window ≤ 0
  · rw [if_pos hwindow]
    exact ⟨_, .refl s, .noheader hf (.inl hwindow), nofun⟩
  rw [if_neg hwindow]
  cases hblock : (kern.answer k).block with
  | none =>
      rw [iallocb_none hblock]
      exact ⟨_, .refl s, .noheader hf (.inr hblock), nofun⟩
  | some held =>
      obtain ⟨b, hwp, hid, halloc⟩ := iallocb_some s 64 hblock
      have htrace := trace_isTrace b bp kern.ms hwp
      rw [halloc]
      cases hfull : (kern.answer k).full with
      | true =>
          simp only [qpass, hfull, if_true]
          exact ⟨_, adds_disposed s rfl hid rfl,
            .headerfull _ hf (Int.not_le.1 hwindow) hfull htrace, by simp [Event.conn]⟩
      | false =>
          simp only [qpass, hfull]
          exact ⟨_, adds_disposed s rfl hid rfl,
            .header _ hf (Int.not_le.1 hwindow) hfull htrace, by simp [Event.conn]⟩

section
variable (kern : Kernel) (ether : Ether) (bp : Block) (fromwire : Bool)

/-- The loop means to give the packet to connection `f`. -/
def meant (f : Netfile) : Bool := wants ether bp f && !skips ether bp fromwire f

theorem visit_spec (k : Nat) (f : Netfile) (fx : Option Nat) (s : State) :
    ∃ evs, Adds s evs (visit kern ether bp fromwire k f fx s).2 ∧
      (∀ e ∈ evs, e.conn = some k) ∧
      (meant ether bp fromwire f = false ∧ evs = [] ∧
          (visit kern ether bp fromwire k f fx s).1 = fx ∨
        meant ether bp fromwire f = true ∧ Served kern bp k f evs ∧
          (visit kern ether bp fromwire k f fx s).1 = fx ∨
        meant ether bp fromwire f = true ∧ f.headersonly = false ∧ fromwire = true ∧
          fx = none ∧ evs = [] ∧ (visit kern ether bp fromwire k f fx s).1 = some k) := by
  unfold visit meant
  by_cases hwants : wants ether bp f = true
  · rw [if_pos hwants]
    by_cases hskips : skips ether bp fromwire f = true
    · rw [if_pos hskips]
      exact ⟨[], .refl s, nofun, .inl ⟨by rw [hwants, hskips]; rfl, rfl, rfl⟩⟩
    rw [if_neg hskips]
    have hmeant : (wants ether bp f && !skips ether bp fromwire f) = true := by
      rw [hwants, Bool.eq_false_iff.2 hskips]
      rfl
    by_cases hheaders : f.headersonly = true
    · rw [if_neg (by rw [hheaders]; decide)]
      obtain ⟨evs, hadds, hserved, hconn⟩ := etherrtrace_spec kern s k bp hheaders
      exact ⟨evs, hadds, hconn, .inr (.inl ⟨hmeant, hserved, rfl⟩)⟩
    have hwhole : f.headersonly = false := Bool.eq_false_iff.2 hheaders
    rw [if_pos (by rw [hwhole]; rfl)]
    by_cases hfx : (fromwire && fx.isNone) = true
    · rw [if_pos hfx]
      rw [Bool.and_eq_true, Option.isNone_iff_eq_none] at hfx
      exact ⟨[], .refl s, nofun, .inr (.inr ⟨hmeant, hwhole, hfx.1, hfx.2, rfl, rfl⟩)⟩
    · rw [if_neg hfx]
      obtain ⟨evs, hadds, hserved, hconn⟩ := copy_spec kern s k bp hwhole
      exact ⟨evs, hadds, hconn, .inr (.inl ⟨hmeant, hserved, rfl⟩)⟩
  · rw [if_neg hwants]
    refine ⟨[], .refl s, nofun, .inl ⟨?_, rfl, rfl⟩⟩
    rw [Bool.eq_false_iff.2 hwants]
    rfl

/-- What the loop has logged when it began at connection `k` with `fx` and ended
with `fx'`. -/
structure Looped (k : Nat) (fx fx' : Option Nat) (evs : List Event) : Prop where
  late : ∀ e ∈ evs, ∃ j, k ≤ j ∧ e.conn = some j
  kept : ∀ j, fx = some j → fx' = some j
  taker : ∀ j, fx = none → fx' = some j → k ≤ j ∧ fromwire = true ∧ about j evs = [] ∧
    ∃ f, ether.f[j]? = some (some f) ∧ meant ether bp fromwire f = true ∧
      f.headersonly = false
  served : ∀ j f, k ≤ j → ether.f[j]? = some (some f) → meant ether bp fromwire f = true →
    fx = none ∧ fx' = some j ∨ Served kern bp j f (about j evs)
  others : ∀ j, (∀ f, ether.f[j]? = some (some f) → meant ether bp fromwire f = false) →
    about j evs = []

end

section
variable {kern : Kernel} {ether : Ether} {bp : Block} {fromwire : Bool}

theorem Looped.nil {k : Nat} {fx : Option Nat} (hend : ∀ j, k ≤ j → ether.f[j]? = none) :
    Looped kern ether bp fromwire k fx fx [] where
  late := nofun
  kept _ h := h
  taker j h h' := by
    rw [h] at h'
    cases h'
  served j f hj h := by
    rw [hend j hj] at h
    cases h
  others _ _ := rfl

theorem Looped.about_before {k j : Nat} {fx fx' : Option Nat} {evs : List Event}
    (h : Looped kern ether bp fromwire k fx fx' evs) (hj : j < k) : about j evs = [] := by
  apply about_eq_nil
  intro e he hconn
  obtain ⟨i, hi, hconn'⟩ := h.late e he
  rw [hconn'] at hconn
  cases hconn
  omega

/-- No connection in this place. -/
theorem Looped.skip {k : Nat} {fx fx' : Option Nat} {evs : List Event}
    (hk : ether.f[k]? = some none) (h : Looped kern ether bp fromwire (k + 1) fx fx' evs) :
    Looped kern ether bp fromwire k fx fx' evs where
  late e he := by
    obtain ⟨j, hj, hconn⟩ := h.late e he
    exact ⟨j, by omega, hconn⟩
  kept := h.kept
  taker j hfx hfx' := by
    obtain ⟨hj, hrest⟩ := h.taker j hfx hfx'
    exact ⟨by omega, hrest⟩
  served j f hj hf hmeant := by
    by_cases hjk : j = k
    · rw [hjk, hk] at hf
      cases hf
    · exact h.served j f (by omega) hf hmeant
  others := h.others

/-- The events of connection `k` are not those of another. -/
theorem about_other {k j : Nat} {evs : List Event} (evs' : List Event)
    (hconn : ∀ e ∈ evs, e.conn = some k) (hj : j ≠ k) :
    about j (evs ++ evs') = about j evs' := by
  rw [about_append, about_eq_nil, List.nil_append]
  intro e he hc
  rw [hconn e he] at hc
  exact hj (Option.some.inj hc).symm

theorem Looped.about_first {k : Nat} {fx fx' : Option Nat} {evs evs' : List Event}
    (h : Looped kern ether bp fromwire (k + 1) fx fx' evs')
    (hconn : ∀ e ∈ evs, e.conn = some k) : about k (evs ++ evs') = evs := by
  rw [about_append, about_self hconn, h.about_before (Nat.lt_succ_self k), List.append_nil]

/-- Connection `k` does not take the packet itself: it gets a copy, or nothing. -/
theorem Looped.pass {k : Nat} {f : Netfile} {fx fx' : Option Nat} {evs evs' : List Event}
    (hk : ether.f[k]? = some (some f)) (hconn : ∀ e ∈ evs, e.conn = some k)
    (hnil : meant ether bp fromwire f = false → evs = [])
    (hserved : meant ether bp fromwire f = true → Served kern bp k f evs)
    (h : Looped kern ether bp fromwire (k + 1) fx fx' evs') :
    Looped kern ether bp fromwire k fx fx' (evs ++ evs') where
  late e he := by
    rcases List.mem_append.1 he with he | he
    · exact ⟨k, Nat.le_refl k, hconn e he⟩
    · obtain ⟨j, hj, hc⟩ := h.late e he
      exact ⟨j, by omega, hc⟩
  kept := h.kept
  taker j hfx hfx' := by
    obtain ⟨hj, hwire, hevs, hf⟩ := h.taker j hfx hfx'
    exact ⟨by omega, hwire, by rw [about_other evs' hconn (by omega), hevs], hf⟩
  served j g hj hg hmeant := by
    by_cases hjk : j = k
    · obtain rfl : f = g := by
        rw [hjk, hk] at hg
        exact Option.some.inj (Option.some.inj hg)
      rw [hjk, h.about_first hconn]
      exact .inr (hserved hmeant)
    · rw [about_other evs' hconn hjk]
      exact h.served j g (by omega) hg hmeant
  others j hj := by
    by_cases hjk : j = k
    · rw [hjk, h.about_first hconn]
      exact hnil (hj f (hjk ▸ hk))
    · rw [about_other evs' hconn hjk]
      exact h.others j hj

/-- Connection `k` is the one that takes the packet itself. -/
theorem Looped.take {k : Nat} {f : Netfile} {fx' : Option Nat} {evs : List Event}
    (hk : ether.f[k]? = some (some f)) (hmeant : meant ether bp fromwire f = true)
    (hwhole : f.headersonly = false) (hwire : fromwire = true)
    (h : Looped kern ether bp fromwire (k + 1) (some k) fx' evs) :
    Looped kern ether bp fromwire k none fx' evs where
  late e he := by
    obtain ⟨j, hj, hc⟩ := h.late e he
    exact ⟨j, by omega, hc⟩
  kept j hj := by cases hj
  taker j _ hfx' := by
    obtain rfl : k = j := Option.some.inj ((h.kept k rfl).symm.trans hfx')
    exact ⟨Nat.le_refl k, hwire, h.about_before (Nat.lt_succ_self k), f, hk, hmeant, hwhole⟩
  served j g hj hg hmeantg := by
    by_cases hjk : j = k
    · exact .inl ⟨rfl, by rw [hjk, h.kept k rfl]⟩
    · rcases h.served j g (by omega) hg hmeantg with ⟨hno, _⟩ | hserved
      · cases hno
      · exact .inr hserved
  others := h.others

/-- The turn for connection `k`, then the rest. -/
theorem Looped.visit {k : Nat} {f : Netfile} {fx fx₁ fx' : Option Nat}
    {evs evs' : List Event} (hk : ether.f[k]? = some (some f))
    (hconn : ∀ e ∈ evs, e.conn = some k)
    (hturn : meant ether bp fromwire f = false ∧ evs = [] ∧ fx₁ = fx ∨
      meant ether bp fromwire f = true ∧ Served kern bp k f evs ∧ fx₁ = fx ∨
      meant ether bp fromwire f = true ∧ f.headersonly = false ∧ fromwire = true ∧
        fx = none ∧ evs = [] ∧ fx₁ = some k)
    (h : Looped kern ether bp fromwire (k + 1) fx₁ fx' evs') :
    Looped kern ether bp fromwire k fx fx' (evs ++ evs') := by
  rcases hturn with ⟨hmeant, hnil, hfx⟩ | ⟨hmeant, hserved, hfx⟩ |
    ⟨hmeant, hwhole, hwire, hnone, hnil, hfx⟩
  · subst hfx
    refine h.pass hk hconn (fun _ => hnil) fun hyes => ?_
    exact absurd (hyes.symm.trans hmeant) (by decide)
  · subst hfx
    refine h.pass hk hconn (fun hno => ?_) fun _ => hserved
    exact absurd (hno.symm.trans hmeant) (by decide)
  · subst hfx hnone hnil
    exact h.take hk hmeant hwhole hwire

theorem loop_spec (kern : Kernel) (ether : Ether) (bp : Block) (fromwire : Bool)
    (fs : List (Option Netfile)) (k : Nat) (fx : Option Nat) (s : State)
    (hfs : ether.f.drop k = fs) :
    ∃ evs, Adds s evs (loop kern ether bp fromwire k fs fx s).2 ∧
      Looped kern ether bp fromwire k fx (loop kern ether bp fromwire k fs fx s).1 evs := by
  induction fs generalizing k fx s with
  | nil =>
      refine ⟨[], .refl s, .nil fun j hj => ?_⟩
      exact List.getElem?_eq_none (Nat.le_trans (List.drop_eq_nil_iff.1 hfs) hj)
  | cons o fs ih =>
      have hk : ether.f[k]? = some o := by
        rw [← List.head?_drop, hfs]
        rfl
      have hrest : ether.f.drop (k + 1) = fs := by
        rw [← List.tail_drop, hfs]
        rfl
      cases o with
      | none =>
          obtain ⟨evs, hadds, hlooped⟩ := ih (k + 1) fx s hrest
          exact ⟨evs, hadds, hlooped.skip hk⟩
      | some f =>
          obtain ⟨evs, hadds, hconn, hturn⟩ := visit_spec kern ether bp fromwire k f fx s
          obtain ⟨evs', hadds', hlooped⟩ := ih (k + 1)
            (visit kern ether bp fromwire k f fx s).1
              (visit kern ether bp fromwire k f fx s).2
            hrest
          exact ⟨evs ++ evs', hadds.trans hadds', hlooped.visit hk hconn hturn⟩

end

/-! ## The block itself -/

section
variable (kern : Kernel) (ether : Ether) (bp : Block) (fromwire : Bool)

/-- The packet is for connection `f`, as `etheriq` decides. -/
def wanted (f : Netfile) : Bool := !rejected kern ether bp && meant ether bp fromwire f

/-- `etheriq` has gone from `s` to `s'` and returned `r`: it has logged `evs`. -/
structure Demuxed (s : State) (evs : List Event) (r : Option Block) (s' : State) :
    Prop where
  log : s'.log = s.log ++ evs
  counts : s'.soverflows = s.soverflows + evs.countP Event.counted
  served : ∀ k f, ether.f[k]? = some (some f) → wanted kern ether bp fromwire f = true →
    Served kern bp k f (about k evs)
  others : ∀ k, (∀ f, ether.f[k]? = some (some f) →
    wanted kern ether bp fromwire f = false) → about k evs = []
  le : s.next ≤ s'.next
  ids : ids evs = List.range' s.next (s'.next - s.next) ++
    if fromwire = true then [bp.id] else []
  disposed : fromwire = true → ∃ e ∈ evs, e.block = some bp
  returned : r = if fromwire = true then none else some bp

end

section
variable {kern : Kernel} {ether : Ether} {bp : Block} {fromwire : Bool}

private theorem wanted_of_rejected (fromwire : Bool) (h : rejected kern ether bp = true)
    (f : Netfile) : wanted kern ether bp fromwire f = false := by
  rw [wanted, h]
  rfl

private theorem wanted_eq_meant (h : rejected kern ether bp = false) (f : Netfile) :
    wanted kern ether bp fromwire f = meant ether bp fromwire f := by
  rw [wanted, h]
  rfl

/-- No block is disposed of twice. -/
theorem Demuxed.once {s s' : State} {evs : List Event} {r : Option Block}
    (h : Demuxed kern ether bp fromwire s evs r s') (hlive : bp.id < s.next) :
    (DevEther.ids evs).Nodup := by
  rw [h.ids, List.nodup_append]
  refine ⟨List.nodup_range' .., ?_, fun i hi j hj => ?_⟩
  · split
    · exact List.pairwise_singleton ..
    · exact List.nodup_nil
  · have hle := (List.mem_range'_1.1 hi).1
    split at hj
    · rw [List.mem_singleton] at hj
      omega
    · cases hj

private theorem ids_freed (b : Block) : ids [.freed b] = [b.id] := rfl

/-- No connection has taken the block: it is freed, or returned. -/
private theorem demuxed_left {s s' : State} {evs : List Event} (hadds : Adds s evs s')
    (hserved : ∀ (k : Nat) f, ether.f[k]? = some (some f) →
      wanted kern ether bp fromwire f = true → Served kern bp k f (about k evs))
    (hothers : ∀ k : Nat, (∀ f, ether.f[k]? = some (some f) →
      wanted kern ether bp fromwire f = false) → about k evs = [])
    {r : Option Block × State}
    (hr : r = if fromwire = true then (none, freeb s' bp) else (some bp, s')) :
    ∃ evs, Demuxed kern ether bp fromwire s evs r.1 r.2 := by
  cases fromwire with
  | true =>
      have habout : ∀ k, about k (evs ++ [.freed bp]) = about k evs := by
        intro k
        rw [about_append]
        exact List.append_nil _
      rw [hr]
      refine ⟨evs ++ [.freed bp],
        ⟨?_, ?_, fun k f hf hw => ?_, fun k hk => ?_, hadds.le, ?_,
        fun _ => ⟨.freed bp, List.mem_append_right _ (List.mem_singleton_self _), rfl⟩,
          rfl⟩⟩
      · show s'.log ++ [.freed bp] = _
        rw [hadds.log, List.append_assoc]
      · rw [List.countP_append]
        exact hadds.counts
      · rw [habout]
        exact hserved k f hf hw
      · rw [habout]
        exact hothers k hk
      · rw [ids_append, hadds.ids, ids_freed]
        rfl
  | false =>
      rw [hr]
      refine ⟨evs, ⟨hadds.log, hadds.counts, hserved, hothers, hadds.le, ?_, nofun, rfl⟩⟩
      show ids evs = List.range' s.next (s'.next - s.next) ++ []
      rw [List.append_nil]
      exact hadds.ids

/-- What `qpass` of the block itself logs. -/
private def taken (kern : Kernel) (bp : Block) (k : Nat) : List Event :=
  if (kern.answer k).full then [.full k bp, .soverflow k] else [.passed k bp]

private theorem taken_conn {k : Nat} : ∀ e ∈ taken kern bp k, e.conn = some k := by
  unfold taken
  split
  · simp [Event.conn]
  · simp [Event.conn]

private theorem taken_served {k : Nat} {f : Netfile} (hwhole : f.headersonly = false) :
    Served kern bp k f (taken kern bp k) := by
  unfold taken
  split
  · next hfull => exact .full bp hwhole hfull rfl
  · next hfull => exact .packet bp hwhole (Bool.eq_false_iff.2 hfull) rfl

private theorem taken_ids {k : Nat} : ids (taken kern bp k) = [bp.id] := by
  unfold taken
  split
  · rfl
  · rfl

private theorem taken_block (kern : Kernel) (bp : Block) (k : Nat) :
    ∃ e ∈ taken kern bp k, e.block = some bp := by
  unfold taken
  split
  · exact ⟨.full k bp, List.mem_cons_self .., rfl⟩
  · exact ⟨.passed k bp, List.mem_cons_self .., rfl⟩

/-- The end of `etheriq` when connection `k` takes the block. -/
private def take (kern : Kernel) (bp : Block) (k : Nat) (s : State) : State :=
  match qpass s k (kern.answer k) bp with
  | (r, s) => if r < 0 then s.overflow k else s

private theorem take_log (kern : Kernel) (bp : Block) (s : State) (k : Nat) :
    (take kern bp k s).log = s.log ++ taken kern bp k ∧
      (take kern bp k s).soverflows =
        s.soverflows + (taken kern bp k).countP Event.counted ∧
      (take kern bp k s).next = s.next := by
  unfold take taken
  cases hfull : (kern.answer k).full with
  | true =>
      simp only [qpass, hfull, if_true]
      rw [if_pos (by decide)]
      refine ⟨?_, rfl, rfl⟩
      show s.log ++ [_] ++ [_] = _
      rw [List.append_assoc]
      rfl
  | false =>
      simp only [qpass, hfull, Bool.false_eq_true, if_false]
      rw [if_neg (by omega)]
      exact ⟨rfl, rfl, rfl⟩

/-- Connection `k` has taken the block. -/
private theorem demuxed_taken {s s' : State} {evs : List Event} {k : Nat}
    (hadds : Adds s evs s') (haccepted : rejected kern ether bp = false)
    (hlooped : Looped kern ether bp fromwire 0 none (some k) evs) :
    Demuxed kern ether bp fromwire s (evs ++ taken kern bp k) none
      (take kern bp k s') := by
  obtain ⟨_, hwire, hnil, f, hf, hmeant, hwhole⟩ := hlooped.taker k rfl rfl
  obtain ⟨hlog, hcounts, hnext⟩ := take_log kern bp s' k
  have hself : about k (evs ++ taken kern bp k) = taken kern bp k := by
    rw [about_append, hnil, about_self taken_conn, List.nil_append]
  have hother : ∀ j, j ≠ k → about j (evs ++ taken kern bp k) = about j evs := by
    intro j hj
    have hnot : about j (taken kern bp k) = [] := by
      apply about_eq_nil
      intro e he hc
      rw [taken_conn e he] at hc
      exact hj (Option.some.inj hc).symm
    rw [about_append, hnot, List.append_nil]
  refine ⟨?_, ?_, fun j g hg hw => ?_, fun j hj => ?_, ?_, ?_, fun _ => ?_, ?_⟩
  · rw [hlog, hadds.log, List.append_assoc]
  · rw [hcounts, hadds.counts, List.countP_append, Nat.add_assoc]
  · rw [wanted_eq_meant haccepted] at hw
    by_cases hjk : j = k
    · obtain rfl : f = g := by
        rw [hjk, hf] at hg
        exact Option.some.inj (Option.some.inj hg)
      rw [hjk, hself]
      exact taken_served hwhole
    · rw [hother j hjk]
      rcases hlooped.served j g (Nat.zero_le j) hg hw with ⟨_, htaken⟩ | hserved
      · exact absurd (Option.some.inj htaken).symm hjk
      · exact hserved
  · by_cases hjk : j = k
    · have hnot := hj f (hjk ▸ hf)
      rw [wanted_eq_meant haccepted, hmeant] at hnot
      cases hnot
    · rw [hother j hjk]
      exact hlooped.others j fun g hg => by
        rw [← wanted_eq_meant haccepted]
        exact hj g hg
  · rw [hnext]
    exact hadds.le
  · rw [ids_append, hadds.ids, taken_ids, hnext, if_pos hwire]
  · obtain ⟨e, he, hblock⟩ := taken_block kern bp k
    exact ⟨e, List.mem_append_right _ he, hblock⟩
  · rw [if_pos hwire]

theorem etheriq_spec (kern : Kernel) (ether : Ether) (bp : Block) (fromwire : Bool)
    (s : State) :
    ∃ evs, Demuxed kern ether bp fromwire s evs (etheriq kern ether bp fromwire s).1
      (etheriq kern ether bp fromwire s).2 := by
  obtain ⟨s0, hs0⟩ : ∃ s0 : State, s0 = { s with inpackets := s.inpackets + 1 } := ⟨_, rfl⟩
  have hfrom : ∀ {evs r s'}, Demuxed kern ether bp fromwire s0 evs r s' →
      Demuxed kern ether bp fromwire s evs r s' := by
    rw [hs0]
    exact fun h => ⟨h.log, h.counts, h.served, h.others, h.le, h.ids,
      h.disposed, h.returned⟩
  unfold etheriq
  rw [← hs0]
  cases hrejected : rejected kern ether bp with
  | true =>
      simp only [if_true]
      have hnobody := wanted_of_rejected fromwire hrejected
      obtain ⟨evs, h⟩ := demuxed_left (.refl s0) (fun k f _ hw => by
        rw [hnobody f] at hw
        cases hw) (fun _ _ => rfl) rfl
      exact ⟨evs, hfrom h⟩
  | false =>
      simp only [Bool.false_eq_true, if_false]
      obtain ⟨evs, hadds, hlooped⟩ := loop_spec kern ether bp fromwire ether.f 0 none
        s0 rfl
      obtain ⟨fx, hfx⟩ : ∃ fx, fx = loop kern ether bp fromwire 0 ether.f none s0 :=
        ⟨_, rfl⟩
      rw [← hfx] at hadds hlooped ⊢
      obtain ⟨_ | k, s1⟩ := fx
      · obtain ⟨evs, h⟩ := demuxed_left hadds (fun k f hf hw => by
          rw [wanted_eq_meant hrejected] at hw
          rcases hlooped.served k f (Nat.zero_le k) hf hw with ⟨_, hno⟩ | hserved
          · cases hno
          · exact hserved) (fun k hk => hlooped.others k fun f hf => by
            rw [← wanted_eq_meant hrejected]
            exact hk f hf) rfl
        exact ⟨evs, hfrom h⟩
      · exact ⟨_, hfrom (demuxed_taken hadds hrejected hlooped)⟩

end

/-! ## Packets to and from the wire -/

/-- A multicast packet that the interface takes. -/
def accepted (kern : Kernel) (ether : Ether) (bp : Block) : Prop :=
  bp.pkt.multi = true ∧ (bp.pkt.d = ether.bcast ∨ ether.prom ≠ 0 ∨
    kern.activemulti bp.pkt.d = true)

/-- The packet is for connection `f`. -/
def Matches (kern : Kernel) (ether : Ether) (bp : Block) (fromwire : Bool) (f : Netfile) :
    Prop :=
  (f.type = bp.pkt.etype.toNat ∨ f.type < 0) ∧
    (bp.pkt.d = ether.ea ∨ accepted kern ether bp ∨ f.prom = true) ∧
    ¬ (f.bridge = true ∧ fromwire = false ∧ bp.pkt.s ≠ ether.ea)

/-- An interface with its own address and, when a connection is promiscuous, `prom`
set: then `etheriq` has the packet for the connections that it is for. -/
theorem wanted_iff {kern : Kernel} {ether : Ether} {bp : Block} {fromwire : Bool}
    {f : Netfile} (hea : ether.ea[0] &&& 1 = 0) (hprom : f.prom = true → ether.prom ≠ 0) :
    wanted kern ether bp fromwire f = true ↔ Matches kern ether bp fromwire f := by
  have hunicast : bp.pkt.d = ether.ea → bp.pkt.multi = false := by
    intro h
    rw [Etherpkt.multi, h, hea]
    rfl
  have haccepted : rejected kern ether bp = false ↔
      bp.pkt.multi = false ∨ accepted kern ether bp := by
    unfold rejected accepted
    cases bp.pkt.multi with
    | true =>
        simp only [Bool.and_eq_false_iff, decide_eq_false_iff_not, Bool.not_eq_false']
        grind
    | false => simp
  have hmeant : meant ether bp fromwire f = true ↔
      (f.type = bp.pkt.etype.toNat ∨ f.type < 0) ∧
        (bp.pkt.d = ether.ea ∨ bp.pkt.multi = true ∨ f.prom = true) ∧
        ¬ (f.bridge = true ∧ fromwire = false ∧ bp.pkt.s ≠ ether.ea) := by
    unfold meant wants skips tome fromme
    simp only [Bool.and_eq_true, Bool.or_eq_true, decide_eq_true_eq, Bool.not_and,
      Bool.not_not, Bool.not_eq_true', and_assoc]
    grind
  have hwanted : wanted kern ether bp fromwire f = true ↔
      rejected kern ether bp = false ∧ meant ether bp fromwire f = true := by
    rw [wanted, Bool.and_eq_true, Bool.not_eq_true']
  rw [hwanted, haccepted, hmeant]
  unfold Matches accepted
  grind

/-- What `etheroq` does with the block. -/
def sending (ether : Ether) (bp : Block) : Event :=
  if tome ether bp = true then .freed bp else .written bp

/-- `etheroq` has gone from `s` to `s'`: it has logged `evs` for connections, then
what becomes of the block. -/
structure Sent (kern : Kernel) (ether : Ether) (bp : Block) (s : State) (evs : List Event)
    (s' : State) : Prop where
  log : s'.log = s.log ++ (evs ++ [sending ether bp])
  once : (ids (evs ++ [sending ether bp])).Nodup
  heard : bp.pkt.d = ether.ea ∨ bp.pkt.d = ether.bcast ∨ ether.prom ≠ 0 →
    ∃ s'', Demuxed kern ether bp false s evs (some bp) s''
  unheard : ¬ (bp.pkt.d = ether.ea ∨ bp.pkt.d = ether.bcast ∨ ether.prom ≠ 0) → evs = []

private theorem etheroq_log (kern : Kernel) (ether : Ether) (bp : Block) (s s1 : State)
    (hs1 : s1 = if tome ether bp || decide (bp.pkt.d = ether.bcast) ||
        decide (ether.prom ≠ 0) then
      (etheriq kern ether bp false { s with outpackets := s.outpackets + 1 }).2
    else { s with outpackets := s.outpackets + 1 }) :
    (etheroq kern ether bp s).2.log = s1.log ++ [sending ether bp] := by
  subst hs1
  unfold etheroq sending
  cases tome ether bp with
  | true => rfl
  | false =>
      cases ether.transmit with
      | true => rfl
      | false => rfl

private theorem ids_sending (ether : Ether) (bp : Block) :
    ids [sending ether bp] = [bp.id] := by
  unfold sending
  split
  · rfl
  · rfl

theorem etheroq_spec {kern : Kernel} {ether : Ether} {bp : Block} {s : State}
    (hlive : bp.id < s.next) :
    ∃ evs, Sent kern ether bp s evs (etheroq kern ether bp s).2 := by
  obtain ⟨s1, hs1⟩ : ∃ s1, s1 = if tome ether bp || decide (bp.pkt.d = ether.bcast) ||
        decide (ether.prom ≠ 0) then
      (etheriq kern ether bp false { s with outpackets := s.outpackets + 1 }).2
    else { s with outpackets := s.outpackets + 1 } := ⟨_, rfl⟩
  have hlog := etheroq_log kern ether bp s s1 hs1
  by_cases hheard : bp.pkt.d = ether.ea ∨ bp.pkt.d = ether.bcast ∨ ether.prom ≠ 0
  · rw [if_pos (by simpa [tome, or_assoc] using hheard)] at hs1
    obtain ⟨evs, h⟩ := etheriq_spec kern ether bp false
      { s with outpackets := s.outpackets + 1 }
    rw [h.returned, ← hs1] at h
    refine ⟨evs, ?_, ?_, fun _ => ⟨s1, h.log, h.counts, h.served, h.others, h.le, h.ids,
      h.disposed, rfl⟩, fun hno => absurd hheard hno⟩
    · rw [hlog, h.log, List.append_assoc]
    · rw [ids_append, ids_sending, h.ids, if_neg Bool.false_ne_true, List.append_nil,
        List.nodup_append]
      refine ⟨List.nodup_range' .., List.pairwise_singleton .., fun i hi j hj => ?_⟩
      have hle := (List.mem_range'_1.1 hi).1
      rw [List.mem_singleton] at hj
      have hs : s.next ≤ i := hle
      omega
  · rw [if_neg (by simpa [tome, or_assoc] using hheard)] at hs1
    refine ⟨[], ?_, ?_, fun h => absurd h hheard, fun _ => rfl⟩
    · rw [hlog, hs1]
      rfl
    · rw [List.nil_append, ids_sending]
      exact List.pairwise_singleton ..

/-- `etheriq` gives the packet to each connection that it is for, as `Served` says,
and to no other, and it disposes of each block once: of the one passed in when it
is from the wire, which is returned otherwise, and of those that it allocates.
`etheroq` frees or writes each block once.  With the promise of `netif`, that
`prom` counts the promiscuous connections, the connections that the packet is for
are those of `Matches`. -/
theorem demultiplexed (kern : Kernel) (ether : Ether) (bp : Block) (s : State)
    (hlive : bp.id < s.next) :
    (∀ fromwire, ∃ evs,
      Demuxed kern ether bp fromwire s evs (etheriq kern ether bp fromwire s).1
        (etheriq kern ether bp fromwire s).2 ∧ (ids evs).Nodup) ∧
    (∀ fromwire f, ether.ea[0] &&& 1 = 0 → (f.prom = true → ether.prom ≠ 0) →
      (wanted kern ether bp fromwire f = true ↔ Matches kern ether bp fromwire f)) ∧
    ∃ evs, Sent kern ether bp s evs (etheroq kern ether bp s).2 := by
  refine ⟨fun fromwire => ?_, fun _ _ hea hprom => wanted_iff hea hprom, etheroq_spec hlive⟩
  obtain ⟨evs, h⟩ := etheriq_spec kern ether bp fromwire s
  exact ⟨evs, h, h.once hlive⟩

/-- A packet for everyone, of type 0x0800. -/
def hello : Block where
  id := 0
  mem := List.replicate 6 0xff ++ [2, 0, 0, 0, 0, 1] ++ [8, 0] ++ List.replicate 46 0
  wp := 60
  room := by decide

/-- An interface with one connection, for the headers of all packets. -/
def traced : Ether where
  ea := #v[2, 0, 0, 0, 0, 2]
  bcast := #v[0xff, 0xff, 0xff, 0xff, 0xff, 0xff]
  prom := 0
  f := [some ⟨-1, false, false, true⟩]
  transmit := true

/-- A kernel whose queues have this window. -/
def windows (n : Int) : Kernel where
  activemulti := fun _ => false
  answer := fun _ => ⟨n, some fun _ => 0, false⟩
  ms := 0

def start : State := ⟨0, 0, 0, 1, 0, []⟩

/-- An interface with a connection for the headers of all packets, one for packets of
another type, and two for packets of this one. -/
def several : Ether :=
  { traced with
    f := [some ⟨-1, false, false, true⟩, some ⟨0x806, false, false, false⟩, none,
      some ⟨0x800, false, false, false⟩, some ⟨0x800, true, true, false⟩] }

/-- The block that an event disposes of, and the connection it is about. -/
def dealt (e : Event) : Option Nat × Option Nat := (e.block.map Block.id, e.conn)

/-- The first connection gets the headers, the last a copy, and the one before it the
packet itself. -/
theorem demultiplexed_several :
    (etheriq (windows 1) several hello true start).2.log.map dealt =
      [(some 1, some 0), (some 2, some 4), (some 0, some 3)] ∧
    (∃ evs, Demuxed (windows 1) several hello true start evs
      (etheriq (windows 1) several hello true start).1
      (etheriq (windows 1) several hello true start).2 ∧ (ids evs).Nodup) ∧
    ∃ evs, Sent (windows 1) several hello start evs
      (etheroq (windows 1) several hello start).2 := by
  obtain ⟨hin, _, hout⟩ := demultiplexed (windows 1) several hello start (by decide)
  exact ⟨by decide +kernel, hin true, hout⟩

/-- With no window the connection gets no trace of it, and nothing is counted. -/
theorem untraced_uncounted :
    traced.f[0]? = some (some ⟨-1, false, false, true⟩) ∧
      Matches (windows 0) traced hello true ⟨-1, false, false, true⟩ ∧
      (etheriq (windows 0) traced hello true start).2.log = [.freed hello] ∧
      (etheriq (windows 0) traced hello true start).2.soverflows = start.soverflows := by
  refine ⟨rfl, ⟨.inr (by decide), .inr (.inl ⟨by decide +kernel, .inl ?_⟩), by decide⟩,
    ?_, ?_⟩
  · decide +kernel
  · rfl
  · rfl

end Kirkwood.Ports.DevEther
