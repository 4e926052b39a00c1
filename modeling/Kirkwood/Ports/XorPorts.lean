import Kirkwood.Verified.Alloc
import Kirkwood.Verified.Trans

/-!
# The ports of the XOR engines

`xor.c` has four ports, two for each of two engines.  `portget` searches them
under the lock of `xor`, and sleeps on the rendezvous of `xor` while there is
none for it; `portput` frees a port and wakes the sleeper.  A port for memory
initialisation is lent only while the other port of its engine is not lent for
that, because the two share the registers `initvallo` and `initvalhi`.

A caller is anything that runs `meminitdma`, or one of the functions that take a
port for something else; it is somewhere in that function, or not in it.  Each
step is a statement of one caller, or the completion interrupt of a port.

## Main results

* `step_table`: a step leaves the table of ports as it is, lends a port that the
  search found, or takes one back;
* `step_inv`: the invariant of the callers, `Inv`;
* `run_exclusive`: one holder a port, marks that say who it is, one memory
  initialisation an engine, and registers that stay while it runs.
-/

namespace Kirkwood.Ports.XorPorts

open Kirkwood.Verified
open Kirkwood.Verified.Trans

/-! ## The code -/

/-- `Port.inuse`. -/
inductive Inuse where
  | Punused
  | Pother
  | Pmeminit
deriving DecidableEq, Repr

/-- An index into `xor.ports`. -/
abbrev Port := Fin 4

/-- The engine whose registers `er` points to. -/
def engine (p : Port) : Fin 2 := ⟨p.val / 2, by omega⟩

/-- What a caller takes a port for: `meminitdma` with its value, or else. -/
inductive Req where
  | meminit (v : BitVec 64)
  | other
deriving DecidableEq, Repr

/-- `ismeminit ? Pmeminit : Pother` -/
def Req.kind : Req → Inuse
  | .meminit _ => .Pmeminit
  | .other => .Pother

/-- `meminitport`, on the two ports from `p` on. -/
def meminitport (inuse : Port → Inuse) (p : Port) : Option Port :=
  if inuse p = .Punused ∧ inuse (p + 1) ≠ .Pmeminit then some p
  else if inuse (p + 1) = .Punused ∧ inuse p ≠ .Pmeminit then some (p + 1)
  else none

/-- The search of `portget`; it starts with `p` nil, since the loop ends where
`p` is not. -/
def search (inuse : Port → Inuse) : Req → Option Port
  | .meminit _ =>
    match meminitport inuse 0 with
    | some p => some p
    | none => meminitport inuse 2
  | .other => (List.finRange 4).find? fun i => inuse i = .Punused

/-- Where a caller is. -/
inductive Pc where
  | idle
  /-- `portget`, before `qlock` -/
  | getlock (r : Req)
  | search (r : Req)
  /-- after `break`, before the port is marked -/
  | found (r : Req) (p : Port)
  /-- before the last `qunlock` of `portget` -/
  | getunlock (r : Req) (p : Port)
  /-- nothing found, before `qunlock` -/
  | failunlock (r : Req)
  /-- before `sleep` -/
  | tosleep (r : Req)
  | asleep (r : Req)
  /-- `portget` has returned the port -/
  | held (r : Req) (p : Port)
  /-- `meminitdma`, after the store to `initvallo` -/
  | lo (v : BitVec 64) (p : Port)
  /-- `meminitdma`, after the store to `initvalhi` -/
  | hi (v : BitVec 64) (p : Port)
  /-- after `act = XEstart`, waiting for `done` -/
  | started (r : Req) (p : Port)
  /-- `portput`, before `qlock` -/
  | putlock (r : Req) (p : Port)
  /-- before `p->inuse = 0` -/
  | putfree (r : Req) (p : Port)
  /-- before `wakeup` -/
  | putwake
  /-- before the `qunlock` of `portput` -/
  | putunlock
deriving DecidableEq, Repr

/-- `xor` with its lock and rendezvous, and the registers of ports and engines.
`panicked` is the kernel's panic at a second sleeper. -/
structure Shared where
  inuse : Port → Inuse
  done : Port → Bool
  lock : Option Nat
  rendez : Option Nat
  act : Port → Bool
  initvallo : Fin 2 → BitVec 32
  initvalhi : Fin 2 → BitVec 32
  panicked : Bool

structure State where
  sh : Shared
  procs : Nat → Pc

/-- The next statement of caller `i`, and whom it wakes. -/
def move (s : Shared) (i : Nat) : Pc → Option (Shared × Pc × Option Nat)
  | .idle => none
  | .getlock r =>
    if s.lock = none then some ({ s with lock := some i }, .search r, none) else none
  | .search r =>
    match search s.inuse r with
    | some p => some (s, .found r p, none)
    | none => some (s, .failunlock r, none)
  | .found r p =>
    some ({ s with
      inuse := Function.update s.inuse p r.kind
      done := Function.update s.done p false }, .getunlock r p, none)
  | .getunlock r p => some ({ s with lock := none }, .held r p, none)
  | .failunlock r => some ({ s with lock := none }, .tosleep r, none)
  -- the condition of `sleep` is `return0`
  | .tosleep r =>
    match s.rendez with
    | none => some ({ s with rendez := some i }, .asleep r, none)
    | some _ => some ({ s with panicked := true }, .asleep r, none)
  | .asleep _ => none
  | .held (.meminit v) p =>
    some ({ s with
      initvallo := Function.update s.initvallo (engine p) (v.setWidth 32) },
      .lo v p, none)
  | .held .other p =>
    some ({ s with act := Function.update s.act p true }, .started .other p, none)
  | .lo v p =>
    some ({ s with
      initvalhi := Function.update s.initvalhi (engine p) ((v >>> 32).setWidth 32) },
      .hi v p, none)
  | .hi v p =>
    some ({ s with act := Function.update s.act p true }, .started (.meminit v) p,
      none)
  | .started r p => if s.done p = true then some (s, .putlock r p, none) else none
  | .putlock r p =>
    if s.lock = none then some ({ s with lock := some i }, .putfree r p, none)
    else none
  | .putfree _ p =>
    some ({ s with inuse := Function.update s.inuse p .Punused }, .putwake, none)
  | .putwake => some ({ s with rendez := none }, .putunlock, s.rendez)
  | .putunlock => some ({ s with lock := none }, .idle, none)

/-- A caller that is woken goes back to the top of the loop. -/
def Pc.wake : Pc → Pc
  | .asleep r => .getlock r
  | pc => pc

def wakeup (w : Option Nat) (procs : Nat → Pc) (k : Nat) : Pc :=
  if w = some k then (procs k).wake else procs k

/-- A caller calls a function that takes a port; does its next statement; a port
completes (`xorintr`). -/
inductive Action where
  | call (i : Nat) (r : Req)
  | next (i : Nat)
  | complete (p : Port)
deriving DecidableEq, Repr

def step (s : State) (a : Action) : Option State :=
  if s.sh.panicked then none
  else
    match a with
    | .call i r =>
      match s.procs i with
      | .idle => some { s with procs := Function.update s.procs i (.getlock r) }
      | _ => none
    | .next i =>
      match move s.sh i (s.procs i) with
      | none => none
      | some (sh, pc, w) =>
        some { sh := sh, procs := Function.update (wakeup w s.procs) i pc }
    | .complete p =>
      if s.sh.act p then
        some { s with sh := { s.sh with
          act := Function.update s.sh.act p false
          done := Function.update s.sh.done p true } }
      else none

/-- No port in use and nobody in `portget` or `portput`; the engines' registers
hold anything. -/
def init (initvallo initvalhi : Fin 2 → BitVec 32) : State :=
  { sh := {
      inuse := fun _ => .Punused
      done := fun _ => false
      lock := none
      rendez := none
      act := fun _ => false
      initvallo := initvallo
      initvalhi := initvalhi
      panicked := false }
    procs := fun _ => .idle }

/-! ## What the search finds -/

theorem meminitport_free {inuse : Port → Inuse} {b p : Port}
    (h : meminitport inuse b = some p) :
    inuse p = .Punused ∧ (p = b ∧ inuse (b + 1) ≠ .Pmeminit ∨
      p = b + 1 ∧ inuse b ≠ .Pmeminit) := by
  unfold meminitport at h
  by_cases h0 : inuse b = .Punused ∧ inuse (b + 1) ≠ .Pmeminit
  · rw [if_pos h0] at h
    cases h
    exact ⟨h0.1, .inl ⟨rfl, h0.2⟩⟩
  · rw [if_neg h0] at h
    by_cases h1 : inuse (b + 1) = .Punused ∧ inuse b ≠ .Pmeminit
    · rw [if_pos h1] at h
      cases h
      exact ⟨h1.1, .inr ⟨rfl, h1.2⟩⟩
    · rw [if_neg h1] at h
      cases h

theorem search_meminit {inuse : Port → Inuse} {v : BitVec 64} {p : Port}
    (h : search inuse (.meminit v) = some p) :
    meminitport inuse 0 = some p ∨ meminitport inuse 2 = some p := by
  unfold search at h
  cases h0 : meminitport inuse 0 with
  | some q =>
      rw [h0] at h
      exact .inl h
  | none =>
      rw [h0] at h
      exact .inr h

/-- The port found is not in use. -/
theorem search_free (inuse : Port → Inuse) (r : Req) (p : Port)
    (h : search inuse r = some p) : inuse p = .Punused := by
  cases r with
  | meminit v =>
      obtain h | h := search_meminit h
      · exact (meminitport_free h).1
      · exact (meminitport_free h).1
  | other =>
      have hp : (List.finRange 4).find? (fun i => decide (inuse i = .Punused)) =
        some p := h
      exact of_decide_eq_true
        (List.find?_some (p := fun i => decide (inuse i = .Punused)) hp)

/-- No engine has both ports in use for memory initialisation. -/
def Pair (inuse : Port → Inuse) : Prop :=
  ∀ p q, p ≠ q → engine p = engine q →
    ¬ (inuse p = .Pmeminit ∧ inuse q = .Pmeminit)

/-- The other port of the engine is not in use for memory initialisation. -/
private theorem search_pair {inuse : Port → Inuse} {v : BitVec 64} {p q : Port}
    (h : search inuse (.meminit v) = some p) (hne : q ≠ p)
    (he : engine q = engine p) : inuse q ≠ .Pmeminit := by
  have hmate : ∀ b : Port, b = 0 ∨ b = 2 → meminitport inuse b = some p →
      inuse q ≠ .Pmeminit := by
    intro b hb hport
    have hother : ∀ b p q : Port, b = 0 ∨ b = 2 → q ≠ p → engine q = engine p →
        (p = b → q = b + 1) ∧ (p = b + 1 → q = b) := by
      decide
    obtain ⟨_, ⟨hp, hm⟩ | ⟨hp, hm⟩⟩ := meminitport_free hport
    · rwa [(hother b p q hb hne he).1 hp]
    · rwa [(hother b p q hb hne he).2 hp]
  obtain h | h := search_meminit h
  · exact hmate 0 (.inl rfl) h
  · exact hmate 2 (.inr rfl) h

/-- Marking the port found keeps the pairs apart. -/
theorem pair_get (inuse : Port → Inuse) (r : Req) (p : Port) (hp : Pair inuse)
    (h : search inuse r = some p) : Pair (Function.update inuse p r.kind) := by
  intro a b hab he hboth
  by_cases ha : a = p
  · have hb : b ≠ p := fun hb => hab (ha.trans hb.symm)
    rw [ha, Function.update_self, Function.update_of_ne hb] at hboth
    cases r with
    | meminit v => exact search_pair h hb (he ▸ ha ▸ rfl) hboth.2
    | other => exact absurd hboth.1 (by decide)
  · rw [Function.update_of_ne ha] at hboth
    by_cases hb : b = p
    · rw [hb, Function.update_self] at hboth
      cases r with
      | meminit v => exact search_pair h ha (he.trans (hb ▸ rfl)) hboth.1
      | other => exact absurd hboth.2 (by decide)
    · rw [Function.update_of_ne hb] at hboth
      exact hp a b hab he hboth

theorem pair_put (inuse : Port → Inuse) (p : Port) (hp : Pair inuse) :
    Pair (Function.update inuse p .Punused) := by
  have hkept : ∀ q, Function.update inuse p .Punused q = .Pmeminit →
      inuse q = .Pmeminit := by
    intro q hq
    by_cases hqp : q = p
    · rw [hqp, Function.update_self] at hq
      cases hq
    · rwa [Function.update_of_ne hqp] at hq
  intro a b hab he hboth
  exact hp a b hab he ⟨hkept a hboth.1, hkept b hboth.2⟩

theorem kind_ne (r : Req) : r.kind ≠ .Punused := by
  cases r with
  | meminit v => exact nofun
  | other => exact nofun

/-! ## Where a caller is -/

namespace Pc

/-- The port a caller has, from the store that marks it to the one that frees
it. -/
def port : Pc → Option (Req × Port)
  | .getunlock r p | .held r p | .started r p | .putlock r p | .putfree r p =>
    some (r, p)
  | .lo v p | .hi v p => some (.meminit v, p)
  | _ => none

/-- Between `qlock` and `qunlock`. -/
def inLock : Pc → Bool
  | .search _ | .found _ _ | .getunlock _ _ | .failunlock _ | .putfree _ _
  | .putwake | .putunlock => true
  | _ => false

@[simp] theorem port_wake (pc : Pc) : pc.wake.port = pc.port := by
  cases pc <;> rfl

@[simp] theorem inLock_wake (pc : Pc) : pc.wake.inLock = pc.inLock := by
  cases pc <;> rfl

end Pc

/-- The halves of the value of a memory initialisation. -/
def Loaded (s : Shared) (v : BitVec 64) (p : Port) : Prop :=
  s.initvallo (engine p) = v.setWidth 32 ∧
    s.initvalhi (engine p) = (v >>> 32).setWidth 32

/-- What a caller relies on where it is. -/
def Local (s : Shared) : Pc → Prop
  | .found r p => search s.inuse r = some p
  | .getunlock _ p | .held _ p => s.done p = false ∧ s.act p = false
  | .lo v p =>
    (s.done p = false ∧ s.act p = false) ∧ s.initvallo (engine p) = v.setWidth 32
  | .hi v p => (s.done p = false ∧ s.act p = false) ∧ Loaded s v p
  | .started (.meminit v) p => Loaded s v p
  | _ => True

theorem local_wake {s : Shared} {pc : Pc} (h : Local s pc) : Local s pc.wake := by
  cases pc with
  | asleep r => trivial
  | _ => exact h

/-- The table of ports. -/
def table (s : State) : Alloc.Table Nat Port Req Inuse where
  holder i := (s.procs i).port
  mark := s.sh.inuse

/-- The ports have one holder each, the lock is with the one caller that is past
it, callers find what they rely on, and a busy port is one whose caller waits for
it. -/
structure Inv (s : State) : Prop where
  excl : Alloc.Exclusive .Punused Req.kind (table s)
  pair : Pair s.sh.inuse
  lock : ∀ i, (s.procs i).inLock = true ↔ s.sh.lock = some i
  here : ∀ i, Local s.sh (s.procs i)
  busy : ∀ p, s.sh.act p = true → s.sh.done p = false ∧
    ∃ i r, s.procs i = .started r p

/-! ## One statement -/

/-- What a statement does when it can be taken. -/
inductive Moved (s : Shared) (i : Nat) : Pc → Shared → Pc → Option Nat → Prop where
  | getlock (r : Req) : s.lock = none →
      Moved s i (.getlock r) { s with lock := some i } (.search r) none
  | hit {r : Req} {p : Port} : search s.inuse r = some p →
      Moved s i (.search r) s (.found r p) none
  | miss {r : Req} : search s.inuse r = none →
      Moved s i (.search r) s (.failunlock r) none
  | mark (r : Req) (p : Port) : Moved s i (.found r p)
      { s with
        inuse := Function.update s.inuse p r.kind
        done := Function.update s.done p false } (.getunlock r p) none
  | getunlock (r : Req) (p : Port) :
      Moved s i (.getunlock r p) { s with lock := none } (.held r p) none
  | failunlock (r : Req) :
      Moved s i (.failunlock r) { s with lock := none } (.tosleep r) none
  | sleep (r : Req) : s.rendez = none →
      Moved s i (.tosleep r) { s with rendez := some i } (.asleep r) none
  | panic (r : Req) (j : Nat) : s.rendez = some j →
      Moved s i (.tosleep r) { s with panicked := true } (.asleep r) none
  | storelo (v : BitVec 64) (p : Port) : Moved s i (.held (.meminit v) p)
      { s with
        initvallo := Function.update s.initvallo (engine p) (v.setWidth 32) }
      (.lo v p) none
  | storehi (v : BitVec 64) (p : Port) : Moved s i (.lo v p)
      { s with initvalhi :=
          Function.update s.initvalhi (engine p) ((v >>> 32).setWidth 32) }
      (.hi v p) none
  | start {pc : Pc} {r : Req} {p : Port} :
      (pc = .held .other p ∧ r = .other) ∨
        (∃ v, pc = .hi v p ∧ r = .meminit v) →
      Moved s i pc { s with act := Function.update s.act p true } (.started r p) none
  | finish {r : Req} {p : Port} : s.done p = true →
      Moved s i (.started r p) s (.putlock r p) none
  | putlock (r : Req) (p : Port) : s.lock = none →
      Moved s i (.putlock r p) { s with lock := some i } (.putfree r p) none
  | free (r : Req) (p : Port) : Moved s i (.putfree r p)
      { s with inuse := Function.update s.inuse p .Punused } .putwake none
  | wake : Moved s i .putwake { s with rendez := none } .putunlock s.rendez
  | putunlock : Moved s i .putunlock { s with lock := none } .idle none

theorem moved_of_move {s s' : Shared} {i : Nat} {pc pc' : Pc} {w : Option Nat}
    (h : move s i pc = some (s', pc', w)) : Moved s i pc s' pc' w := by
  cases pc with
  | idle => cases h
  | getlock r =>
      simp only [move] at h
      split at h
      · cases h
        exact .getlock r ‹_›
      · cases h
  | search r =>
      simp only [move] at h
      split at h
      · cases h
        exact .hit ‹_›
      · cases h
        exact .miss ‹_›
  | found r p =>
      cases h
      exact .mark r p
  | getunlock r p =>
      cases h
      exact .getunlock r p
  | failunlock r =>
      cases h
      exact .failunlock r
  | tosleep r =>
      simp only [move] at h
      split at h
      · cases h
        exact .sleep r ‹_›
      · cases h
        exact .panic r _ ‹_›
  | asleep r => cases h
  | held r p =>
      cases r with
      | meminit v =>
          cases h
          exact .storelo v p
      | other =>
          cases h
          exact .start (.inl ⟨rfl, rfl⟩)
  | lo v p =>
      cases h
      exact .storehi v p
  | hi v p =>
      cases h
      exact .start (.inr ⟨v, rfl, rfl⟩)
  | started r p =>
      simp only [move] at h
      split at h
      · cases h
        exact .finish ‹_›
      · cases h
  | putlock r p =>
      simp only [move] at h
      split at h
      · cases h
        exact .putlock r p ‹_›
      · cases h
  | putfree r p =>
      cases h
      exact .free r p
  | putwake =>
      cases h
      exact .wake
  | putunlock =>
      cases h
      exact .putunlock

section
variable {s s' : Shared} {i : Nat} {pc pc' : Pc} {w : Option Nat}

/-- A statement keeps the port of its caller, marks the one found, or frees it. -/
theorem moved_port (h : Moved s i pc s' pc' w) :
    (pc'.port = pc.port ∧ s'.inuse = s.inuse) ∨
    (∃ r p, pc = .found r p ∧ pc' = .getunlock r p ∧
      s'.inuse = Function.update s.inuse p r.kind) ∨
    (∃ r p, pc = .putfree r p ∧ pc' = .putwake ∧
      s'.inuse = Function.update s.inuse p .Punused) := by
  cases h with
  | mark r p => exact .inr (.inl ⟨r, p, rfl, rfl, rfl⟩)
  | free r p => exact .inr (.inr ⟨r, p, rfl, rfl, rfl⟩)
  | start hpc =>
      obtain ⟨rfl, rfl⟩ | ⟨v, rfl, rfl⟩ := hpc
      · exact .inl ⟨rfl, rfl⟩
      · exact .inl ⟨rfl, rfl⟩
  | _ => exact .inl ⟨rfl, rfl⟩

/-- A statement leaves the lock alone, takes it free, or gives it back. -/
theorem moved_lock (h : Moved s i pc s' pc' w) :
    (pc'.inLock = pc.inLock ∧ s'.lock = s.lock) ∨
    (s.lock = none ∧ pc'.inLock = true ∧ s'.lock = some i) ∨
    (pc.inLock = true ∧ pc'.inLock = false ∧ s'.lock = none) := by
  cases h with
  | getlock r hl => exact .inr (.inl ⟨hl, rfl, rfl⟩)
  | putlock r p hl => exact .inr (.inl ⟨hl, rfl, rfl⟩)
  | getunlock r p => exact .inr (.inr ⟨rfl, rfl, rfl⟩)
  | failunlock r => exact .inr (.inr ⟨rfl, rfl, rfl⟩)
  | putunlock => exact .inr (.inr ⟨rfl, rfl, rfl⟩)
  | start hpc =>
      obtain ⟨rfl, rfl⟩ | ⟨v, rfl, rfl⟩ := hpc
      · exact .inl ⟨rfl, rfl⟩
      · exact .inl ⟨rfl, rfl⟩
  | _ => exact .inl ⟨rfl, rfl⟩

/-- The caller finds at the next statement what it relies on there; a free port
is not busy. -/
theorem moved_local (h : Moved s i pc s' pc' w) (hl : Local s pc)
    (hfree : ∀ r p, pc = .found r p → s.act p = false) : Local s' pc' := by
  cases h with
  | hit hs => exact hs
  | mark r p => exact ⟨Function.update_self .., hfree r p rfl⟩
  | getunlock r p => exact hl
  | storelo v p => exact ⟨hl, Function.update_self ..⟩
  | storehi v p => exact ⟨hl.1, hl.2, Function.update_self ..⟩
  | start hpc =>
      obtain ⟨rfl, rfl⟩ | ⟨v, rfl, rfl⟩ := hpc
      · trivial
      · exact hl.2
  | _ => trivial

/-- A statement leaves the other ports and the registers of other engines alone,
and the marks unless its caller has the lock. -/
theorem moved_frame (h : Moved s i pc s' pc' w) :
    (∀ q, (∀ r, pc ≠ .found r q) → s'.done q = s.done q) ∧
    (∀ q, (∀ r, pc.port ≠ some (r, q)) → s'.act q = s.act q) ∧
    (∀ e, (∀ v p, pc.port = some (.meminit v, p) → engine p ≠ e) →
      s'.initvallo e = s.initvallo e ∧ s'.initvalhi e = s.initvalhi e) ∧
    (pc.inLock = false → s'.inuse = s.inuse) := by
  cases h with
  | mark r p =>
      refine ⟨fun q hq => ?_, fun _ _ => rfl, fun _ _ => ⟨rfl, rfl⟩, nofun⟩
      exact Function.update_of_ne (fun hqp : q = p => hq r (by rw [hqp])) ..
  | free r p => exact ⟨fun _ _ => rfl, fun _ _ => rfl, fun _ _ => ⟨rfl, rfl⟩, nofun⟩
  | storelo v p =>
      refine ⟨fun _ _ => rfl, fun _ _ => rfl, fun e he => ⟨?_, rfl⟩, fun _ => rfl⟩
      exact Function.update_of_ne (he v p rfl).symm ..
  | storehi v p =>
      refine ⟨fun _ _ => rfl, fun _ _ => rfl, fun e he => ⟨rfl, ?_⟩, fun _ => rfl⟩
      exact Function.update_of_ne (he v p rfl).symm ..
  | @start _ r p hpc =>
      refine ⟨fun _ _ => rfl, fun q hq => ?_, fun _ _ => ⟨rfl, rfl⟩, fun _ => rfl⟩
      apply Function.update_of_ne
      rintro rfl
      obtain ⟨rfl, rfl⟩ | ⟨v, rfl, rfl⟩ := hpc
      · exact hq _ rfl
      · exact hq _ rfl
  | _ => exact ⟨fun _ _ => rfl, fun _ _ => rfl, fun _ _ => ⟨rfl, rfl⟩, fun _ => rfl⟩

/-- A port that is busy after a statement was so before, or its caller has
started it. -/
theorem moved_act (h : Moved s i pc s' pc' w) (hl : Local s pc) {p : Port}
    (hp : s'.act p = true) :
    s.act p = true ∨ (s'.done p = false ∧ ∃ r, pc' = .started r p) := by
  cases h with
  | @start _ r q hpc =>
      by_cases hpq : p = q
      · subst hpq
        refine .inr ⟨?_, r, rfl⟩
        obtain ⟨rfl, rfl⟩ | ⟨v, rfl, rfl⟩ := hpc
        · exact hl.1
        · exact hl.1.1
      · refine .inl ?_
        have hact : Function.update s.act q true p = true := hp
        rwa [Function.update_of_ne hpq] at hact
  | _ => exact .inl hp

/-- The caller of a port waits for it until it is done. -/
theorem moved_started {r : Req} {p : Port} (h : Moved s i (.started r p) s' pc' w) :
    s.done p = true := by
  cases h with
  | start hpc =>
      obtain ⟨heq, _⟩ | ⟨v, heq, _⟩ := hpc
      · cases heq
      · cases heq
  | finish hd => exact hd

end

/-! ## One step -/

/-- What a step does. -/
theorem step_did {s s' : State} {a : Action} (h : step s a = some s') :
    (∃ i r, a = .call i r ∧ s.procs i = .idle ∧
      s' = { s with procs := Function.update s.procs i (.getlock r) }) ∨
    (∃ i sh pc w, a = .next i ∧ Moved s.sh i (s.procs i) sh pc w ∧
      s' = { sh := sh, procs := Function.update (wakeup w s.procs) i pc }) ∨
    (∃ p, a = .complete p ∧ s.sh.act p = true ∧
      s' = { s with sh := { s.sh with
        act := Function.update s.sh.act p false
        done := Function.update s.sh.done p true } }) := by
  unfold step at h
  split at h
  · cases h
  · cases a with
    | call i r =>
        simp only at h
        split at h
        · cases h
          exact .inl ⟨i, r, rfl, ‹_›, rfl⟩
        · cases h
    | next i =>
        simp only at h
        split at h
        · cases h
        · cases h
          exact .inr (.inl ⟨i, _, _, _, rfl, moved_of_move ‹_›, rfl⟩)
    | complete p =>
        simp only at h
        split at h
        · cases h
          exact .inr (.inr ⟨p, rfl, ‹_›, rfl⟩)
        · cases h

/-- Another caller stays where it is, or is woken. -/
theorem procs_other (procs : Nat → Pc) (w : Option Nat) {i k : Nat} (pc : Pc)
    (hk : k ≠ i) :
    Function.update (wakeup w procs) i pc k = procs k ∨
      Function.update (wakeup w procs) i pc k = (procs k).wake := by
  rw [Function.update_of_ne hk, wakeup]
  by_cases hw : w = some k
  · exact .inr (if_pos hw)
  · exact .inl (if_neg hw)

/-- The ports of the callers after a statement of one of them. -/
theorem table_next (s : State) (sh : Shared) (i : Nat) (pc : Pc) (w : Option Nat) :
    table { sh := sh, procs := Function.update (wakeup w s.procs) i pc } =
      { holder := Function.update (table s).holder i pc.port, mark := sh.inuse } := by
  unfold table
  congr 1
  funext k
  show (Function.update (wakeup w s.procs) i pc k).port =
    Function.update (fun i => (s.procs i).port) i pc.port k
  by_cases hk : k = i
  · rw [hk, Function.update_self, Function.update_self]
  · obtain hpc | hpc := procs_other s.procs w pc hk
    · rw [hpc, Function.update_of_ne hk]
    · rw [hpc, Pc.port_wake, Function.update_of_ne hk]

/-- A step leaves the table as it is, lends the port found, or takes one back. -/
theorem step_table {s s' : State} {a : Action} (hinv : Inv s)
    (h : step s a = some s') :
    Alloc.Change .Punused Req.kind search (table s) (table s') := by
  obtain ⟨i, r, rfl, hpc, rfl⟩ | ⟨i, sh, pc, w, rfl, hm, rfl⟩ | ⟨p, rfl, _, rfl⟩ :=
    step_did h
  · have hsame : table { s with procs := Function.update s.procs i (.getlock r) } =
        table s := by
      unfold table
      congr 1
      funext k
      show (Function.update s.procs i (.getlock r) k).port = (s.procs k).port
      by_cases hk : k = i
      · rw [hk, Function.update_self, hpc]
        rfl
      · rw [Function.update_of_ne hk]
    rw [hsame]
    exact .same _
  · rw [table_next]
    obtain ⟨hport, huse⟩ | ⟨r, p, hpc, rfl, huse⟩ | ⟨r, p, hpc, rfl, huse⟩ :=
      moved_port hm
    · have hself : Function.update (table s).holder i pc.port = (table s).holder := by
        rw [hport]
        exact Function.update_eq_self i (table s).holder
      rw [hself, huse]
      exact .same _
    · rw [huse]
      have hhere := hinv.here i
      rw [hpc] at hhere
      refine .get ?_ hhere
      show (s.procs i).port = none
      rw [hpc]
      rfl
    · rw [huse]
      refine .put (k := r) ?_
      show (s.procs i).port = some (r, p)
      rw [hpc]
      rfl
  · exact .same _

/-! ## The invariant -/

namespace Inv
variable {s : State}

/-- Nobody has a free port. -/
theorem no_port (h : Inv s) {p : Port} (hp : s.sh.inuse p = .Punused) (k : Nat)
    (r : Req) : (s.procs k).port ≠ some (r, p) :=
  h.excl.no_holder kind_ne hp k r

/-- A free port is not busy. -/
theorem free_idle (h : Inv s) {p : Port} (hp : s.sh.inuse p = .Punused) :
    s.sh.act p = false := by
  cases hact : s.sh.act p with
  | false => rfl
  | true =>
      obtain ⟨_, k, r, hk⟩ := h.busy p hact
      refine absurd ?_ (h.no_port hp k r)
      rw [hk]
      rfl

/-- The port a caller is about to mark is free. -/
theorem found_free (h : Inv s) {i : Nat} {r : Req} {p : Port}
    (hi : s.procs i = .found r p) : s.sh.inuse p = .Punused := by
  have hl := h.here i
  rw [hi] at hl
  exact search_free _ _ _ hl

/-- A caller with a port keeps the others from it. -/
theorem apart (h : Inv s) {i k : Nat} {r : Req} {p : Port} (hik : i ≠ k)
    (hk : (s.procs k).port = some (r, p)) :
    (∀ q, s.procs i ≠ .found q p) ∧ ∀ q, (s.procs i).port ≠ some (q, p) := by
  constructor
  · intro q hi
    exact h.no_port (h.found_free hi) k r hk
  · intro q hi
    exact hik (h.excl.one hi hk)

/-- A caller with a port for memory initialisation keeps the others from the
registers of its engine. -/
theorem apart_engine (h : Inv s) {i k : Nat} {v : BitVec 64} {p : Port}
    (hik : i ≠ k) (hk : (s.procs k).port = some (.meminit v, p)) (v' : BitVec 64)
    (p' : Port) (hi : (s.procs i).port = some (.meminit v', p')) :
    engine p' ≠ engine p := by
  intro he
  by_cases hp : p' = p
  · exact (h.apart hik hk).2 _ (hp ▸ hi)
  · exact h.pair p' p hp he ⟨h.excl.marked hi, h.excl.marked hk⟩

/-- What another caller relies on stays. -/
theorem local_other (h : Inv s) {i k : Nat} {sh : Shared} {pc : Pc} {w : Option Nat}
    (hm : Moved s.sh i (s.procs i) sh pc w) (hik : i ≠ k) : Local sh (s.procs k) := by
  obtain ⟨hdone, hact, hregs, huse⟩ := moved_frame hm
  have hl := h.here k
  have hstill : ∀ {r p}, (s.procs k).port = some (r, p) →
      s.sh.done p = false ∧ s.sh.act p = false → sh.done p = false ∧ sh.act p = false := by
    intro r p hk hp
    obtain ⟨hfound, hport⟩ := h.apart hik hk
    rwa [hdone p hfound, hact p hport]
  have hload : ∀ {v p}, (s.procs k).port = some (.meminit v, p) →
      sh.initvallo (engine p) = s.sh.initvallo (engine p) ∧
        sh.initvalhi (engine p) = s.sh.initvalhi (engine p) :=
    fun hk => hregs _ (h.apart_engine hik hk)
  cases hk : s.procs k with
  | found r p =>
      rw [hk] at hl
      have hlock : s.sh.lock = some k := (h.lock k).1 (by rw [hk]; rfl)
      have hout : (s.procs i).inLock = false := by
        cases hin : (s.procs i).inLock with
        | false => rfl
        | true =>
            have hi := (h.lock i).1 hin
            rw [hlock, Option.some.injEq] at hi
            exact absurd hi.symm hik
      show search sh.inuse r = some p
      rwa [huse hout]
  | getunlock r p =>
      rw [hk] at hl
      exact hstill (by rw [hk]; rfl) hl
  | held r p =>
      rw [hk] at hl
      exact hstill (by rw [hk]; rfl) hl
  | lo v p =>
      rw [hk] at hl
      have hport : (s.procs k).port = some (.meminit v, p) := by rw [hk]; rfl
      exact ⟨hstill hport hl.1, (hload hport).1.trans hl.2⟩
  | hi v p =>
      rw [hk] at hl
      have hport : (s.procs k).port = some (.meminit v, p) := by rw [hk]; rfl
      exact ⟨hstill hport hl.1, (hload hport).1.trans hl.2.1,
        (hload hport).2.trans hl.2.2⟩
  | started r p =>
      rw [hk] at hl
      cases r with
      | meminit v =>
          have hport : (s.procs k).port = some (.meminit v, p) := by rw [hk]; rfl
          exact ⟨(hload hport).1.trans hl.1, (hload hport).2.trans hl.2⟩
      | other => trivial
  | _ => trivial

end Inv

section
variable {s : State} {i : Nat} {sh : Shared} {pc : Pc} {w : Option Nat}

private theorem complete_here (h : Inv s) {p : Port} (hp : s.sh.act p = true)
    (k : Nat) :
    Local { s.sh with
      act := Function.update s.sh.act p false
      done := Function.update s.sh.done p true } (s.procs k) := by
  have hl := h.here k
  have hstill : ∀ {q}, s.sh.done q = false ∧ s.sh.act q = false →
      Function.update s.sh.done p true q = false ∧
        Function.update s.sh.act p false q = false := by
    intro q hq
    have hqp : q ≠ p := by
      rintro rfl
      rw [hp] at hq
      cases hq.2
    rwa [Function.update_of_ne hqp, Function.update_of_ne hqp]
  cases hk : s.procs k with
  | getunlock r q => exact hstill (by rwa [hk] at hl)
  | held r q => exact hstill (by rwa [hk] at hl)
  | lo v q =>
      rw [hk] at hl
      exact ⟨hstill hl.1, hl.2⟩
  | hi v q =>
      rw [hk] at hl
      exact ⟨hstill hl.1, hl.2⟩
  | started r q =>
      rw [hk] at hl
      cases r with
      | meminit v => exact hl
      | other => trivial
  | _ =>
      rw [hk] at hl
      exact hl

private theorem next_lock (h : Inv s) (hm : Moved s.sh i (s.procs i) sh pc w)
    (k : Nat) :
    (Function.update (wakeup w s.procs) i pc k).inLock = true ↔ sh.lock = some k := by
  have hold : k ≠ i → (Function.update (wakeup w s.procs) i pc k).inLock =
      (s.procs k).inLock := by
    intro hk
    obtain hpc | hpc := procs_other s.procs w pc hk
    · rw [hpc]
    · rw [hpc, Pc.inLock_wake]
  obtain ⟨hin, hlock⟩ | ⟨hnone, hin, hlock⟩ | ⟨hwas, hin, hlock⟩ := moved_lock hm
  · rw [hlock, ← h.lock k]
    by_cases hk : k = i
    · rw [hk, Function.update_self, hin]
    · rw [hold hk]
  · rw [hlock]
    by_cases hk : k = i
    · rw [hk, Function.update_self, hin]
      exact iff_of_true rfl rfl
    · rw [hold hk, h.lock k, hnone]
      exact iff_of_false nofun fun heq => hk (Option.some.inj heq).symm
  · rw [hlock]
    by_cases hk : k = i
    · rw [hk, Function.update_self, hin]
      exact iff_of_false nofun nofun
    · rw [hold hk, h.lock k, (h.lock i).1 hwas]
      exact iff_of_false (fun heq => hk (Option.some.inj heq).symm) nofun

private theorem next_here (h : Inv s) (hm : Moved s.sh i (s.procs i) sh pc w)
    (k : Nat) : Local sh (Function.update (wakeup w s.procs) i pc k) := by
  by_cases hk : k = i
  · rw [hk, Function.update_self]
    exact moved_local hm (h.here i) fun r p hp => h.free_idle (h.found_free hp)
  · have hl := h.local_other hm (Ne.symm hk)
    obtain hpc | hpc := procs_other s.procs w pc hk
    · rw [hpc]
      exact hl
    · rw [hpc]
      exact local_wake hl

private theorem next_busy (h : Inv s) (hm : Moved s.sh i (s.procs i) sh pc w)
    (p : Port) (hp : sh.act p = true) : sh.done p = false ∧
      ∃ k r, Function.update (wakeup w s.procs) i pc k = .started r p := by
  obtain hbefore | ⟨hdone, r, rfl⟩ := moved_act hm (h.here i) hp
  · obtain ⟨hdone, k, r, hk⟩ := h.busy p hbefore
    by_cases hki : k = i
    · subst hki
      rw [hk] at hm
      rw [moved_started hm] at hdone
      cases hdone
    · have hport : (s.procs k).port = some (r, p) := by rw [hk]; rfl
      obtain ⟨hfound, _⟩ := h.apart (Ne.symm hki) hport
      refine ⟨((moved_frame hm).1 p hfound).trans hdone, k, r, ?_⟩
      obtain hpc | hpc := procs_other s.procs w pc hki
      · rw [hpc, hk]
      · rw [hpc, hk]
        rfl
  · exact ⟨hdone, i, r, Function.update_self ..⟩

end

theorem init_inv (lo hi : Fin 2 → BitVec 32) : Inv (init lo hi) where
  excl := {
    one := nofun
    marked := nofun
    owned := fun h => absurd rfl h }
  pair := by
    intro p q _ _ h
    cases h.1
  lock := fun _ => iff_of_false nofun nofun
  here := fun _ => trivial
  busy := nofun

/-- Every step keeps the invariant. -/
theorem step_inv {s s' : State} {a : Action} (hinv : Inv s)
    (h : step s a = some s') : Inv s' := by
  have htable := step_table hinv h
  have hexcl := htable.exclusive search_free kind_ne hinv.excl
  have hpair := htable.keeps pair_get pair_put hinv.pair
  obtain ⟨i, r, rfl, hpc, rfl⟩ | ⟨i, sh, pc, w, rfl, hm, rfl⟩ | ⟨p, rfl, hp, rfl⟩ :=
    step_did h
  · refine ⟨hexcl, hpair, fun k => ?_, fun k => ?_, fun p hp => ?_⟩
    · show (Function.update s.procs i (.getlock r) k).inLock = true ↔ _
      by_cases hk : k = i
      · have hlock := hinv.lock i
        rw [hpc] at hlock
        rw [hk, Function.update_self]
        exact hlock
      · rw [Function.update_of_ne hk]
        exact hinv.lock k
    · show Local s.sh (Function.update s.procs i (.getlock r) k)
      by_cases hk : k = i
      · rw [hk, Function.update_self]
        trivial
      · rw [Function.update_of_ne hk]
        exact hinv.here k
    · obtain ⟨hdone, k, q, hk⟩ := hinv.busy p hp
      refine ⟨hdone, k, q, ?_⟩
      have hki : k ≠ i := by
        rintro rfl
        rw [hpc] at hk
        cases hk
      show Function.update s.procs i (.getlock r) k = _
      rw [Function.update_of_ne hki, hk]
  · exact ⟨hexcl, hpair, next_lock hinv hm, next_here hinv hm, next_busy hinv hm⟩
  · refine ⟨hexcl, hpair, hinv.lock, complete_here hinv hp, fun q hq => ?_⟩
    have hq : Function.update s.sh.act p false q = true := hq
    have hqp : q ≠ p := by
      rintro rfl
      rw [Function.update_self] at hq
      cases hq
    rw [Function.update_of_ne hqp] at hq
    obtain ⟨hdone, k, r, hk⟩ := hinv.busy q hq
    exact ⟨(Function.update_of_ne hqp ..).trans hdone, k, r, hk⟩

/-! ## Exclusive ports -/

/-- What the ports promise their callers: one holder each, marks that say what
the holder has it for and 0 for the others, one memory initialisation an engine,
and while it runs the value it was started with in the engine's registers. -/
structure PortsOk (s : State) : Prop where
  one : ∀ i j p q r, (s.procs i).port = some (q, p) →
    (s.procs j).port = some (r, p) → i = j
  held : ∀ i p r, (s.procs i).port = some (r, p) → s.sh.inuse p = r.kind
  unused : ∀ p, (∀ i r, (s.procs i).port ≠ some (r, p)) → s.sh.inuse p = .Punused
  meminit : ∀ i j p q v w, (s.procs i).port = some (.meminit v, p) →
    (s.procs j).port = some (.meminit w, q) → engine p = engine q → i = j ∧ p = q
  value : ∀ p, s.sh.act p = true → s.sh.inuse p = .Pmeminit →
    ∃ i v, s.procs i = .started (.meminit v) p ∧ Loaded s.sh v p

/-- A step leaves the registers of an engine that runs a memory initialisation
alone. -/
def Unwritten (s : State) (a : Action) : Prop :=
  ∀ s', step s a = some s' → ∀ p, s.sh.act p = true → s.sh.inuse p = .Pmeminit →
    s'.sh.initvallo (engine p) = s.sh.initvallo (engine p) ∧
      s'.sh.initvalhi (engine p) = s.sh.initvalhi (engine p)

namespace Inv
variable {s : State}

/-- A busy port marked for memory initialisation has a caller that waits for
it. -/
theorem busy_meminit (h : Inv s) {p : Port} (hact : s.sh.act p = true)
    (huse : s.sh.inuse p = .Pmeminit) :
    ∃ i v, s.procs i = .started (.meminit v) p ∧ Loaded s.sh v p := by
  obtain ⟨_, i, r, hi⟩ := h.busy p hact
  have hport : (s.procs i).port = some (r, p) := by rw [hi]; rfl
  have hmark : s.sh.inuse p = r.kind := h.excl.marked hport
  cases r with
  | meminit v =>
      have hl := h.here i
      rw [hi] at hl
      exact ⟨i, v, hi, hl⟩
  | other =>
      rw [huse] at hmark
      cases hmark

theorem portsOk (h : Inv s) : PortsOk s where
  one := fun _ _ _ _ _ hi hj => h.excl.one hi hj
  held := fun _ _ _ hi => h.excl.marked hi
  unused := by
    intro p hnone
    by_contra hp
    obtain ⟨i, r, hi⟩ := h.excl.owned hp
    exact hnone i r hi
  meminit := by
    intro i j p q v w hi hj he
    have hpq : p = q := by
      by_contra hne
      exact h.pair p q hne he ⟨h.excl.marked hi, h.excl.marked hj⟩
    subst hpq
    exact ⟨h.excl.one hi hj, rfl⟩
  value := fun _ => h.busy_meminit

theorem unwritten (h : Inv s) (a : Action) : Unwritten s a := by
  intro s' hstep p hact huse
  obtain ⟨k, v, hk, _⟩ := h.busy_meminit hact huse
  obtain ⟨i, r, rfl, _, rfl⟩ | ⟨i, sh, pc, w, rfl, hm, rfl⟩ | ⟨q, rfl, _, rfl⟩ :=
    step_did hstep
  · exact ⟨rfl, rfl⟩
  · by_cases hik : i = k
    · subst hik
      rw [hk] at hm
      have hdone := moved_started hm
      rw [(h.busy p hact).1] at hdone
      cases hdone
    · have hport : (s.procs k).port = some (.meminit v, p) := by rw [hk]; rfl
      exact (moved_frame hm).2.2.1 (engine p) (h.apart_engine hik hport)
  · exact ⟨rfl, rfl⟩

end Inv

/-- In every run, whatever the registers held at its start, the ports keep their
promises, and no step rewrites the registers of an engine under a memory
initialisation. -/
theorem run_exclusive (lo hi : Fin 2 → BitVec 32) (as : List Action) :
    AllStates step PortsOk (init lo hi) as ∧
      AllSteps step Unwritten (init lo hi) as := by
  constructor
  · exact AllStates.of_invariant (fun _ h => Inv.portsOk h) (fun _ _ _ => step_inv) as
      (init_inv lo hi)
  · exact @AllSteps.imp _ _ _ Free _ _ (fun _ _ _ h _ => step_inv h)
      (fun _ a _ h _ _ => h.unwritten a) _ as (init_inv lo hi) (allSteps_free _ _)

end Kirkwood.Ports.XorPorts
