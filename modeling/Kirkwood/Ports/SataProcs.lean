import Kirkwood.Verified.Trans
import Kirkwood.Verified.Table
import Kirkwood.Ports.SataTags
import Kirkwood.Ports.SataResponse

/-!
# The processes that use the SATA disk

Any number of processes run `io`, and the ATA commands `identify` and `flush`
between `sataclaim` and `sataunclaim`, of `devsata.c`.  They interleave between
any two statements; `reqsl` is held by one of them at a time.  `io` drops
`reqsl` while its request is at the disk, and returns its tag without it: a
statement of `io` that loads what other processes store to, and stores, is two
steps.

## Main results

* `reach_exclusive`: in the runs in which no reset finds a request outstanding
  and no update of `tagsinuse` is lost, none is while a process has the
  controller claimed, no other process has it, and each of `tagr` and `atadoner`
  has at most one sleeper.

`satainit`, run by the control command `reset`, takes no lock and zeroes
`tagsinuse`, which alone tells `sataclaim` of the requests at the disk.
-/

namespace Kirkwood.Ports.SataProcs

open Kirkwood.Verified.Trans
open Kirkwood.Verified.Table
open Kirkwood.Ports.SataTags
open Kirkwood.Ports.SataResponse (Done)

/-! ## The code -/

/-- Where a process is: the statement it runs next, or the sleep or lock it is
in. -/
inductive Pc where
  | idle
  /-- `io`, in `qlock(&reqsl)` -/
  | ioLock
  /-- `sleep(&tagr, tagfree, nil)` -/
  | ioSleep
  /-- `tag = tags[tagnext]` -/
  | ioTag
  /-- `tagnext = (tagnext+1)%ntags` -/
  | ioNext (tag : Nat)
  /-- `tagsinuse++`, the load -/
  | ioCount (tag : Nat)
  /-- `tagsinuse++`, the store after the load of `inuse` -/
  | ioCounting (tag : Nat) (inuse : Int)
  /-- `reqsdone[tag] = Rtimeout`, and the store to the in pointer -/
  | ioSubmit (tag : Nat)
  /-- `qunlock(&reqsl)` -/
  | ioUnlock (tag : Nat)
  /-- `tsleep(&reqsr[tag], ..)`, and the test after it -/
  | ioWait (tag : Nat)
  /-- `tags[(tagnext-tagsinuse+ntags) % ntags] = tag`, the slot -/
  | ioPut (tag : Nat)
  /-- the store to this slot -/
  | ioPutting (tag : Nat) (slot : Nat)
  /-- `tagsinuse--`, the load -/
  | ioUncount (tag : Nat)
  /-- `tagsinuse--`, the store after the load of `inuse` -/
  | ioUncounting (tag : Nat) (inuse : Int)
  /-- `sataclaim`, in `qlock(&reqsl)` -/
  | claimLock
  /-- `sleep(&tagr, tagsidle, nil)` -/
  | claimSleep
  /-- `while(tagsinuse > 0)` -/
  | claimTest
  /-- between `sataclaim` and `sataunclaim` -/
  | ata
  /-- `atacmd`, asleep on `atadoner` -/
  | ataSleep
  deriving DecidableEq, Repr

/-- What the processes share; `lost` counts the calls that ended without
returning their tag since the last `satainit`. -/
structure Shared where
  pool : TagPool
  reqsl : Option Nat
  reqsdone : Nat → Done
  atadone : Done
  lost : Nat

structure State where
  sh : Shared
  procs : List Pc

/-- A process calls `io`, or a command that claims the controller; does what is
next; starts an ATA command; sets the tags in `identify`; or the sleep it is in,
or the claimed section, ends with an error. -/
inductive Move where
  | io
  | claim
  | go
  | atacmd
  | identify (w : Nat)
  | error

/-- A move of process `p`. -/
def move (s : Shared) (p : Nat) : Pc → Move → Option (Shared × Pc)
  | .idle, .io => some (s, .ioLock)
  | .ioLock, .go =>
      if s.reqsl = none then some ({ s with reqsl := some p }, .ioSleep) else none
  | .ioSleep, .go => if s.pool.tagfree then some (s, .ioTag) else none
  -- the error leaves `io` with `reqsl` held
  | .ioSleep, .error => some (s, .idle)
  | .ioTag, .go => some (s, .ioNext s.pool.tag)
  | .ioNext tag, .go => some ({ s with pool := s.pool.advance }, .ioCount tag)
  | .ioCount tag, .go => some (s, .ioCounting tag s.pool.tagsinuse)
  | .ioCounting tag inuse, .go =>
      some ({ s with pool := { s.pool with tagsinuse := inuse + 1 } }, .ioSubmit tag)
  | .ioSubmit tag, .go =>
      some ({ s with reqsdone := Function.update s.reqsdone tag .Rtimeout },
        .ioUnlock tag)
  | .ioUnlock tag, .go => some ({ s with reqsl := none }, .ioWait tag)
  -- the sleep ends, on `isdone` or after 60 seconds
  | .ioWait tag, .go =>
      if s.reqsdone tag = .Rok then some (s, .ioPut tag)
      else some ({ s with lost := s.lost + 1 }, .idle)
  | .ioWait _, .error => some ({ s with lost := s.lost + 1 }, .idle)
  | .ioPut tag, .go => some (s, .ioPutting tag s.pool.backslot)
  | .ioPutting tag slot, .go =>
      some ({ s with pool := { s.pool with
        tags := Function.update s.pool.tags slot tag } }, .ioUncount tag)
  | .ioUncount tag, .go => some (s, .ioUncounting tag s.pool.tagsinuse)
  | .ioUncounting _ inuse, .go =>
      some ({ s with pool := { s.pool with tagsinuse := inuse - 1 } }, .idle)
  | .idle, .claim => some (s, .claimLock)
  | .claimLock, .go =>
      if s.reqsl = none then some ({ s with reqsl := some p }, .claimSleep) else none
  | .claimSleep, .go => if s.pool.tagsidle then some (s, .claimTest) else none
  -- the error leaves `sataclaim` with `reqsl` held
  | .claimSleep, .error => some (s, .idle)
  | .claimTest, .go =>
      if 0 < s.pool.tagsinuse then some (s, .claimSleep) else some (s, .ata)
  | .ata, .atacmd => some ({ s with atadone := .Rtimeout }, .ataSleep)
  | .ata, .identify w => some ({ s with pool := s.pool.identify w }, .ata)
  | .ata, .go => some ({ s with reqsl := none }, .idle)
  | .ata, .error => some ({ s with reqsl := none }, .idle)
  | .ataSleep, .go => some (s, .ata)
  | .ataSleep, .error => some ({ s with reqsl := none }, .idle)
  | _, _ => none

/-- A process moves; `sataintr` reports a request or an ATA command done;
`sataabort`; the control command `reset`. -/
inductive Action where
  | proc (p : Nat) (m : Move)
  | done (tag : Nat)
  | atadone
  | sataabort
  | satainit

def step (s : State) : Action → Option State
  | .proc p m =>
      match s.procs[p]? with
      | none => none
      | some pc =>
          match move s.sh p pc m with
          | none => none
          | some (sh, pc') => some { sh := sh, procs := s.procs.set p pc' }
  | .done tag =>
      some { s with sh := { s.sh with
        reqsdone := Function.update s.sh.reqsdone tag .Rok } }
  | .atadone => some { s with sh := { s.sh with atadone := .Rok } }
  | .sataabort =>
      some { s with sh := { s.sh with
        reqsdone := fun i => if i < 32 then .Rfail else s.sh.reqsdone i
        atadone := .Rfail } }
  | .satainit =>
      some { s with sh := { s.sh with pool := s.sh.pool.satainit, lost := 0 } }

/-- `n` processes, after `satainit`. -/
def init (n : Nat) (p : TagPool) : State :=
  { sh := {
      pool := p.satainit
      reqsl := none
      reqsdone := fun _ => .Rtimeout
      atadone := .Rok
      lost := 0 }
    procs := List.replicate n .idle }

/-! ## Where the processes are -/

namespace Pc

/-- Between `qlock(&reqsl)` and `qunlock(&reqsl)`. -/
def inLock : Pc → Bool
  | .ioSleep | .ioTag | .ioNext _ | .ioCount _ | .ioCounting _ _ | .ioSubmit _
  | .ioUnlock _ | .claimSleep | .claimTest | .ata | .ataSleep => true
  | _ => false

/-- Between the stores of `tagsinuse++` and `tagsinuse--`, with this tag. -/
def counted : Pc → Option Nat
  | .ioSubmit tag | .ioUnlock tag | .ioWait tag | .ioPut tag
  | .ioPutting tag _ | .ioUncount tag | .ioUncounting tag _ => some tag
  | _ => none

/-- After the sleep of `sataclaim`, up to `sataunclaim`. -/
def idled : Pc → Bool
  | .claimTest | .ata | .ataSleep => true
  | _ => false

/-- Between a completed `sataclaim` and its `sataunclaim`. -/
def claimed : Pc → Bool
  | .ata | .ataSleep => true
  | _ => false

/-- Asleep on `tagr`. -/
def onTagr : Pc → Bool
  | .ioSleep | .claimSleep => true
  | _ => false

/-- Asleep on `atadoner`. -/
def onAtadoner : Pc → Bool
  | .ataSleep => true
  | _ => false

theorem inLock_of_idled {pc : Pc} (h : pc.idled) : pc.inLock := by
  cases pc <;> first | rfl | exact absurd h Bool.false_ne_true

theorem idled_of_claimed {pc : Pc} (h : pc.claimed) : pc.idled := by
  cases pc <;> first | rfl | exact absurd h Bool.false_ne_true

theorem inLock_of_onTagr {pc : Pc} (h : pc.onTagr) : pc.inLock := by
  cases pc <;> first | rfl | exact absurd h Bool.false_ne_true

theorem inLock_of_onAtadoner {pc : Pc} (h : pc.onAtadoner) : pc.inLock := by
  cases pc <;> first | rfl | exact absurd h Bool.false_ne_true

end Pc

/-- The tags of the requests that `io` calls have submitted, or are about to
submit, and whose end they have not noted. -/
def counted (s : State) : List Nat := s.procs.filterMap Pc.counted

/-! ## Exclusion -/

/-- While a process has the controller claimed, no request is outstanding, nor
has one been given up since the last `satainit`; at most one process has it
claimed; at most one sleeps on `tagr`, and at most one on `atadoner`. -/
structure Exclusive (s : State) : Prop where
  outstanding : ∀ (p : Nat) (pc : Pc), s.procs[p]? = some pc → pc.claimed →
    counted s = [] ∧ s.sh.lost = 0
  claimed : ∀ (p q : Nat) (pc pd : Pc), s.procs[p]? = some pc →
    s.procs[q]? = some pd → pc.claimed → pd.claimed → p = q
  tagr : ∀ (p q : Nat) (pc pd : Pc), s.procs[p]? = some pc →
    s.procs[q]? = some pd → pc.onTagr → pd.onTagr → p = q
  atadoner : ∀ (p q : Nat) (pc pd : Pc), s.procs[p]? = some pc →
    s.procs[q]? = some pd → pc.onAtadoner → pd.onAtadoner → p = q

/-- When an update of `tagsinuse` is stored, it is still what was loaded. -/
def Undisturbed (s : Shared) : Pc → Prop
  | .ioCounting _ inuse | .ioUncounting _ inuse => inuse = s.pool.tagsinuse
  | _ => True

/-- No update of `tagsinuse` is lost, and a reset finds no request outstanding. -/
def Orderly (s : State) : Action → Prop
  | .proc p _ => ∀ pc ∈ s.procs[p]?, Undisturbed s.sh pc
  | .satainit => counted s = []
  | _ => True

instance (s : Shared) : (pc : Pc) → Decidable (Undisturbed s pc)
  | .ioCounting _ inuse => inferInstanceAs (Decidable (inuse = s.pool.tagsinuse))
  | .ioUncounting _ inuse => inferInstanceAs (Decidable (inuse = s.pool.tagsinuse))
  | .idle | .ioLock | .ioSleep | .ioTag | .ioNext _ | .ioCount _ | .ioSubmit _
  | .ioUnlock _ | .ioWait _ | .ioPut _ | .ioPutting _ _ | .ioUncount _ | .claimLock
  | .claimSleep | .claimTest | .ata | .ataSleep => isTrue trivial

instance (s : State) : (a : Action) → Decidable (Orderly s a)
  | .proc p _ => inferInstanceAs (Decidable (∀ pc ∈ s.procs[p]?, Undisturbed s.sh pc))
  | .satainit => inferInstanceAs (Decidable (counted s = []))
  | .done _ => isTrue trivial
  | .atadone => isTrue trivial
  | .sataabort => isTrue trivial

/-- Who is inside the lock has it; `tagsinuse` counts the outstanding requests
and those given up; and none is counted behind the sleep of `sataclaim`. -/
structure LockInv (s : State) : Prop where
  lock : ∀ (p : Nat) (pc : Pc), s.procs[p]? = some pc → pc.inLock → s.sh.reqsl = some p
  count : s.sh.pool.tagsinuse = (counted s).length + s.sh.lost
  idled : ∀ (p : Nat) (pc : Pc), s.procs[p]? = some pc → pc.idled →
    counted s = [] ∧ s.sh.lost = 0

/-- What a move does to the lock, to the count, and behind the sleep of
`sataclaim`. -/
structure MoveSpec (s : Shared) (p : Nat) (pc : Pc) (t : Shared) (pc' : Pc) :
    Prop where
  lock : (t.reqsl = s.reqsl ∧ (pc'.inLock → pc.inLock)) ∨
    (s.reqsl = none ∧ t.reqsl = some p) ∨
    (pc.inLock ∧ t.reqsl = none ∧ ¬ pc'.inLock)
  count : t.pool.tagsinuse + pc.counted.toList.length + s.lost =
    s.pool.tagsinuse + pc'.counted.toList.length + t.lost
  idled : pc'.idled → t.lost = s.lost ∧ pc.counted = pc'.counted ∧
    (pc.idled ∨ s.pool.tagsidle)
  outside : ¬ pc.inLock → pc.counted = none →
    pc'.counted = none ∧ t.lost = s.lost

theorem move_spec {s t : Shared} {p : Nat} {pc pc' : Pc} {m : Move}
    (hstill : Undisturbed s pc) (h : move s p pc m = some (t, pc')) :
    MoveSpec s p pc t pc' := by
  unfold move at h
  split at h
  all_goals try split at h
  all_goals cases h
  all_goals
    constructor
    · simp_all [Pc.inLock]
    · simp only [Undisturbed] at hstill
      simp [Pc.counted, TagPool.advance, TagPool.identify]
      try omega
    · simp_all [Pc.idled, Pc.counted]
    · simp_all [Pc.inLock, Pc.counted]

/-- What a step of a process is. -/
theorem proc_step {s s' : State} {p : Nat} {m : Move}
    (h : step s (.proc p m) = some s') :
    ∃ pc pc', s.procs[p]? = some pc ∧ move s.sh p pc m = some (s'.sh, pc') ∧
      s'.procs = s.procs.set p pc' := by
  simp only [step] at h
  split at h
  case h_1 => cases h
  case h_2 pc hpc =>
      split at h
      case h_1 => cases h
      case h_2 sh pc' hm =>
          cases h
          exact ⟨pc, pc', hpc, hm, rfl⟩

theorem counted_set {s s' : State} {p : Nat} {pc pc' : Pc}
    (hpc : s.procs[p]? = some pc) (hset : s'.procs = s.procs.set p pc') :
    (counted s').length + pc.counted.toList.length =
      (counted s).length + pc'.counted.toList.length := by
  unfold counted
  rw [hset]
  exact length_filterMap_set hpc

theorem proc_lock {s s' : State} {p : Nat} {pc pc' : Pc} (h : LockInv s)
    (hpc : s.procs[p]? = some pc) (hset : s'.procs = s.procs.set p pc')
    (hspec : MoveSpec s.sh p pc s'.sh pc') :
    ∀ (q : Nat) (pd : Pc), s'.procs[q]? = some pd → pd.inLock →
      s'.sh.reqsl = some q := by
  intro q pd hq hin
  rw [hset] at hq
  rcases getElem?_set_cases hq with ⟨heq, hpd⟩ | ⟨hne, hold⟩
  · rw [hpd] at hin
    rw [heq]
    rcases hspec.lock with ⟨hsame, hstay⟩ | ⟨_, hgot⟩ | ⟨_, _, hout⟩
    · rw [hsame]
      exact h.lock p pc hpc (hstay hin)
    · exact hgot
    · exact absurd hin hout
  · have hlock := h.lock q pd hold hin
    rcases hspec.lock with ⟨hsame, _⟩ | ⟨hfree, _⟩ | ⟨hhas, _, _⟩
    · rw [hsame]
      exact hlock
    · rw [hfree] at hlock
      cases hlock
    · have hp := h.lock p pc hpc hhas
      rw [hp] at hlock
      exact absurd (Option.some.inj hlock).symm hne

theorem proc_idled {s s' : State} {p : Nat} {pc pc' : Pc} (h : LockInv s)
    (hpc : s.procs[p]? = some pc) (hset : s'.procs = s.procs.set p pc')
    (hspec : MoveSpec s.sh p pc s'.sh pc') :
    ∀ (q : Nat) (pd : Pc), s'.procs[q]? = some pd → pd.idled →
      counted s' = [] ∧ s'.sh.lost = 0 := by
  intro q pd hq hid
  have hlen := counted_set hpc hset
  have hcount := h.count
  rw [hset] at hq
  rcases getElem?_set_cases hq with ⟨_, hpd⟩ | ⟨hne, hold⟩
  · rw [hpd] at hid
    obtain ⟨hlost, hsame, hwas⟩ := hspec.idled hid
    have hzero : counted s = [] ∧ s.sh.lost = 0 := by
      cases hwas with
      | inl hwas => exact h.idled p pc hpc hwas
      | inr hidle =>
          have hinuse : s.sh.pool.tagsinuse = 0 := hidle
          exact ⟨List.eq_nil_of_length_eq_zero (by omega), by omega⟩
    rw [hsame, hzero.1, List.length_nil] at hlen
    exact ⟨List.eq_nil_of_length_eq_zero (by omega), hlost.trans hzero.2⟩
  · -- another process is inside the lock, so this one neither counts nor is counted
    obtain ⟨hnil, hlost⟩ := h.idled q pd hold hid
    have hlock := h.lock q pd hold (Pc.inLock_of_idled hid)
    have hnotin : ¬ pc.inLock := by
      intro hin
      rw [h.lock p pc hpc hin] at hlock
      exact hne (Option.some.inj hlock).symm
    have hnotcounted : pc.counted = none := by
      cases hc : pc.counted with
      | none => rfl
      | some tag =>
          have hmem : tag ∈ counted s := mem_filterMap hpc hc
          rw [hnil] at hmem
          cases hmem
    have hquiet := hspec.outside hnotin hnotcounted
    rw [hnil, hnotcounted, hquiet.1] at hlen
    exact ⟨List.eq_nil_of_length_eq_zero (by simpa using hlen),
      hquiet.2.trans hlost⟩

theorem step_inv {s : State} {a : Action} {s' : State} (h : LockInv s)
    (hg : Orderly s a) (hs : step s a = some s') : LockInv s' := by
  cases a with
  | proc p m =>
      obtain ⟨pc, pc', hpc, hm, hset⟩ := proc_step hs
      have hspec := move_spec (hg pc hpc) hm
      exact {
        lock := proc_lock h hpc hset hspec
        count := by
          have hlen := counted_set hpc hset
          have hold := h.count
          have hnew := hspec.count
          omega
        idled := proc_idled h hpc hset hspec }
  | done tag =>
      cases hs
      exact { lock := h.lock, count := h.count, idled := h.idled }
  | atadone =>
      cases hs
      exact { lock := h.lock, count := h.count, idled := h.idled }
  | sataabort =>
      cases hs
      exact { lock := h.lock, count := h.count, idled := h.idled }
  | satainit =>
      cases hs
      have hnil : counted s = [] := hg
      exact {
        lock := h.lock
        count := by
          show (0 : Int) = (counted s).length + ((0 : Nat) : Int)
          rw [hnil]
          rfl
        idled := fun _ _ _ _ => ⟨hnil, rfl⟩ }

theorem init_procs {n p : Nat} {pc : Pc} {pool : TagPool}
    (h : (init n pool).procs[p]? = some pc) : pc = .idle := by
  have hmem := List.mem_of_getElem? h
  exact List.eq_of_mem_replicate hmem

theorem init_counted (n : Nat) (pool : TagPool) : counted (init n pool) = [] := by
  show (List.replicate n Pc.idle).filterMap Pc.counted = []
  rw [List.filterMap_replicate]
  rfl

theorem init_inv (n : Nat) (pool : TagPool) : LockInv (init n pool) where
  lock := by
    intro p pc hpc hin
    rw [init_procs hpc] at hin
    exact absurd hin Bool.false_ne_true
  count := by
    rw [init_counted]
    rfl
  idled := by
    intro p pc hpc hid
    rw [init_procs hpc] at hid
    exact absurd hid Bool.false_ne_true

/-- At most one process is inside the lock. -/
theorem LockInv.unique {s : State} (h : LockInv s) {p q : Nat} {pc pd : Pc}
    (hp : s.procs[p]? = some pc) (hq : s.procs[q]? = some pd)
    (hpin : pc.inLock) (hqin : pd.inLock) : p = q := by
  have hlock := h.lock p pc hp hpin
  rw [h.lock q pd hq hqin] at hlock
  exact (Option.some.inj hlock).symm

theorem LockInv.exclusive {s : State} (h : LockInv s) : Exclusive s where
  outstanding := fun p pc hp hc => h.idled p pc hp (Pc.idled_of_claimed hc)
  claimed := fun _ _ _ _ hp hq hpc hqc => h.unique hp hq
    (Pc.inLock_of_idled (Pc.idled_of_claimed hpc))
    (Pc.inLock_of_idled (Pc.idled_of_claimed hqc))
  tagr := fun _ _ _ _ hp hq hpc hqc => h.unique hp hq
    (Pc.inLock_of_onTagr hpc) (Pc.inLock_of_onTagr hqc)
  atadoner := fun _ _ _ _ hp hq hpc hqc => h.unique hp hq
    (Pc.inLock_of_onAtadoner hpc) (Pc.inLock_of_onAtadoner hqc)

/-- A state after `satainit`, with any number of processes. -/
def Initial (s : State) : Prop := ∃ n pool, s = init n pool

/-- In every run whose resets find no request outstanding and which loses no
update of `tagsinuse`, the claimed controller is exclusive in every state. -/
theorem reach_exclusive {s : State} (h : Reach step Orderly Initial s) :
    Exclusive s := by
  apply LockInv.exclusive
  apply Reach.invariant (P := LockInv) _ _ h
  · intro s hs
    obtain ⟨n, pool, rfl⟩ := hs
    exact init_inv n pool
  · intro s a s' hinv hg hs
    exact step_inv hinv hg hs

/-- Tags of any value, before `satainit`. -/
def samplePool : TagPool := { tags := fun _ => 0, tagnext := 0, tagsinuse := 0, ntags := 0 }

/-- Process 0 submits a request with `io`. -/
def ioRun : List Action :=
  .proc 0 .io :: List.replicate 8 (.proc 0 .go)

/-- Process 1 claims the controller. -/
def claimRun : List Action :=
  .proc 1 .claim :: List.replicate 3 (.proc 1 .go)

/-- A process claims the controller after a reset. -/
theorem reach_exclusive_claim :
    ∃ s, run step (init 2 samplePool) (.satainit :: claimRun) = some s ∧
      s.procs = [.idle, .ata] ∧ Exclusive s :=
  ⟨_, rfl, rfl, reach_exclusive (Reach.of_run (.satainit :: claimRun)
    (.start ⟨2, samplePool, rfl⟩) (by decide +kernel) rfl)⟩

/-- A reset while a request is at the disk lets another process claim the
controller. -/
theorem reset_overlaps : ¬ ∀ s, Reach step Free Initial s → Exclusive s := by
  intro hall
  have hrun : ∃ s, run step (init 2 samplePool) (ioRun ++ .satainit :: claimRun) =
      some s ∧ s.procs = [.ioWait 0, .ata] := ⟨_, rfl, rfl⟩
  obtain ⟨s, hs, hprocs⟩ := hrun
  have hreach : Reach step Free Initial s :=
    Reach.of_run_free _ (.start ⟨2, samplePool, rfl⟩) hs
  have hclaimed := (hall s hreach).outstanding 1 .ata
    (by rw [hprocs]; rfl) rfl
  have hcounted : counted s = [0] := by
    unfold counted
    rw [hprocs]
    rfl
  rw [hcounted] at hclaimed
  cases hclaimed.1

/-- Two tags; the request of process 0 is done, and process 1 submits one between the
load and the store of `tagsinuse--`; process 2 claims the controller. -/
def lostRun : List Action :=
  [.proc 2 .claim, .proc 2 .go, .proc 2 .go, .proc 2 .go, .proc 2 (.identify 1),
    .proc 2 .go] ++ ioRun ++ .done 0 :: List.replicate 4 (.proc 0 .go) ++
    .proc 1 .io :: List.replicate 8 (.proc 1 .go) ++ [.proc 0 .go] ++
    .proc 2 .claim :: List.replicate 3 (.proc 2 .go)

/-- The update of process 1 is lost, without a reset. -/
theorem decrement_overlaps :
    ∃ s, run step (init 3 samplePool) lostRun = some s ∧
      s.procs = [.idle, .ioWait 1, .ata] ∧ ¬ Exclusive s := by
  have hrun : ∃ s, run step (init 3 samplePool) lostRun = some s ∧
      s.procs = [.idle, .ioWait 1, .ata] := ⟨_, rfl, rfl⟩
  obtain ⟨s, hs, hprocs⟩ := hrun
  refine ⟨s, hs, hprocs, fun hexcl => ?_⟩
  have hclaimed := hexcl.outstanding 2 .ata (by rw [hprocs]; rfl) rfl
  have hcounted : counted s = [1] := by
    unfold counted
    rw [hprocs]
    rfl
  rw [hcounted] at hclaimed
  cases hclaimed.1

end Kirkwood.Ports.SataProcs
