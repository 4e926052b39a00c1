import Kirkwood.Verified.Trans
import Kirkwood.Verified.Ring
import Kirkwood.Ports.SataTags
import Kirkwood.Ports.SataRequest

/-!
# The request queue of the SATA disk

`io` of `devsata.c` puts its request in slot `reqnext` of the 32 entries of
`reqs` and stores the next slot in the engine's in pointer; the engine executes
the entries from its out pointer up to the in pointer.  A tag limits how many
calls are under way, `reqnext` says which slot is next.

## Main results

* `run_exactlyOnce_iff`: the runs in which the engine executes every request
  exactly once are those in which every entry was put where the engine's in
  pointer was, and found fewer than 31 entries waiting;
* `run_intact_iff`: the runs in which no slot is taken while its request is
  outstanding are those in which every call finds the outstanding requests
  among the last 31.

`satainit` zeroes the pointers of the engine and leaves `reqnext`.  Nothing
looks at whether a slot is in use: the comment on `tags` trusts the tags for it,
which go back in any order.
-/

namespace Kirkwood.Ports.SataQueue

open Kirkwood.Verified.Trans
open Kirkwood.Verified.Ring
open Kirkwood.Ports.SataTags
open Kirkwood.Ports.SataRequest

/-! ## The code -/

/-- An entry of `reqs`, with the call that wrote it, none after `satareset`. -/
structure Entry where
  req : Req
  owner : Option Nat
  deriving DecidableEq, Repr

/-- A call of `io` that took a slot.  Calls are numbered in this order.  `req`
and `table` are what it wrote into the slot's entries of `reqs` and `prds`. -/
structure Call where
  serial : Nat
  tag : Nat
  slot : Nat
  req : Req
  table : List Prd
  deriving DecidableEq, Repr

/-- The driver's and the engine's state: `enabled`, `reqin` and `reqout` are
registers of the engine, the last two as indices.  `busy` is the call that
holds `reqsl` after it took a slot, `out` are those that wait for the disk.  The
rest records the run: how many calls took a slot, which published their entry,
which of these no reset discarded, which were discarded, which the engine has
still to execute, and the owners of the entries it executed. -/
structure State where
  pool : TagPool
  reqs : Nat → Entry
  prds : Nat → Prd
  reqnext : Nat
  enabled : Bool
  reqin : Nat
  reqout : Nat
  busy : Option Call
  out : List Call
  calls : Nat
  submitted : List Nat
  kept : List Nat
  discarded : List Nat
  waiting : List Nat
  executed : List (Option Nat)

/-- `io` takes a tag and fills slot `reqnext`; `io` stores the in pointer,
starts the engine if need be, and drops the lock; the engine executes an entry;
the `k`th outstanding call returns its tag; `satainit`; `identify`. -/
inductive Action where
  | take (t : Transfer)
  | publish
  | execute
  | complete (k : Nat)
  | satainit
  | identify (w : Nat)

/-- The eight entries of `prds` that belong to slot `i`. -/
def table (prds : Nat → Prd) (i : Nat) : List Prd :=
  (List.range 8).map fun j => prds (i * 8 + j)

/-- The call that takes slot `reqnext`; `prds` is where the scatter tables are
in memory. -/
def newcall (prds : Nat) (s : State) (t : Transfer) : Call :=
  { serial := s.calls
    tag := s.pool.tag
    slot := s.reqnext
    req := fillreq prds s.reqnext s.pool.tag t
    table := table (fillprds s.prds s.reqnext t) s.reqnext }

/-- The statements of `io` from taking the tag to filling the entry. -/
def taken (prds : Nat) (s : State) (t : Transfer) : State :=
  { s with
    pool := s.pool.take
    reqs := Function.update s.reqs s.reqnext
      ⟨(newcall prds s t).req, some s.calls⟩
    prds := fillprds s.prds s.reqnext t
    reqnext := (s.reqnext + 1) % 32
    busy := some (newcall prds s t)
    calls := s.calls + 1 }

def step (prds : Nat) (s : State) : Action → Option State
  | .take t =>
      if s.busy = none ∧ s.pool.tagfree ∧ 0 < t.ns then some (taken prds s t)
      else none
  | .publish =>
      match s.busy with
      | none => none
      | some c =>
          some { s with
            reqin := s.reqnext
            enabled := true
            busy := none
            out := s.out ++ [c]
            submitted := s.submitted ++ [c.serial]
            kept := s.kept ++ [c.serial]
            waiting := s.waiting ++ [c.serial] }
  | .execute =>
      if s.enabled ∧ s.reqin ≠ s.reqout then
        some { s with
          reqout := (s.reqout + 1) % 32
          executed := s.executed ++ [(s.reqs s.reqout).owner]
          waiting :=
            match (s.reqs s.reqout).owner with
            | none => s.waiting
            | some k => s.waiting.erase k }
      else none
  | .complete k =>
      match s.out[k]? with
      | none => none
      | some c =>
          if some c.serial ∈ s.executed then
            some { s with pool := s.pool.give c.tag, out := s.out.eraseIdx k }
          else none
  | .satainit =>
      some { s with
        pool := s.pool.satainit
        enabled := false
        reqin := 0
        reqout := 0
        kept := s.executed.filterMap id
        discarded := s.discarded ++ s.waiting
        waiting := [] }
  | .identify w =>
      if s.busy = none ∧ s.pool.tagsidle then
        some { s with pool := s.pool.identify w, enabled := false }
      else none

/-- After `satareset` and `satainit`. -/
def init (p : TagPool) (reqs : Nat → Req) (prds : Nat → Prd) : State :=
  { pool := p.satainit
    reqs := fun i => ⟨reqs i, none⟩
    prds := prds
    reqnext := 0
    enabled := false
    reqin := 0
    reqout := 0
    busy := none
    out := []
    calls := 0
    submitted := []
    kept := []
    discarded := []
    waiting := []
    executed := [] }

/-! ## Every request once -/

/-- The entries from the out pointer up to the in pointer. -/
def engine (s : State) : List (Option Nat) :=
  (window s.reqs 32 s.reqout (gap 32 s.reqout s.reqin)).map Entry.owner

/-- What the engine has executed and what lies before it are the requests that
were submitted and not discarded, each once and in order; the queue looks empty
to it only when nothing waits; and running on, it executes all of them. -/
structure ExactlyOnce (prds : Nat) (s : State) : Prop where
  engine : engine s = s.waiting.map some
  kept : s.executed ++ s.waiting.map some = s.kept.map some
  all : (s.kept ++ s.discarded).Perm s.submitted
  once : s.submitted.Nodup
  empty : s.reqin = s.reqout ↔ s.waiting = []
  runs : s.enabled →
    ∃ s', run (step prds) s (List.replicate s.waiting.length .execute) = some s' ∧
      s'.executed = s.kept.map some ∧ s'.reqin = s'.reqout

/-- An entry is published where the engine's in pointer is, behind fewer than
31 others. -/
def InPlace (s : State) : Action → Prop
  | .publish => ∀ c ∈ s.busy, c.slot = s.reqin ∧ s.waiting.length < 31
  | _ => True

instance (s : State) : (a : Action) → Decidable (InPlace s a)
  | .publish => inferInstanceAs
      (Decidable (∀ c ∈ s.busy, c.slot = s.reqin ∧ s.waiting.length < 31))
  | .take _ => isTrue trivial
  | .execute => isTrue trivial
  | .complete _ => isTrue trivial
  | .satainit => isTrue trivial
  | .identify _ => isTrue trivial

/-- What `ExactlyOnce` rests on: the pointers stay within the ring, the entry of
the call in the lock is its own, and `reqnext` differs from the in pointer only
while nothing waits. -/
structure QueueInv (s : State) : Prop where
  reqnext_lt : s.reqnext < 32
  reqin_lt : s.reqin < 32
  reqout_lt : s.reqout < 32
  engine : engine s = s.waiting.map some
  kept : s.executed ++ s.waiting.map some = s.kept.map some
  all : (s.kept ++ s.discarded).Perm s.submitted
  once : s.submitted.Nodup
  older : ∀ k ∈ s.submitted, k < s.calls
  idle : s.busy = none → s.reqnext = s.reqin ∨ s.waiting = []
  busy : ∀ c ∈ s.busy, c.slot < 32 ∧ s.reqnext = (c.slot + 1) % 32 ∧
    (s.reqs c.slot).owner = some c.serial ∧ c.serial < s.calls ∧
    c.serial ∉ s.submitted ∧ (c.slot = s.reqin ∨ s.waiting = [])

theorem QueueInv.length {s : State} (h : QueueInv s) :
    gap 32 s.reqout s.reqin = s.waiting.length := by
  have heq := congrArg List.length h.engine
  unfold SataQueue.engine at heq
  rw [List.length_map, List.length_map, window_length] at heq
  exact heq

theorem QueueInv.empty {s : State} (h : QueueInv s) :
    s.reqin = s.reqout ↔ s.waiting = [] := by
  rw [← gap_eq_zero_iff h.reqout_lt h.reqin_lt, h.length]
  exact List.length_eq_zero_iff

/-- A write to the slot of the in pointer, or to any slot while nothing waits,
does not touch what lies before the engine. -/
theorem engine_update {s : State} (h : QueueInv s) (i : Nat) (e : Entry)
    (hi : i = s.reqin ∨ s.waiting = []) :
    window (Function.update s.reqs i e) 32 s.reqout (gap 32 s.reqout s.reqin) =
      window s.reqs 32 s.reqout (gap 32 s.reqout s.reqin) := by
  cases hi with
  | inl hin =>
      have hslot : i = slot 32 s.reqout (gap 32 s.reqout s.reqin) := by
        rw [slot_gap h.reqout_lt h.reqin_lt]
        exact hin
      rw [hslot]
      exact window_update e (Nat.le_refl _) (gap_lt _ _ (by omega))
  | inr hnil =>
      rw [h.length, hnil]
      rfl

theorem init_inv (p : TagPool) (reqs : Nat → Req) (mem : Nat → Prd) :
    QueueInv (init p reqs mem) where
  reqnext_lt := Nat.succ_pos 31
  reqin_lt := Nat.succ_pos 31
  reqout_lt := Nat.succ_pos 31
  engine := by
    show List.map _ (window _ 32 0 (gap 32 0 0)) = []
    rw [gap_self, window_zero]
    rfl
  kept := rfl
  all := List.Perm.nil
  once := List.nodup_nil
  older := by
    intro k hk
    cases hk
  idle := fun _ => .inl rfl
  busy := by
    intro c hc
    cases hc

theorem take_inv {prds : Nat} {s s' : State} {t : Transfer} (h : QueueInv s)
    (hs : step prds s (.take t) = some s') : QueueInv s' := by
  simp only [step] at hs
  split at hs
  case isFalse => cases hs
  case isTrue hen =>
      cases hs
      have hidle := h.idle hen.1
      exact {
        reqnext_lt := Nat.mod_lt _ (by decide)
        reqin_lt := h.reqin_lt
        reqout_lt := h.reqout_lt
        engine := by
          unfold SataQueue.engine
          show List.map _ (window (Function.update s.reqs s.reqnext _) 32
            s.reqout (gap 32 s.reqout s.reqin)) = _
          rw [engine_update h _ _ hidle]
          exact h.engine
        kept := h.kept
        all := h.all
        once := h.once
        older := fun k hk => Nat.lt_succ_of_lt (h.older k hk)
        idle := by
          intro hnone
          cases hnone
        busy := by
          intro c hc
          cases hc
          refine ⟨h.reqnext_lt, rfl, ?_, Nat.lt_succ_self _, ?_, hidle⟩
          · show (Function.update s.reqs s.reqnext _ s.reqnext).owner = _
            rw [Function.update_self]
            rfl
          · intro hin
            exact Nat.lt_irrefl _ (h.older _ hin) }

theorem publish_inv {prds : Nat} {s s' : State} (h : QueueInv s)
    (hg : InPlace s .publish) (hs : step prds s .publish = some s') :
    QueueInv s' := by
  simp only [step] at hs
  split at hs
  case h_1 => cases hs
  case h_2 c hc =>
      cases hs
      have hcm : c ∈ s.busy := hc
      have hbusy := h.busy c hcm
      have hguard := hg c hcm
      have hnext : s.reqnext = (s.reqin + 1) % 32 := by
        rw [hbusy.2.1, hguard.1]
      have hlen := h.length
      have hgap : gap 32 s.reqout s.reqnext = s.waiting.length + 1 := by
        rw [hnext, gap_next h.reqout_lt h.reqin_lt (by omega), hlen]
      exact {
        reqnext_lt := h.reqnext_lt
        reqin_lt := h.reqnext_lt
        reqout_lt := h.reqout_lt
        engine := by
          unfold SataQueue.engine
          show List.map _ (window s.reqs 32 s.reqout (gap 32 s.reqout s.reqnext))
            = (s.waiting ++ [c.serial]).map some
          have hold := h.engine
          unfold SataQueue.engine at hold
          rw [hgap, window_snoc, List.map_append, List.map_append, ← hold, hlen,
            ← hlen, slot_gap h.reqout_lt h.reqin_lt, ← hguard.1,
            List.map_singleton, hbusy.2.2.1]
          rfl
        kept := by
          show s.executed ++ (s.waiting ++ [c.serial]).map some =
            (s.kept ++ [c.serial]).map some
          rw [List.map_append, List.map_append, ← List.append_assoc, h.kept]
        all := by
          show (s.kept ++ [c.serial] ++ s.discarded).Perm (s.submitted ++ [c.serial])
          have hperm := h.all.append_right [c.serial]
          apply List.Perm.trans _ hperm
          rw [List.append_assoc, List.append_assoc]
          exact List.Perm.append_left _ List.perm_append_comm
        once := by
          show (s.submitted ++ [c.serial]).Nodup
          apply List.nodup_append.2
          refine ⟨h.once, List.nodup_singleton _, ?_⟩
          intro a ha b hb heq
          rw [List.mem_singleton] at hb
          rw [heq, hb] at ha
          exact hbusy.2.2.2.2.1 ha
        older := by
          intro k hk
          cases List.mem_append.1 hk with
          | inl hk => exact h.older k hk
          | inr hk =>
              rw [List.mem_singleton.1 hk]
              exact hbusy.2.2.2.1
        idle := fun _ => .inl rfl
        busy := by
          intro d hd
          cases hd }

/-- The engine executes the first of the waiting requests. -/
theorem execute_spec {prds : Nat} {s s' : State} (h : QueueInv s)
    (hs : step prds s .execute = some s') :
    ∃ k rest, s.waiting = k :: rest ∧
      s' = { s with
        reqout := (s.reqout + 1) % 32
        executed := s.executed ++ [some k]
        waiting := rest } := by
  simp only [step] at hs
  split at hs
  case isFalse => cases hs
  case isTrue hen =>
      cases hw : s.waiting with
      | nil => exact absurd (h.empty.2 hw) hen.2
      | cons k rest =>
          have hhead : (s.reqs s.reqout).owner = some k := by
            have hgap := gap_start h.reqout_lt h.reqin_lt hen.2
            have hwin := h.engine
            unfold SataQueue.engine at hwin
            rw [hgap, window_succ _ _ h.reqout_lt, hw, List.map_cons,
              List.map_cons] at hwin
            exact (List.cons.inj hwin).1
          refine ⟨k, rest, rfl, ?_⟩
          rw [hhead] at hs
          cases hs
          simp only [hw, List.erase_cons_head]

theorem execute_inv {prds : Nat} {s s' : State} (h : QueueInv s)
    (hs : step prds s .execute = some s') : QueueInv s' := by
  obtain ⟨k, rest, hw, rfl⟩ := execute_spec h hs
  have hne : s.reqin ≠ s.reqout := by
    intro heq
    have hnil := h.empty.1 heq
    rw [hw] at hnil
    cases hnil
  have hgap := gap_start h.reqout_lt h.reqin_lt hne
  have hwaits : s.waiting ≠ [] := by
    rw [hw]
    exact List.cons_ne_nil _ _
  exact {
    reqnext_lt := h.reqnext_lt
    reqin_lt := h.reqin_lt
    reqout_lt := Nat.mod_lt _ (by decide)
    engine := by
      have hwin := h.engine
      unfold SataQueue.engine at hwin
      rw [hgap, window_succ _ _ h.reqout_lt, hw, List.map_cons,
        List.map_cons] at hwin
      exact (List.cons.inj hwin).2
    kept := by
      have hkept := h.kept
      rw [hw, List.map_cons] at hkept
      show (s.executed ++ [some k]) ++ rest.map some = s.kept.map some
      rw [List.append_assoc]
      exact hkept
    all := h.all
    once := h.once
    older := h.older
    idle := fun hnone => .inl ((h.idle hnone).resolve_right hwaits)
    busy := by
      intro c hc
      obtain ⟨hlt, hnext, hown, hser, hfresh, hplace⟩ := h.busy c hc
      exact ⟨hlt, hnext, hown, hser, hfresh, .inl (hplace.resolve_right hwaits)⟩ }

/-- What the engine executed before a reset are requests that are kept. -/
theorem executed_ids {s : State} (h : QueueInv s) :
    ∃ l : List Nat, s.executed = l.map some ∧ s.kept = l ++ s.waiting := by
  have hlen := congrArg List.length h.kept
  have hkept := h.kept
  refine ⟨s.kept.take s.executed.length, ?_, ?_⟩
  · rw [List.map_take, ← hkept, List.take_left]
  · have hdrop : s.waiting = s.kept.drop s.executed.length := by
      have hmap : (s.waiting.map some) = (s.kept.drop s.executed.length).map some := by
        rw [List.map_drop, ← hkept, List.drop_left]
      exact List.map_injective_iff.2 (Option.some_injective _) hmap
    rw [hdrop]
    exact (List.take_append_drop _ _).symm

theorem satainit_inv {prds : Nat} {s s' : State} (h : QueueInv s)
    (hs : step prds s .satainit = some s') : QueueInv s' := by
  cases hs
  obtain ⟨l, hexec, hkept⟩ := executed_ids h
  have hids : s.executed.filterMap id = l := by
    rw [hexec, List.filterMap_map]
    exact List.filterMap_some
  exact {
    reqnext_lt := h.reqnext_lt
    reqin_lt := Nat.succ_pos 31
    reqout_lt := Nat.succ_pos 31
    engine := by
      show List.map _ (window _ 32 0 (gap 32 0 0)) = []
      rw [gap_self, window_zero]
      rfl
    kept := by
      show s.executed ++ [] = (s.executed.filterMap id).map some
      rw [hids, List.append_nil]
      exact hexec
    all := by
      show (s.executed.filterMap id ++ (s.discarded ++ s.waiting)).Perm s.submitted
      rw [hids]
      apply List.Perm.trans _ h.all
      rw [hkept, List.append_assoc]
      exact List.Perm.append_left _ List.perm_append_comm
    once := h.once
    older := h.older
    idle := fun _ => .inr rfl
    busy := by
      intro c hc
      obtain ⟨hlt, hnext, hown, hser, hfresh, _⟩ := h.busy c hc
      exact ⟨hlt, hnext, hown, hser, hfresh, .inr rfl⟩ }

theorem step_inv {prds : Nat} {s : State} {a : Action} {s' : State}
    (h : QueueInv s) (hg : InPlace s a) (hs : step prds s a = some s') :
    QueueInv s' := by
  cases a with
  | take t => exact take_inv h hs
  | publish => exact publish_inv h hg hs
  | execute => exact execute_inv h hs
  | complete k =>
      simp only [step] at hs
      split at hs
      case h_1 => cases hs
      case h_2 =>
          split at hs
          case isFalse => cases hs
          case isTrue =>
              cases hs
              exact { h with }
  | satainit => exact satainit_inv h hs
  | identify w =>
      simp only [step] at hs
      split at hs
      case isFalse => cases hs
      case isTrue =>
          cases hs
          exact { h with }

/-- Running on, the engine executes what waits. -/
theorem execute_all {prds : Nat} {s : State} (h : QueueInv s)
    (hon : s.enabled) :
    ∃ s', run (step prds) s (List.replicate s.waiting.length .execute) = some s' ∧
      s'.executed = s.kept.map some ∧ s'.reqin = s'.reqout := by
  generalize hn : s.waiting.length = n
  induction n generalizing s with
  | zero =>
      have hnil := List.eq_nil_of_length_eq_zero hn
      refine ⟨s, rfl, ?_, h.empty.2 hnil⟩
      have hkept := h.kept
      rw [hnil, List.map_nil, List.append_nil] at hkept
      exact hkept
  | succ n ih =>
      have hne : s.reqin ≠ s.reqout := by
        intro heq
        have hnil := h.empty.1 heq
        rw [hnil] at hn
        cases hn
      have hstep : ∃ t, step prds s .execute = some t := by
        simp only [step]
        rw [if_pos ⟨hon, hne⟩]
        exact ⟨_, rfl⟩
      obtain ⟨t, ht⟩ := hstep
      have hinv := execute_inv h ht
      obtain ⟨k, rest, hw, rfl⟩ := execute_spec h ht
      rw [hw] at hn
      obtain ⟨s', hrun, hexec, hempty⟩ :=
        ih hinv hon (Nat.succ.inj hn)
      refine ⟨s', ?_, hexec, hempty⟩
      rw [List.replicate_succ, run_cons _ ht]
      exact hrun

theorem QueueInv.exactlyOnce {s : State} (prds : Nat) (h : QueueInv s) :
    ExactlyOnce prds s where
  engine := h.engine
  kept := h.kept
  all := h.all
  once := h.once
  empty := h.empty
  runs := execute_all h

/-- A published entry that the engine will execute once was put in place. -/
theorem publish_only {prds : Nat} {s s' : State} (h : QueueInv s)
    (hs : step prds s .publish = some s') (hP : ExactlyOnce prds s') :
    InPlace s .publish := by
  intro c hc
  simp only [step, Option.mem_def.1 hc] at hs
  cases hs
  have hbusy := h.busy c hc
  have hgap : gap 32 s.reqout s.reqnext = s.waiting.length + 1 := by
    have heq := congrArg List.length hP.engine
    unfold SataQueue.engine at heq
    simpa using heq
  have hlt := gap_lt (n := 32) s.reqout s.reqnext (by decide)
  have hroom : s.waiting.length < 31 := by omega
  have hend : s.reqnext = (s.reqin + 1) % 32 := by
    have hslot := slot_gap h.reqout_lt h.reqnext_lt
    have hold := slot_gap h.reqout_lt h.reqin_lt
    rw [h.length] at hold
    rw [hgap, ← slot_next, hold] at hslot
    exact hslot.symm
  have hnext := hbusy.2.1
  have hslotlt := hbusy.1
  have hinlt := h.reqin_lt
  exact ⟨by omega, hroom⟩

theorem step_only {prds : Nat} {s : State} {a : Action} {s' : State}
    (h : QueueInv s) (hs : step prds s a = some s') (hP : ExactlyOnce prds s') :
    InPlace s a := by
  cases a with
  | publish => exact publish_only h hs hP
  | take t => trivial
  | execute => trivial
  | complete k => trivial
  | satainit => trivial
  | identify w => trivial

/-- In every run after `satainit`, every request is executed exactly once in
every state exactly when every entry was published in place. -/
theorem run_exactlyOnce_iff (prds : Nat) (p : TagPool) (reqs : Nat → Req)
    (mem : Nat → Prd) (as : List Action) :
    AllStates (step prds) (ExactlyOnce prds) (init p reqs mem) as ↔
      AllSteps (step prds) InPlace (init p reqs mem) as :=
  allStates_iff_allSteps (fun _ h => h.exactlyOnce prds)
    (fun _ _ _ h hg hs => step_inv h hg hs)
    (fun _ _ _ h hs hP => step_only h hs hP) as (init_inv p reqs mem)

/-- A read of one sector into low memory. -/
def sample : Transfer := { write := false, buf := 0, ns := 1, lba := 0 }

/-- After one call and a reset, the entry of the call is executed again. -/
theorem reset_replays : ¬ ∀ (prds : Nat) (p : TagPool) (reqs : Nat → Req)
    (mem : Nat → Prd) (as : List Action),
    AllStates (step prds) (ExactlyOnce prds) (init p reqs mem) as := by
  intro hall
  have hrun := hall 0 ⟨fun _ => 0, 0, 0, 0⟩ (fun _ => ⟨0, 0, 0, 0, []⟩)
    (fun _ => ⟨0, 0, 0⟩) [.take sample, .publish, .execute, .complete 0,
      .satainit, .take sample, .publish]
  have hguard := (allStates_iff_allSteps (fun _ h => h.exactlyOnce 0)
    (fun _ _ _ h hg hs => step_inv h hg hs)
    (fun _ _ _ h hs hP => step_only h hs hP) _ (init_inv _ _ _)).1 hrun
  have hnot : ¬ AllSteps (step 0) InPlace
      (init ⟨fun _ => 0, 0, 0, 0⟩ (fun _ => ⟨0, 0, 0, 0, []⟩) (fun _ => ⟨0, 0, 0⟩))
      [.take sample, .publish, .execute, .complete 0, .satainit, .take sample,
        .publish] := by
    decide +kernel
  exact hnot hguard

/-! ## No slot taken while in use -/

/-- The calls whose request the disk may still be working on. -/
def live (s : State) : List Call := s.out ++ s.busy.toList

/-- No two of them have the same slot, and what each put into its entries of
`reqs` and `prds` is still there. -/
structure Intact (s : State) : Prop where
  apart : ((live s).map Call.slot).Nodup
  entry : ∀ c ∈ live s, s.reqs c.slot = ⟨c.req, some c.serial⟩
  table : ∀ c ∈ live s, table s.prds c.slot = c.table

/-- A call finds that fewer than 32 calls took a slot since any outstanding one
did, that one included. -/
def Recent (s : State) : Action → Prop
  | .take _ => ∀ c ∈ s.out, s.calls < c.serial + 32
  | _ => True

instance (s : State) : (a : Action) → Decidable (Recent s a)
  | .take _ => inferInstanceAs (Decidable (∀ c ∈ s.out, s.calls < c.serial + 32))
  | .publish => isTrue trivial
  | .execute => isTrue trivial
  | .complete _ => isTrue trivial
  | .satainit => isTrue trivial
  | .identify _ => isTrue trivial

/-- Runs of `io` calls and completions, without a reset. -/
def ioStep (prds : Nat) (s : State) : Action → Option State
  | .satainit => none
  | a => step prds s a

/-- Slots go round with the calls. -/
structure SlotInv (s : State) : Prop where
  intact : Intact s
  reqnext : s.reqnext = s.calls % 32
  slot : ∀ c ∈ live s, c.slot = c.serial % 32
  older : ∀ c ∈ live s, c.serial < s.calls
  recent : ∀ c ∈ live s, s.calls ≤ c.serial + 32

/-- The slot of the next call is free exactly when every outstanding call is
among the last 31. -/
theorem slot_free_iff {s : State} (h : SlotInv s) :
    (∀ c ∈ live s, c.slot ≠ s.reqnext) ↔
      ∀ c ∈ live s, s.calls < c.serial + 32 := by
  constructor
  · intro hfree c hc
    have hne := hfree c hc
    have hslot := h.slot c hc
    have hle := h.recent c hc
    rw [h.reqnext, hslot] at hne
    omega
  · intro hrecent c hc
    have hlt := hrecent c hc
    have hslot := h.slot c hc
    have holder := h.older c hc
    rw [h.reqnext, hslot]
    omega

theorem table_update (prds : Nat → Prd) {i k : Nat} (t : Transfer) (h : k ≠ i) :
    table (fillprds prds i t) k = table prds k := by
  apply List.map_congr_left
  intro j hj
  have hlt := List.mem_range.1 hj
  exact fillprds_frame prds t (by omega)

theorem live_idle {s : State} (hidle : s.busy = none) : live s = s.out := by
  unfold live
  rw [hidle]
  exact List.append_nil _

theorem live_taken (prds : Nat) {s : State} (t : Transfer)
    (hidle : s.busy = none) :
    live (taken prds s t) = live s ++ [newcall prds s t] := by
  rw [live_idle hidle]
  rfl

theorem mem_live_taken {prds : Nat} {s : State} {t : Transfer} {c : Call}
    (hidle : s.busy = none) (hc : c ∈ live (taken prds s t)) :
    c ∈ live s ∨ c = newcall prds s t := by
  rw [live_taken prds t hidle, List.mem_append, List.mem_singleton] at hc
  exact hc

theorem taken_intact {prds : Nat} {s : State} {t : Transfer} (h : Intact s)
    (hidle : s.busy = none) (hfree : ∀ c ∈ live s, c.slot ≠ s.reqnext) :
    Intact (taken prds s t) where
  apart := by
    rw [live_taken prds t hidle, List.map_append]
    apply List.nodup_append.2
    refine ⟨h.apart, List.nodup_singleton _, ?_⟩
    intro a ha b hb heq
    obtain ⟨c, hc, rfl⟩ := List.mem_map.1 ha
    rw [List.map_singleton, List.mem_singleton] at hb
    exact hfree c hc (heq.trans hb)
  entry := by
    intro c hc
    show Function.update s.reqs s.reqnext _ c.slot = _
    cases mem_live_taken hidle hc with
    | inl hold =>
        rw [Function.update_of_ne (hfree c hold)]
        exact h.entry c hold
    | inr hnew =>
        rw [hnew]
        exact Function.update_self _ _ _
  table := by
    intro c hc
    show SataQueue.table (fillprds s.prds s.reqnext t) c.slot = _
    cases mem_live_taken hidle hc with
    | inl hold =>
        rw [table_update _ _ (hfree c hold)]
        exact h.table c hold
    | inr hnew =>
        rw [hnew]
        rfl

theorem take_slots {prds : Nat} {s s' : State} {t : Transfer} (h : SlotInv s)
    (hg : Recent s (.take t)) (hs : step prds s (.take t) = some s') :
    SlotInv s' := by
  simp only [step] at hs
  split at hs
  case isFalse => cases hs
  case isTrue hen =>
      cases hs
      have hrecent : ∀ c ∈ live s, s.calls < c.serial + 32 := by
        rw [live_idle hen.1]
        exact hg
      have hfree := (slot_free_iff h).2 hrecent
      exact {
        intact := taken_intact h.intact hen.1 hfree
        reqnext := by
          show (s.reqnext + 1) % 32 = (s.calls + 1) % 32
          rw [h.reqnext, Nat.mod_add_mod]
        slot := by
          intro c hc
          cases mem_live_taken hen.1 hc with
          | inl hold => exact h.slot c hold
          | inr hnew =>
              rw [hnew]
              exact h.reqnext
        older := by
          intro c hc
          cases mem_live_taken hen.1 hc with
          | inl hold => exact Nat.lt_succ_of_lt (h.older c hold)
          | inr hnew =>
              rw [hnew]
              exact Nat.lt_succ_self _
        recent := by
          intro c hc
          cases mem_live_taken hen.1 hc with
          | inl hold => exact hrecent c hold
          | inr hnew =>
              rw [hnew]
              show s.calls + 1 ≤ s.calls + 32
              omega }

/-- A step that leaves the memory and `reqnext` alone, and adds no call. -/
theorem SlotInv.mono {s s' : State} (h : SlotInv s)
    (hsub : (live s').Sublist (live s)) (hreqs : s'.reqs = s.reqs)
    (hprds : s'.prds = s.prds) (hnext : s'.reqnext = s.reqnext)
    (hcalls : s'.calls = s.calls) : SlotInv s' where
  intact := {
    apart := (hsub.map Call.slot).nodup h.intact.apart
    entry := by
      intro c hc
      rw [hreqs]
      exact h.intact.entry c (hsub.subset hc)
    table := by
      intro c hc
      rw [hprds]
      exact h.intact.table c (hsub.subset hc) }
  reqnext := by
    rw [hnext, hcalls]
    exact h.reqnext
  slot := fun c hc => h.slot c (hsub.subset hc)
  older := by
    intro c hc
    rw [hcalls]
    exact h.older c (hsub.subset hc)
  recent := by
    intro c hc
    rw [hcalls]
    exact h.recent c (hsub.subset hc)

theorem ioStep_slots {prds : Nat} {s : State} {a : Action} {s' : State}
    (h : SlotInv s) (hg : Recent s a) (hs : ioStep prds s a = some s') :
    SlotInv s' := by
  cases a with
  | take t => exact take_slots h hg hs
  | publish =>
      simp only [ioStep, step] at hs
      split at hs
      case h_1 => cases hs
      case h_2 c hc =>
          cases hs
          refine h.mono ?_ rfl rfl rfl rfl
          show ((s.out ++ [c]) ++ []).Sublist (live s)
          unfold live
          rw [hc, List.append_nil]
          exact List.Sublist.refl _
  | execute =>
      simp only [ioStep, step] at hs
      split at hs
      case isFalse => cases hs
      case isTrue =>
          cases hs
          exact h.mono (List.Sublist.refl _) rfl rfl rfl rfl
  | complete k =>
      simp only [ioStep, step] at hs
      split at hs
      case h_1 => cases hs
      case h_2 =>
          split at hs
          case isFalse => cases hs
          case isTrue =>
              cases hs
              refine h.mono ?_ rfl rfl rfl rfl
              exact (List.eraseIdx_sublist s.out k).append_right _
  | satainit => cases hs
  | identify w =>
      simp only [ioStep, step] at hs
      split at hs
      case isFalse => cases hs
      case isTrue =>
          cases hs
          exact h.mono (List.Sublist.refl _) rfl rfl rfl rfl

/-- A call whose slot was free found the outstanding ones recent. -/
theorem ioStep_only {prds : Nat} {s : State} {a : Action} {s' : State}
    (h : SlotInv s) (hs : ioStep prds s a = some s') (hP : Intact s') :
    Recent s a := by
  cases a with
  | take t =>
      simp only [ioStep, step] at hs
      split at hs
      case isFalse => cases hs
      case isTrue hen =>
          cases hs
          have happart := hP.apart
          rw [live_taken prds t hen.1, List.map_append] at happart
          have hfree : ∀ c ∈ live s, c.slot ≠ s.reqnext := by
            intro c hc heq
            exact (List.nodup_append.1 happart).2.2 c.slot
              (List.mem_map_of_mem hc) s.reqnext (List.mem_singleton_self _) heq
          have hrecent := (slot_free_iff h).1 hfree
          rw [live_idle hen.1] at hrecent
          exact hrecent
  | publish => trivial
  | execute => trivial
  | complete k => trivial
  | satainit => trivial
  | identify w => trivial

theorem init_slots (p : TagPool) (reqs : Nat → Req) (mem : Nat → Prd) :
    SlotInv (init p reqs mem) where
  intact := {
    apart := List.nodup_nil
    entry := by
      intro c hc
      cases hc
    table := by
      intro c hc
      cases hc }
  reqnext := rfl
  slot := by
    intro c hc
    cases hc
  older := by
    intro c hc
    cases hc
  recent := by
    intro c hc
    cases hc

/-- In every run of `io` calls, no slot is taken while its request is
outstanding exactly when every call found the outstanding requests recent. -/
theorem run_intact_iff (prds : Nat) (p : TagPool) (reqs : Nat → Req)
    (mem : Nat → Prd) (as : List Action) :
    AllStates (ioStep prds) Intact (init p reqs mem) as ↔
      AllSteps (ioStep prds) Recent (init p reqs mem) as :=
  allStates_iff_allSteps (fun _ h => h.intact)
    (fun _ _ _ h hg hs => ioStep_slots h hg hs)
    (fun _ _ _ h hs hP => ioStep_only h hs hP) as (init_slots p reqs mem)

/-- One request stays outstanding while 31 others pass it; the next call takes
its slot. -/
theorem passed_not_intact : ¬ ∀ (prds : Nat) (p : TagPool) (reqs : Nat → Req)
    (mem : Nat → Prd) (as : List Action),
    AllStates (ioStep prds) Intact (init p reqs mem) as := by
  intro hall
  have hrun := hall 0 ⟨fun _ => 0, 0, 0, 0⟩ (fun _ => ⟨0, 0, 0, 0, []⟩)
    (fun _ => ⟨0, 0, 0⟩)
    ([.identify 1, .take sample, .publish, .execute] ++
      (List.replicate 31 [.take sample, .publish, .execute, .complete 1]).flatten ++
      [.take sample])
  have hguard := (allStates_iff_allSteps (fun _ h => h.intact)
    (fun _ _ _ h hg hs => ioStep_slots h hg hs)
    (fun _ _ _ h hs hP => ioStep_only h hs hP) _ (init_slots _ _ _)).1 hrun
  have hnot : ¬ AllSteps (ioStep 0) Recent
      (init ⟨fun _ => 0, 0, 0, 0⟩ (fun _ => ⟨0, 0, 0, 0, []⟩) (fun _ => ⟨0, 0, 0⟩))
      ([.identify 1, .take sample, .publish, .execute] ++
        (List.replicate 31 [.take sample, .publish, .execute, .complete 1]).flatten ++
        [.take sample]) := by
    decide +kernel
  exact hnot hguard

end Kirkwood.Ports.SataQueue
