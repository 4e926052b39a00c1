import Kirkwood.Ports.XorPorts

/-!
# Callers that wait for a port

A caller that finds no port releases the lock of `xor` and then sleeps on its
rendezvous, with a condition that is never true.  Between the two any number of
ports may be freed, and a `wakeup` then finds nobody asleep; and another caller
may be asleep already, where a rendezvous admits one.

A caller is stranded when it is asleep, the search would find a port for it, and
no other caller is still to wake it.  Who is still to wake is read in two ways:
the callers in `portput` that have not called `wakeup` yet, and those together
with the callers that have a port, and will put it.

## Main results

* `step_waitInv`, `step_inTime`: a step keeps callers from being stranded, and the
  rendezvous to one sleeper, exactly when it is no `sleep` that comes too late;
* `run_waits_iff`: the same over runs;
* `late_sleeps`: all ports are put between a caller's search and its sleep.
-/

namespace Kirkwood.Ports.XorWaiters

open Kirkwood.Verified
open Kirkwood.Verified.Trans
open Kirkwood.Ports.XorPorts

/-! ## Waiting -/

/-- Asleep on the rendezvous of `xor`. -/
def Asleep (s : State) (i : Nat) (r : Req) : Prop := s.procs i = .asleep r

/-- In `portput`, before `wakeup`. -/
def Putting : Pc → Prop
  | .putlock _ _ | .putfree _ _ | .putwake => True
  | _ => False

/-- With a port, or in `portput` before `wakeup`. -/
def HoldingOrPutting : Pc → Prop
  | .getunlock _ _ | .held _ _ | .lo _ _ | .hi _ _ | .started _ _ => True
  | pc => Putting pc

/-- One of the two readings of "still to issue a wakeup". -/
def StillToWake (wakes : Pc → Prop) : Prop :=
  wakes = Putting ∨ wakes = HoldingOrPutting

/-- Nobody is asleep with a port free for it and no other caller still to wake,
and at most one caller is asleep. -/
structure Waits (wakes : Pc → Prop) (s : State) : Prop where
  stranded : ∀ i r, Asleep s i r → search s.sh.inuse r ≠ none →
    ∃ j, j ≠ i ∧ wakes (s.procs j)
  one : ∀ i j q r, Asleep s i q → Asleep s j r → i = j

/-- A caller that goes to sleep is the only one, and finds no port at that moment,
or another caller is still to wake it. -/
def InTime (wakes : Pc → Prop) (s : State) : Action → Prop
  | .next i => ∀ r, s.procs i = .tosleep r → (∀ j q, ¬ Asleep s j q) ∧
      (search s.sh.inuse r ≠ none → ∃ j, wakes (s.procs j))
  | _ => True

/-! ## Facts on the marks -/

private theorem meminitport_some {inuse : Port → Inuse} {b : Port} :
    meminitport inuse b ≠ none ↔
      (inuse b = .Punused ∧ inuse (b + 1) ≠ .Pmeminit) ∨
        (inuse (b + 1) = .Punused ∧ inuse b ≠ .Pmeminit) := by
  unfold meminitport
  split
  · simp [*]
  · split
    · simp [*]
    · simp [*]

private theorem search_meminit_some {inuse : Port → Inuse} {v : BitVec 64} :
    search inuse (.meminit v) ≠ none ↔
      meminitport inuse 0 ≠ none ∨ meminitport inuse 2 ≠ none := by
  unfold search
  cases h : meminitport inuse 0 with
  | some p => simp
  | none => simp

private theorem search_other_some {inuse : Port → Inuse} :
    search inuse .other ≠ none ↔ ∃ p, inuse p = .Punused := by
  unfold search
  rw [Ne, List.find?_eq_none]
  simp

/-- Marking a free port gives no waiter a port. -/
theorem search_mark {inuse : Port → Inuse} {p : Port} {u : Inuse}
    (hp : inuse p = .Punused) (hu : u ≠ .Punused) (r : Req)
    (h : search (Function.update inuse p u) r ≠ none) : search inuse r ≠ none := by
  have hfree : ∀ q, Function.update inuse p u q = .Punused → inuse q = .Punused := by
    intro q hq
    by_cases hqp : q = p
    · rw [hqp, Function.update_self] at hq
      exact absurd hq hu
    · rwa [Function.update_of_ne hqp] at hq
  have hinit : ∀ q, Function.update inuse p u q ≠ .Pmeminit → inuse q ≠ .Pmeminit := by
    intro q hq
    by_cases hqp : q = p
    · rw [hqp, hp]
      exact nofun
    · rwa [Function.update_of_ne hqp] at hq
  have hport : ∀ b, meminitport (Function.update inuse p u) b ≠ none →
      meminitport inuse b ≠ none := by
    intro b hb
    rw [meminitport_some] at hb ⊢
    obtain ⟨h0, h1⟩ | ⟨h0, h1⟩ := hb
    · exact .inl ⟨hfree _ h0, hinit _ h1⟩
    · exact .inr ⟨hfree _ h0, hinit _ h1⟩
  cases r with
  | meminit v =>
      rw [search_meminit_some] at h ⊢
      exact h.imp (hport 0) (hport 2)
  | other =>
      rw [search_other_some] at h ⊢
      obtain ⟨q, hq⟩ := h
      exact ⟨q, hfree q hq⟩

/-! ## Who wakes -/

section
variable {wakes : Pc → Prop}

/-- Who is still to wake stays so until its `wakeup`. -/
theorem wakes_moved (hw : StillToWake wakes) {s s' : Shared} {i : Nat}
    {pc pc' : Pc} {w : Option Nat} (h : Moved s i pc s' pc' w) (hpc : wakes pc)
    (hne : pc ≠ .putwake) : wakes pc' := by
  obtain rfl | rfl := hw
  · cases h with
    | putlock r p _ => trivial
    | free r p => trivial
    | wake => exact absurd rfl hne
    | start hs =>
        obtain ⟨rfl, _⟩ | ⟨v, rfl, _⟩ := hs
        · exact hpc.elim
        · exact hpc.elim
    | _ => exact hpc.elim
  · cases h with
    | wake => exact absurd rfl hne
    | getunlock r p => trivial
    | storelo v p => trivial
    | storehi v p => trivial
    | start _ => trivial
    | finish _ => trivial
    | putlock r p _ => trivial
    | free r p => trivial
    | _ => exact hpc.elim

theorem wakes_putwake (hw : StillToWake wakes) : wakes .putwake := by
  obtain rfl | rfl := hw
  · trivial
  · trivial

/-- Who is still to wake is not in the loop of `portget`. -/
theorem wakes_not (hw : StillToWake wakes) {pc : Pc} (h : wakes pc) :
    pc ≠ .idle ∧ (∀ r, pc ≠ .tosleep r) ∧ pc.wake = pc := by
  obtain rfl | rfl := hw
  · cases pc with
    | putlock r p => exact ⟨nofun, nofun, rfl⟩
    | putfree r p => exact ⟨nofun, nofun, rfl⟩
    | putwake => exact ⟨nofun, nofun, rfl⟩
    | _ => exact h.elim
  · cases pc with
    | idle => exact h.elim
    | tosleep r => exact h.elim
    | asleep r => exact h.elim
    | _ => exact ⟨nofun, nofun, rfl⟩

end

/-! ## Who is asleep -/

/-- The rendezvous holds the one caller asleep. -/
def Sync (s : State) : Prop :=
  ∀ i, (∃ r, Asleep s i r) ↔ s.sh.rendez = some i

section
variable {s : State} {i k : Nat} {q : Req} {sh : Shared} {pc : Pc} {w : Option Nat}

/-- Who is asleep after a statement went to sleep by it, or was asleep and is not
woken. -/
theorem asleep_next
    (h : Asleep { sh := sh, procs := Function.update (wakeup w s.procs) i pc } k q) :
    (k = i ∧ pc = .asleep q) ∨ (k ≠ i ∧ Asleep s k q ∧ w ≠ some k) := by
  have h : Function.update (wakeup w s.procs) i pc k = .asleep q := h
  by_cases hk : k = i
  · rw [hk, Function.update_self] at h
    exact .inl ⟨hk, h⟩
  · rw [Function.update_of_ne hk, wakeup] at h
    by_cases hw : w = some k
    · rw [if_pos hw] at h
      cases hpc : s.procs k with
      | _ =>
          rw [hpc] at h
          cases h
    · rw [if_neg hw] at h
      exact .inr ⟨hk, h, hw⟩

theorem asleep_kept (hk : k ≠ i) (hw : w ≠ some k) (h : Asleep s k q) :
    Asleep { sh := sh, procs := Function.update (wakeup w s.procs) i pc } k q := by
  show Function.update (wakeup w s.procs) i pc k = .asleep q
  rw [Function.update_of_ne hk, wakeup, if_neg hw]
  exact h

end

/-- A statement puts its caller to sleep, wakes who is on the rendezvous, or does
neither. -/
theorem moved_rendez {s s' : Shared} {i : Nat} {pc pc' : Pc} {w : Option Nat}
    (h : Moved s i pc s' pc' w) :
    (∃ r, pc = .tosleep r ∧ pc' = .asleep r ∧ w = none ∧ s'.inuse = s.inuse ∧
      (s.rendez = none → s'.rendez = some i)) ∨
    (pc = .putwake ∧ pc' = .putunlock ∧ w = s.rendez ∧ s'.rendez = none) ∨
    (pc ≠ .putwake ∧ (∀ r, pc ≠ .tosleep r) ∧ (∀ r, pc' ≠ .asleep r) ∧ w = none ∧
      s'.rendez = s.rendez) := by
  cases h with
  | sleep r hr => exact .inl ⟨r, rfl, rfl, rfl, rfl, fun _ => rfl⟩
  | panic r j hr =>
      refine .inl ⟨r, rfl, rfl, rfl, rfl, fun h => ?_⟩
      rw [hr] at h
      cases h
  | wake => exact .inr (.inl ⟨rfl, rfl, rfl, rfl⟩)
  | start hs =>
      obtain ⟨rfl, _⟩ | ⟨v, rfl, _⟩ := hs
      · exact .inr (.inr ⟨nofun, nofun, nofun, rfl, rfl⟩)
      · exact .inr (.inr ⟨nofun, nofun, nofun, rfl, rfl⟩)
  | _ => exact .inr (.inr ⟨nofun, nofun, nofun, rfl, rfl⟩)

/-- A caller asleep takes no statement. -/
theorem not_moved_asleep {s s' : Shared} {i : Nat} {r : Req} {pc' : Pc}
    {w : Option Nat} : ¬ Moved s i (.asleep r) s' pc' w := by
  intro h
  cases h with
  | start hs =>
      obtain ⟨heq, _⟩ | ⟨v, heq, _⟩ := hs
      · cases heq
      · cases heq

/-! ## One step -/

/-- The callers, the rendezvous and who waits. -/
structure WaitInv (wakes : Pc → Prop) (s : State) : Prop where
  inv : Inv s
  sync : Sync s
  waits : Waits wakes s

section
variable {wakes : Pc → Prop} {s : State} {i : Nat} {sh : Shared} {pc : Pc}
variable {w : Option Nat}

/-- Who is still to wake and does not do so in a statement is so after it. -/
private theorem wakes_next (hw : StillToWake wakes)
    (hm : Moved s.sh i (s.procs i) sh pc w) (hne : s.procs i ≠ .putwake) {j : Nat}
    (hj : wakes (s.procs j)) :
    wakes (Function.update (wakeup w s.procs) i pc j) := by
  by_cases hji : j = i
  · subst hji
    rw [Function.update_self]
    exact wakes_moved hw hm hj hne
  · obtain hpc | hpc := procs_other s.procs w pc hji
    · rw [hpc]
      exact hj
    · rw [hpc, (wakes_not hw hj).2.2]
      exact hj

private theorem next_stranded (hw : StillToWake wakes) (h : WaitInv wakes s)
    (hm : Moved s.sh i (s.procs i) sh pc w) (hin : InTime wakes s (.next i))
    {k : Nat} {q : Req}
    (hk : Asleep { sh := sh, procs := Function.update (wakeup w s.procs) i pc } k q)
    (hfound : search sh.inuse q ≠ none) :
    ∃ j, j ≠ k ∧ wakes (Function.update (wakeup w s.procs) i pc j) := by
  obtain ⟨rfl, rfl⟩ | ⟨hki, hk', hwk⟩ := asleep_next hk
  · obtain ⟨r, hpc, heq, _, huse, _⟩ | ⟨_, heq, _⟩ | ⟨_, _, hnot, _⟩ := moved_rendez hm
    · cases heq
      rw [huse] at hfound
      obtain ⟨j, hj⟩ := (hin q hpc).2 hfound
      have hjk : j ≠ k := by
        rintro rfl
        exact (wakes_not hw hj).2.1 q hpc
      exact ⟨j, hjk, wakes_next hw hm (by rw [hpc]; exact nofun) hj⟩
    · cases heq
    · exact absurd rfl (hnot q)
  · have hne : s.procs i ≠ .putwake := by
      intro hpc
      have hrendez := (h.sync k).1 ⟨q, hk'⟩
      rw [hpc] at hm
      cases hm with
      | wake => exact hwk hrendez
      | start hs =>
          obtain ⟨heq, _⟩ | ⟨v, heq, _⟩ := hs
          · cases heq
          · cases heq
    have hbefore : search s.sh.inuse q ≠ none →
        ∃ j, j ≠ k ∧ wakes (Function.update (wakeup w s.procs) i pc j) := by
      intro hs
      obtain ⟨j, hjk, hj⟩ := h.waits.stranded k q hk' hs
      exact ⟨j, hjk, wakes_next hw hm hne hj⟩
    obtain ⟨_, huse⟩ | ⟨r, p, hpc, _, huse⟩ | ⟨r, p, _, rfl, _⟩ := moved_port hm
    · exact hbefore (huse ▸ hfound)
    · exact hbefore (search_mark (h.inv.found_free hpc) (kind_ne r) q (huse ▸ hfound))
    · refine ⟨i, Ne.symm hki, ?_⟩
      rw [Function.update_self]
      exact wakes_putwake hw

private theorem next_one (h : WaitInv wakes s)
    (hm : Moved s.sh i (s.procs i) sh pc w) (hin : InTime wakes s (.next i))
    {j k : Nat} {q r : Req}
    (hj : Asleep { sh := sh, procs := Function.update (wakeup w s.procs) i pc } j q)
    (hk : Asleep { sh := sh, procs := Function.update (wakeup w s.procs) i pc } k r) :
    j = k := by
  have halone : ∀ {x y p z}, pc = .asleep p → Asleep s x y → z = x := by
    intro x y p z hpc hx
    obtain ⟨r, hto, _⟩ | ⟨_, heq, _⟩ | ⟨_, _, hnot, _⟩ := moved_rendez hm
    · exact absurd hx ((hin r hto).1 x y)
    · rw [heq] at hpc
      cases hpc
    · exact absurd hpc (hnot p)
  obtain ⟨rfl, hpj⟩ | ⟨_, hj, _⟩ := asleep_next hj
  · obtain ⟨rfl, _⟩ | ⟨_, hk, _⟩ := asleep_next hk
    · rfl
    · exact halone hpj hk
  · obtain ⟨_, hpk⟩ | ⟨_, hk, _⟩ := asleep_next hk
    · exact (halone hpk hj).symm
    · exact h.waits.one _ _ _ _ hj hk

private theorem next_sync (h : WaitInv wakes s)
    (hm : Moved s.sh i (s.procs i) sh pc w) (hin : InTime wakes s (.next i)) :
    Sync { sh := sh, procs := Function.update (wakeup w s.procs) i pc } := by
  intro k
  obtain ⟨r, hto, rfl, rfl, _, hset⟩ | ⟨hpc, rfl, rfl, hset⟩ | ⟨_, hto, hnot, rfl, hset⟩ :=
    moved_rendez hm
  · have hnone : s.sh.rendez = none := by
      cases hr : s.sh.rendez with
      | none => rfl
      | some j =>
          obtain ⟨q, hj⟩ := (h.sync j).2 hr
          exact absurd hj ((hin r hto).1 j q)
    have hrendez : sh.rendez = some i := hset hnone
    constructor
    · rintro ⟨q, hq⟩
      obtain ⟨rfl, _⟩ | ⟨_, hk, _⟩ := asleep_next hq
      · exact hrendez
      · exact absurd hk ((hin r hto).1 k q)
    · intro hk
      rw [hrendez, Option.some.injEq] at hk
      exact ⟨r, hk ▸ Function.update_self ..⟩
  · constructor
    · rintro ⟨q, hq⟩
      obtain ⟨_, heq⟩ | ⟨_, hk, hwoken⟩ := asleep_next hq
      · cases heq
      · exact absurd ((h.sync k).1 ⟨q, hk⟩) hwoken
    · intro hk
      rw [hset] at hk
      cases hk
  · rw [hset, ← h.sync k]
    constructor
    · rintro ⟨q, hq⟩
      obtain ⟨_, heq⟩ | ⟨_, hk, _⟩ := asleep_next hq
      · exact absurd heq (hnot q)
      · exact ⟨q, hk⟩
    · rintro ⟨q, hq⟩
      refine ⟨q, asleep_kept ?_ nofun hq⟩
      rintro rfl
      have hpc : s.procs k = .asleep q := hq
      rw [hpc] at hm
      exact not_moved_asleep hm

/-- Who goes to sleep does so in time if the callers wait as they should
afterwards. -/
private theorem next_inTime
    (hm : Moved s.sh i (s.procs i) sh pc w)
    (h : Waits wakes { sh := sh, procs := Function.update (wakeup w s.procs) i pc }) :
    InTime wakes s (.next i) := by
  intro r hto
  obtain ⟨q, hto', rfl, rfl, huse, _⟩ | ⟨hpc, _⟩ | ⟨_, hnot, _⟩ := moved_rendez hm
  · have hqr : q = r := by
      rw [hto] at hto'
      cases hto'
      rfl
    subst hqr
    have hself : Asleep { sh := sh
                          procs := Function.update (wakeup none s.procs) i (.asleep q) }
        i q := Function.update_self ..
    constructor
    · intro j p hj
      have hji : j ≠ i := by
        rintro rfl
        rw [Asleep, hto] at hj
        cases hj
      exact hji (h.one j i p q (asleep_kept hji nofun hj) hself)
    · intro hs
      obtain ⟨j, hji, hj⟩ := h.stranded i q hself (by rw [← huse] at hs; exact hs)
      refine ⟨j, ?_⟩
      have hj : wakes (Function.update (wakeup none s.procs) i (.asleep q) j) := hj
      rw [Function.update_of_ne hji] at hj
      exact hj
  · rw [hto] at hpc
    cases hpc
  · exact absurd hto (hnot r)

end

theorem step_waitInv {wakes : Pc → Prop} (hw : StillToWake wakes) {s s' : State}
    {a : Action} (h : WaitInv wakes s) (hin : InTime wakes s a)
    (hstep : step s a = some s') : WaitInv wakes s' := by
  have hinv := step_inv h.inv hstep
  obtain ⟨i, r, rfl, hpc, rfl⟩ | ⟨i, sh, pc, w, rfl, hm, rfl⟩ | ⟨p, rfl, _, rfl⟩ :=
    step_did hstep
  · have hasleep : ∀ k q,
        Asleep { s with procs := Function.update s.procs i (.getlock r) } k q ↔
          Asleep s k q := by
      intro k q
      show Function.update s.procs i (.getlock r) k = _ ↔ s.procs k = _
      by_cases hk : k = i
      · rw [hk, Function.update_self, hpc]
        exact iff_of_false nofun nofun
      · rw [Function.update_of_ne hk]
    refine ⟨hinv, fun k => ?_, fun k q hk hs => ?_, fun j k q r hj hk => ?_⟩
    · simp only [hasleep]
      exact h.sync k
    · obtain ⟨j, hjk, hj⟩ := h.waits.stranded k q ((hasleep k q).1 hk) hs
      refine ⟨j, hjk, ?_⟩
      have hji : j ≠ i := by
        rintro rfl
        exact (wakes_not hw hj).1 hpc
      show wakes (Function.update s.procs i (.getlock r) j)
      rwa [Function.update_of_ne hji]
    · exact h.waits.one j k q r ((hasleep j q).1 hj) ((hasleep k r).1 hk)
  · exact ⟨hinv, next_sync h hm hin, fun _ _ => next_stranded hw h hm hin,
      fun _ _ _ _ => next_one h hm hin⟩
  · exact ⟨hinv, h.sync, h.waits.stranded, h.waits.one⟩

theorem step_inTime {wakes : Pc → Prop} {s s' : State} {a : Action}
    (hstep : step s a = some s') (h : Waits wakes s') : InTime wakes s a := by
  obtain ⟨i, r, rfl, _, _⟩ | ⟨i, sh, pc, w, rfl, hm, rfl⟩ | ⟨p, rfl, _, _⟩ :=
    step_did hstep
  · trivial
  · exact next_inTime hm h
  · trivial

/-! ## Runs -/

theorem init_waitInv (wakes : Pc → Prop) (lo hi : Fin 2 → BitVec 32) :
    WaitInv wakes (init lo hi) where
  inv := init_inv lo hi
  sync := fun _ => iff_of_false (fun ⟨_, h⟩ => nomatch h) nofun
  waits := { stranded := nofun, one := nofun }

private theorem run_waits {wakes : Pc → Prop} (hw : StillToWake wakes)
    (lo hi : Fin 2 → BitVec 32) (as : List Action) :
    AllStates step (Waits wakes) (init lo hi) as ↔
      AllSteps step (InTime wakes) (init lo hi) as :=
  allStates_iff_allSteps (I := WaitInv wakes) (fun _ h => h.waits)
    (fun _ _ _ h hin hstep => step_waitInv hw h hin hstep)
    (fun _ _ _ _ hstep h => step_inTime hstep h) as (init_waitInv wakes lo hi)

/-- In a run no caller is stranded and at most one is asleep, in all its states,
exactly when every `sleep` is in time; whether the callers still to wake are those
in `portput`, or also those with a port. -/
theorem run_waits_iff (lo hi : Fin 2 → BitVec 32) (as : List Action) :
    (AllStates step (Waits Putting) (init lo hi) as ↔
      AllSteps step (InTime Putting) (init lo hi) as) ∧
    (AllStates step (Waits HoldingOrPutting) (init lo hi) as ↔
      AllSteps step (InTime HoldingOrPutting) (init lo hi) as) :=
  ⟨run_waits (.inl rfl) lo hi as, run_waits (.inr rfl) lo hi as⟩

/-! ## A sleep that comes too late -/

private theorem port0_lt : 0 < 4 := by decide

private theorem port2_lt : 2 < 4 := by decide

/-- Two callers take the ports for memory initialisation, a third searches and
fails; both ports are put before the third sleeps. -/
def lateRun : List Action :=
  [.call 0 (.meminit 0), .call 1 (.meminit 0), .call 2 (.meminit 0)] ++
    List.replicate 7 (.next 0) ++ List.replicate 7 (.next 1) ++
    List.replicate 3 (.next 2) ++
    .complete ⟨0, port0_lt⟩ :: List.replicate 5 (.next 0) ++
    .complete ⟨2, port2_lt⟩ :: List.replicate 5 (.next 1) ++ [.next 2]

/-- The same, with a fourth caller; the third and the fourth fail and sleep while
the ports are in use. -/
def twoSleepRun : List Action :=
  [.call 0 (.meminit 0), .call 1 (.meminit 0), .call 2 (.meminit 0),
    .call 3 (.meminit 0)] ++
    List.replicate 7 (.next 0) ++ List.replicate 7 (.next 1) ++
    List.replicate 4 (.next 2) ++ List.replicate 4 (.next 3)

/-- Whom an action is about. -/
def Action.caller : Action → Option Nat
  | .call i _ | .next i => some i
  | .complete _ => none

/-- A caller no action is about stays out of the functions. -/
theorem run_idle {s s' : State} {j : Nat} (as : List Action)
    (has : ∀ a ∈ as, Action.caller a ≠ some j) (hj : s.procs j = .idle)
    (h : run step s as = some s') : s'.procs j = .idle := by
  induction as generalizing s with
  | nil =>
      cases h
      exact hj
  | cons a as ih =>
      cases hs : step s a with
      | none => simp [run, hs] at h
      | some t =>
          rw [run_cons as hs] at h
          refine ih (fun b hb => has b (List.mem_cons_of_mem a hb)) ?_ h
          have ha := has a List.mem_cons_self
          obtain ⟨i, r, rfl, _, rfl⟩ | ⟨i, sh, pc, w, rfl, _, rfl⟩ | ⟨p, rfl, _, rfl⟩ :=
            step_did hs
          · have hji : j ≠ i := fun heq => ha (heq ▸ rfl)
            show Function.update s.procs i (.getlock r) j = _
            rw [Function.update_of_ne hji, hj]
          · have hji : j ≠ i := fun heq => ha (heq ▸ rfl)
            obtain hpc | hpc := procs_other s.procs w pc hji
            · exact hpc.trans hj
            · exact hpc.trans (by rw [hj]; rfl)
          · exact hj

/-- A caller asleep while the search would find a port and nobody else is at work. -/
private theorem not_waits_alone {wakes : Pc → Prop} (hw : ¬ wakes .idle) {s : State}
    {k : Nat} {r : Req} (hk : s.procs k = .asleep r) (hfound : search s.sh.inuse r ≠ none)
    (hidle : ∀ j, j ≠ k → s.procs j = .idle) : ¬ Waits wakes s := by
  intro h
  obtain ⟨j, hj, hwakes⟩ := h.stranded k r hk hfound
  rw [hidle j hj] at hwakes
  exact hw hwakes

private theorem not_waits_two {wakes : Pc → Prop} {s : State} {j k : Nat} {q r : Req}
    (hjk : j ≠ k) (hj : s.procs j = .asleep q) (hk : s.procs k = .asleep r) :
    ¬ Waits wakes s :=
  fun h => hjk (h.one j k q r hj hk)

/-- No action of `lateRun` is about a caller from the fourth on. -/
private theorem lateRun_caller {j : Nat} (h0 : j ≠ 0) (h1 : j ≠ 1) (h2 : j ≠ 2) :
    ∀ a ∈ lateRun, Action.caller a ≠ some j := by
  have hcallers : ∀ a ∈ lateRun, Action.caller a = none ∨ Action.caller a = some 0 ∨
      Action.caller a = some 1 ∨ Action.caller a = some 2 := by
    decide +kernel
  intro a ha hcaller
  obtain h | h | h | h := hcallers a ha
  · rw [h] at hcaller
    cases hcaller
  · rw [h, Option.some.injEq] at hcaller
    exact h0 hcaller.symm
  · rw [h, Option.some.injEq] at hcaller
    exact h1 hcaller.symm
  · rw [h, Option.some.injEq] at hcaller
    exact h2 hcaller.symm

/-- All ports are free and all other callers are done, and the third is asleep;
in the other run two callers are asleep. -/
theorem late_sleeps :
    (∃ s, run step (init (fun _ => 0) fun _ => 0) lateRun = some s ∧
      s.procs 2 = .asleep (.meminit 0) ∧ (∀ p, s.sh.inuse p = .Punused) ∧
      (∀ j, j ≠ 2 → s.procs j = .idle) ∧
      ¬ Waits Putting s ∧ ¬ Waits HoldingOrPutting s) ∧
    (∃ s, run step (init (fun _ => 0) fun _ => 0) twoSleepRun = some s ∧
      s.procs 2 = .asleep (.meminit 0) ∧ s.procs 3 = .asleep (.meminit 0) ∧
      s.sh.panicked = true ∧ ¬ Waits Putting s ∧ ¬ Waits HoldingOrPutting s) := by
  constructor
  · have hrun : (run step (init (fun _ => 0) fun _ => 0) lateRun).map
        (fun s => (s.procs 0, s.procs 1, s.procs 2, (List.finRange 4).map s.sh.inuse)) =
        some (.idle, .idle, .asleep (.meminit 0), List.replicate 4 .Punused) := by
      decide +kernel
    obtain ⟨s, hs, heq⟩ := Option.map_eq_some_iff.1 hrun
    simp only [Prod.mk.injEq] at heq
    obtain ⟨h0, h1, h2, huse⟩ := heq
    have hfree : ∀ p, s.sh.inuse p = .Punused := by
      intro p
      refine List.eq_of_mem_replicate (n := 4) ?_
      rw [← huse]
      exact List.mem_map_of_mem (List.mem_finRange p)
    have hidle : ∀ j, j ≠ 2 → s.procs j = .idle := by
      intro j hj
      by_cases hj0 : j = 0
      · rw [hj0, h0]
      · by_cases hj1 : j = 1
        · rw [hj1, h1]
        · exact run_idle lateRun (lateRun_caller hj0 hj1 hj) rfl hs
    have hfound : search s.sh.inuse (.meminit 0) ≠ none :=
      search_meminit_some.2 (.inl (meminitport_some.2 (.inl
        ⟨hfree 0, by rw [hfree]; exact nofun⟩)))
    exact ⟨s, hs, h2, hfree, hidle, not_waits_alone id h2 hfound hidle,
      not_waits_alone id h2 hfound hidle⟩
  · have hrun : (run step (init (fun _ => 0) fun _ => 0) twoSleepRun).map
        (fun s => (s.procs 2, s.procs 3, s.sh.panicked)) =
        some (.asleep (.meminit 0), .asleep (.meminit 0), true) := by
      decide +kernel
    obtain ⟨s, hs, heq⟩ := Option.map_eq_some_iff.1 hrun
    simp only [Prod.mk.injEq] at heq
    obtain ⟨h2, h3, hp⟩ := heq
    exact ⟨s, hs, h2, h3, hp, not_waits_two (by decide) h2 h3,
      not_waits_two (by decide) h2 h3⟩

end Kirkwood.Ports.XorWaiters
