import Kirkwood.Ports.SataProcs

/-!
# What an `io` call of the SATA disk gives back

A call of `io` holds `reqsl`, a place in `tagsinuse` and a tag, one after the
other, and ends in one of several ways.  This file says which of them return
what the call holds.

## Main results

* `reach_returned`: in the runs whose calls all end well, the lock is with a
  process that is inside it, `tagsinuse` counts the outstanding requests, and
  the other tags are free; and a call that ends in a state of these runs
  returns what it holds exactly when it ends well.

An error in the sleep for a tag leaves `reqsl` locked, in `io` and in
`sataclaim`.  A call whose request failed, timed out or was interrupted keeps
its tag and its place in `tagsinuse`.
-/

namespace Kirkwood.Ports.SataReturn

open Kirkwood.Verified.Trans
open Kirkwood.Verified.Table
open Kirkwood.Verified.Ring
open Kirkwood.Ports.SataTags (TagPool TagsKept take_kept give_kept backslot_eq
  satainit_kept identifytags_kept_iff)
open Kirkwood.Ports.SataProcs
open Kirkwood.Ports.SataResponse (Done)

/-! ## What is held -/

/-- After `tagnext` moved past the tag, and before the tag is stored back. -/
def taken : Pc → Option Nat
  | .ioCount tag | .ioCounting tag _ | .ioSubmit tag | .ioUnlock tag | .ioWait tag
  | .ioPut tag | .ioPutting tag _ => some tag
  | _ => none

/-- Between the two statements that take or return a tag. -/
def halfway : Pc → Bool
  | .ioCount _ | .ioCounting _ _ | .ioUncount _ | .ioUncounting _ _ => true
  | _ => false

/-- Between taking a tag and counting it. -/
def counting : Pc → Bool
  | .ioCount _ | .ioCounting _ _ => true
  | _ => false

/-- Between reading the next tag and moving `tagnext` past it. -/
def reading : Pc → Bool
  | .ioNext _ => true
  | _ => false

/-- The tags that are out of the ring. -/
def held (s : State) : List Nat := s.procs.filterMap taken

/-- No call has taken or returned a tag by half. -/
def Quiet (s : State) : Prop := ∀ pc ∈ s.procs, ¬ halfway pc

instance (s : State) : Decidable (Quiet s) :=
  inferInstanceAs (Decidable (∀ pc ∈ s.procs, ¬ halfway pc))

/-- The tags in `l` are out of the ring `p`, whatever `tagsinuse` says. -/
def RingKept (p : TagPool) (l : List Nat) : Prop :=
  TagsKept { p with tagsinuse := l.length } l

/-- `reqsl` is with a process that is inside it, `tagsinuse` counts the
outstanding requests, the tags that no call holds are in the ring and, no call
being halfway, the free ones; and once all calls have ended another can have the
lock and a tag. -/
structure Returned (s : State) : Prop where
  lock : ∀ p, s.sh.reqsl = some p → ∃ pc, s.procs[p]? = some pc ∧ pc.inLock
  count : s.sh.pool.tagsinuse = (counted s).length
  ring : RingKept s.sh.pool (held s)
  tags : Quiet s → TagsKept s.sh.pool (held s)
  next : (∀ pc ∈ s.procs, pc = .idle) → s.sh.reqsl = none ∧ s.sh.pool.tagfree

/-- The statements of a process at `pc` that leave nothing missing: the wait for
the request ends with `Rok`; a tag is stored back while no other call is halfway,
to the slot that is still the right one; and no update of `tagsinuse` is lost. -/
def GoesWell (s : State) : Pc → Prop
  | .ioWait tag => s.sh.reqsdone tag = .Rok
  | .ioPutting _ slot => slot = s.sh.pool.backslot ∧ Quiet s
  | .ioCounting _ inuse | .ioUncounting _ inuse => inuse = s.sh.pool.tagsinuse
  | _ => True

/-- Besides, no error comes in a sleep outside the claimed section, and no
`identify` shrinks the ring to `tagnext` or below. -/
def MovesWell (s : State) (pc : Pc) : Move → Prop
  | .error => pc.claimed
  | .go => GoesWell s pc
  | .identify w => s.sh.pool.tagnext < TagPool.ntagsof w
  | _ => True

/-- All calls end well, and a reset finds no tag taken or half returned. -/
def EndsWell (s : State) : Action → Prop
  | .proc p m => ∀ pc ∈ s.procs[p]?, MovesWell s pc m
  | .satainit => ∀ pc ∈ s.procs,
      taken pc = none ∧ pc.counted = none ∧ ¬ reading pc
  | _ => True

instance (s : State) : (pc : Pc) → Decidable (GoesWell s pc)
  | .ioWait tag => inferInstanceAs (Decidable (s.sh.reqsdone tag = .Rok))
  | .ioPutting _ slot =>
      inferInstanceAs (Decidable (slot = s.sh.pool.backslot ∧ Quiet s))
  | .ioCounting _ inuse => inferInstanceAs (Decidable (inuse = s.sh.pool.tagsinuse))
  | .ioUncounting _ inuse => inferInstanceAs (Decidable (inuse = s.sh.pool.tagsinuse))
  | .idle | .ioLock | .ioSleep | .ioTag | .ioNext _ | .ioCount _ | .ioSubmit _
  | .ioUnlock _ | .ioPut _ | .ioUncount _ | .claimLock | .claimSleep | .claimTest
  | .ata | .ataSleep => isTrue trivial

instance (s : State) (pc : Pc) : (m : Move) → Decidable (MovesWell s pc m)
  | .error => inferInstanceAs (Decidable (pc.claimed = true))
  | .go => inferInstanceAs (Decidable (GoesWell s pc))
  | .identify w => inferInstanceAs (Decidable (s.sh.pool.tagnext < TagPool.ntagsof w))
  | .io => isTrue trivial
  | .claim => isTrue trivial
  | .atacmd => isTrue trivial

instance (s : State) : (a : Action) → Decidable (EndsWell s a)
  | .proc p m => inferInstanceAs (Decidable (∀ pc ∈ s.procs[p]?, MovesWell s pc m))
  | .satainit => inferInstanceAs (Decidable (∀ pc ∈ s.procs,
      taken pc = none ∧ pc.counted = none ∧ ¬ reading pc))
  | .done _ => isTrue trivial
  | .atadone => isTrue trivial
  | .sataabort => isTrue trivial

/-! ## The ring -/

theorem RingKept.congr {p q : TagPool} {l : List Nat} (h : RingKept p l)
    (htags : q.tags = p.tags) (hnext : q.tagnext = p.tagnext)
    (hn : q.ntags = p.ntags) : RingKept q l := by
  unfold RingKept at h ⊢
  rw [htags, hnext, hn]
  exact h

theorem RingKept.perm {p : TagPool} {l l' : List Nat} (h : RingKept p l)
    (hperm : l.Perm l') : RingKept p l' := by
  have hlen := hperm.length_eq
  apply TagsKept.of_perm
  · exact h.tagnext_lt
  · exact h.ntags_le
  · rfl
  · show l'.length ≤ p.ntags
    rw [← hlen]
    exact Int.ofNat_le.1 h.inuse_le
  · have hold := TagsKept.perm h
    have hfree : TagPool.free { p with tagsinuse := l'.length } =
        TagPool.free { p with tagsinuse := l.length } := by
      rw [hlen]
    show (TagPool.free { p with tagsinuse := l'.length } ++ l').Perm
      (List.range p.ntags)
    rw [hfree]
    exact (List.Perm.append_left _ hperm.symm).trans hold

theorem RingKept.take {p : TagPool} {l : List Nat} (h : RingKept p l)
    (hroom : l.length < p.ntags) : RingKept p.advance (l ++ [p.tag]) := by
  have hkept := take_kept h (show (l.length : Int) < p.ntags by omega)
  have hlen : ((l ++ [p.tag]).length : Int) = (l.length : Int) + 1 := by
    rw [List.length_append, List.length_singleton]
    rfl
  unfold RingKept
  rw [hlen]
  exact hkept

theorem RingKept.give {p : TagPool} {x y : List Nat} {tag : Nat}
    (h : RingKept p (x ++ tag :: y))
    (hinuse : p.tagsinuse = (x ++ tag :: y).length) :
    RingKept (p.putback tag) (x ++ y) := by
  have hkept : TagsKept p (x ++ tag :: y) := by
    unfold RingKept at h
    rw [← hinuse] at h
    exact h
  have hlen : ((x ++ y).length : Int) = p.tagsinuse - 1 := by
    rw [hinuse]
    simp only [List.length_append, List.length_cons]
    omega
  unfold RingKept
  rw [hlen]
  exact give_kept hkept

/-- A tag that is stored back does not replace the next one to be taken. -/
theorem putback_tag {p : TagPool} {l : List Nat} {tag : Nat} (h : TagsKept p l)
    (hne : l ≠ []) (hroom : l.length < p.ntags) :
    (p.putback tag).tag = p.tag := by
  have hslot := backslot_eq h hne
  have hpos := List.length_pos_of_ne_nil hne
  show Function.update p.tags p.backslot tag p.tagnext = p.tags p.tagnext
  apply Function.update_of_ne
  intro heq
  have hzero : slot p.ntags p.tagnext 0 =
      slot p.ntags p.tagnext (p.ntags - l.length) := by
    rw [slot_zero h.tagnext_lt, ← hslot]
    exact heq
  have := slot_inj (by omega) (by omega) hzero
  omega

/-! ## Every step -/

/-- What `Returned` rests on.  `ring` speaks of the tags whatever `tagsinuse`
says at the moment; `next` and `room` are of a call that is about to take one. -/
structure ReturnInv (s : State) : Prop where
  base : LockInv s
  lost : s.sh.lost = 0
  holder : ∀ p, s.sh.reqsl = some p → ∃ pc, s.procs[p]? = some pc ∧ pc.inLock
  ring : RingKept s.sh.pool (held s)
  next : ∀ tag, .ioNext tag ∈ s.procs → tag = s.sh.pool.tag
  room : ∀ pc ∈ s.procs, (pc = .ioTag ∨ ∃ tag, pc = .ioNext tag) →
    (held s).length < s.sh.pool.ntags

/-- What a move does to the ring: nothing, or it takes a tag out, or stores one
back, or ends the call without doing so, or it is `identify`. -/
inductive RingMove (s : Shared) : Pc → Move → Shared → Pc → Prop where
  | frame {pc pc' : Pc} {m : Move} {t : Shared}
      (htags : t.pool.tags = s.pool.tags) (hnext : t.pool.tagnext = s.pool.tagnext)
      (hn : t.pool.ntags = s.pool.ntags) (hsame : taken pc = taken pc')
      (htag : pc' = .ioTag → s.pool.tagfree ∧ pc.inLock)
      (hread : ∀ tag, pc' = .ioNext tag → tag = s.pool.tag ∧ pc = .ioTag) :
      RingMove s pc m t pc'
  | out (tag : Nat) :
      RingMove s (.ioNext tag) .go { s with pool := s.pool.advance } (.ioCount tag)
  | back (tag slot : Nat) :
      RingMove s (.ioPutting tag slot) .go
        { s with pool := { s.pool with tags := Function.update s.pool.tags slot tag } }
        (.ioUncount tag)
  | lose (tag : Nat) {m : Move}
      (hbad : m = .error ∨ (m = .go ∧ s.reqsdone tag ≠ .Rok)) :
      RingMove s (.ioWait tag) m { s with lost := s.lost + 1 } .idle
  | identify (w : Nat) :
      RingMove s .ata (.identify w) { s with pool := s.pool.identify w } .ata

theorem ringMove {s t : Shared} {p : Nat} {pc pc' : Pc} {m : Move}
    (h : move s p pc m = some (t, pc')) : RingMove s pc m t pc' := by
  unfold move at h
  split at h
  all_goals try split at h
  all_goals cases h
  all_goals first
    | exact .out _
    | exact .back _ _
    | exact .identify _
    | exact .lose _ (.inl rfl)
    | exact .lose _ (.inr ⟨rfl, by assumption⟩)
    | (apply RingMove.frame <;>
        simp_all [taken, Pc.inLock])

/-- What a move does to the lock: but for an error outside the claimed section, one
that leaves the lock as it is also leaves the process inside or outside of it. -/
theorem move_reqsl {s t : Shared} {p : Nat} {pc pc' : Pc} {m : Move}
    (h : move s p pc m = some (t, pc')) (hm : m = .error → pc.claimed = true) :
    (t.reqsl = s.reqsl ∧ (pc.inLock → pc'.inLock)) ∨
      (t.reqsl = some p ∧ pc'.inLock) ∨ t.reqsl = none := by
  unfold move at h
  split at h
  all_goals try split at h
  all_goals cases h
  all_goals simp_all [Pc.inLock, Pc.claimed]

theorem MovesWell.undisturbed {s : State} {t : Shared} {p : Nat} {pc pc' : Pc} {m : Move}
    (h : MovesWell s pc m) (hm : move s.sh p pc m = some (t, pc')) :
    Undisturbed s.sh pc := by
  cases pc with
  | ioCounting tag inuse =>
      cases m with
      | go => exact h
      | _ => cases hm
  | ioUncounting tag inuse =>
      cases m with
      | go => exact h
      | _ => cases hm
  | _ => trivial

/-- A tag is lost where a call does not end well. -/
theorem move_lost {s t : Shared} {p : Nat} {pc pc' : Pc} {m : Move}
    (h : move s p pc m = some (t, pc')) :
    t.lost = s.lost ∨ ∃ tag, pc = .ioWait tag ∧
      (m = .error ∨ (m = .go ∧ s.reqsdone tag ≠ .Rok)) := by
  unfold move at h
  split at h
  all_goals try split at h
  all_goals cases h
  all_goals first
    | exact .inl rfl
    | exact .inr ⟨_, rfl, .inl rfl⟩
    | exact .inr ⟨_, rfl, .inr ⟨rfl, by assumption⟩⟩

/-- Where no call is halfway, what is out of the ring is what is counted. -/
theorem held_eq_counted {s : State} (h : Quiet s) : held s = counted s := by
  unfold held counted
  apply List.filterMap_congr
  intro pc hpc
  have hnot := h pc hpc
  cases pc <;> first | rfl | exact absurd rfl hnot

theorem inLock_of_counting {pc : Pc} (h : counting pc) : pc.inLock := by
  cases pc <;> first | rfl | exact absurd h Bool.false_ne_true

/-- With `reqsl` held elsewhere than at `tagsinuse++`, no more tags are out of
the ring than are counted. -/
theorem held_le_counted {s : State} (h : ∀ pc ∈ s.procs, ¬ counting pc) :
    (held s).length ≤ (counted s).length := by
  unfold held counted
  generalize s.procs = l at h
  induction l with
  | nil => exact Nat.le_refl _
  | cons pc l ih =>
      have hhead := h pc List.mem_cons_self
      have hle := ih fun pd hpd => h pd (List.mem_cons_of_mem _ hpd)
      cases pc with
      | ioCount tag => exact absurd rfl hhead
      | ioCounting tag inuse => exact absurd rfl hhead
      | ioUncount tag => exact Nat.le_succ_of_le hle
      | ioUncounting tag inuse => exact Nat.le_succ_of_le hle
      | ioSubmit tag => exact Nat.succ_le_succ hle
      | ioUnlock tag => exact Nat.succ_le_succ hle
      | ioWait tag => exact Nat.succ_le_succ hle
      | ioPut tag => exact Nat.succ_le_succ hle
      | ioPutting tag slot => exact Nat.succ_le_succ hle
      | _ => exact hle

/-- The only process inside the lock. -/
theorem alone {s : State} (h : LockInv s) {p : Nat} {pc pd : Pc}
    (hpc : s.procs[p]? = some pc) (hin : pc.inLock) (hpd : pd ∈ s.procs)
    (hdin : pd.inLock) : pd = pc := by
  obtain ⟨q, hq⟩ := List.mem_iff_getElem?.1 hpd
  have heq := h.unique hpc hq hin hdin
  rw [heq, hq] at hpc
  exact Option.some.inj hpc

theorem mem_set_cases {s s' : State} {p : Nat} {pc' pd : Pc}
    (hset : s'.procs = s.procs.set p pc') (hpd : pd ∈ s'.procs) :
    pd = pc' ∨ pd ∈ s.procs := by
  rw [hset] at hpd
  obtain ⟨q, hq⟩ := List.mem_iff_getElem?.1 hpd
  rcases getElem?_set_cases hq with ⟨_, heq⟩ | ⟨_, hold⟩
  · exact .inl heq
  · exact .inr (List.mem_of_getElem? hold)

/-- A step that does nothing to the ring. -/
theorem frame_inv {s s' : State} {p : Nat} {pc pc' : Pc} (h : ReturnInv s)
    (hpc : s.procs[p]? = some pc) (hset : s'.procs = s.procs.set p pc')
    (htags : s'.sh.pool.tags = s.sh.pool.tags)
    (hnext : s'.sh.pool.tagnext = s.sh.pool.tagnext)
    (hn : s'.sh.pool.ntags = s.sh.pool.ntags) (hsame : taken pc = taken pc')
    (htag : pc' = .ioTag → s.sh.pool.tagfree ∧ pc.inLock)
    (hread : ∀ tag, pc' = .ioNext tag → tag = s.sh.pool.tag ∧ pc = .ioTag) :
    RingKept s'.sh.pool (held s') ∧
      (∀ tag, .ioNext tag ∈ s'.procs → tag = s'.sh.pool.tag) ∧
      ∀ pd ∈ s'.procs, (pd = .ioTag ∨ ∃ tag, pd = .ioNext tag) →
        (held s').length < s'.sh.pool.ntags := by
  have hheld : held s' = held s := by
    unfold held
    rw [hset]
    exact filterMap_set_same hpc hsame
  have htageq : s'.sh.pool.tag = s.sh.pool.tag := by
    unfold TagPool.tag
    rw [htags, hnext]
  refine ⟨?_, ?_, ?_⟩
  · rw [hheld]
    exact h.ring.congr htags hnext hn
  · intro tag hmem
    rw [htageq]
    cases mem_set_cases hset hmem with
    | inl heq => exact (hread tag heq.symm).1
    | inr hold => exact h.next tag hold
  · intro pd hmem hpd
    rw [hheld, hn]
    cases mem_set_cases hset hmem with
    | inr hold => exact h.room pd hold hpd
    | inl heq =>
        rw [heq] at hpd
        cases hpd with
        | inl hat =>
            -- the sleep ended with a tag free in `tagsinuse`, which counts no less
            obtain ⟨hfree, hin⟩ := htag hat
            have hle : (held s).length ≤ (counted s).length := by
              apply held_le_counted
              intro pd hpd hcounting
              have hpceq := alone h.base hpc hin hpd (inLock_of_counting hcounting)
              rw [hat, ← hpceq] at hsame
              cases pd with
              | ioCount tag => cases hsame
              | ioCounting tag inuse => cases hsame
              | _ => exact Bool.false_ne_true hcounting
            have hlt : s.sh.pool.tagsinuse < s.sh.pool.ntags := hfree
            have hcount := h.base.count
            have hlost := h.lost
            omega
        | inr hat =>
            obtain ⟨tag, hat⟩ := hat
            have hwas := (hread tag hat).2
            exact h.room pc (List.mem_of_getElem? hpc) (.inl hwas)

/-- A call that takes a tag holds the lock. -/
theorem inLock_of_taking {pd : Pc} (hat : pd = .ioTag ∨ ∃ tag, pd = .ioNext tag) :
    pd.inLock := by
  rcases hat with rfl | ⟨tag, rfl⟩
  · rfl
  · rfl

/-- A call takes a tag out of the ring. -/
theorem out_inv {s s' : State} {p tag : Nat} (h : ReturnInv s)
    (hpc : s.procs[p]? = some (.ioNext tag))
    (hset : s'.procs = s.procs.set p (.ioCount tag))
    (hsh : s'.sh = { s.sh with pool := s.sh.pool.advance }) :
    RingKept s'.sh.pool (held s') ∧
      (∀ tag, .ioNext tag ∈ s'.procs → tag = s'.sh.pool.tag) ∧
      ∀ pd ∈ s'.procs, (pd = .ioTag ∨ ∃ tag, pd = .ioNext tag) →
        (held s').length < s'.sh.pool.ntags := by
  have hmem := List.mem_of_getElem? hpc
  have htag := h.next tag hmem
  have hroom := h.room _ hmem (.inr ⟨tag, rfl⟩)
  -- the other processes are outside the lock, so none is about to take a tag
  have hnone : ∀ pd ∈ s'.procs, ¬ (pd = .ioTag ∨ ∃ tag, pd = .ioNext tag) := by
    intro pd hpd hat
    have hin := inLock_of_taking hat
    rw [hset] at hpd
    obtain ⟨q, hq⟩ := List.mem_iff_getElem?.1 hpd
    rcases getElem?_set_cases hq with ⟨_, heq⟩ | ⟨hne, hold⟩
    · rw [heq] at hat
      rcases hat with hat | ⟨u, hat⟩
      · cases hat
      · cases hat
    · exact hne (h.base.unique hold hpc hin rfl)
  refine ⟨?_, ?_, ?_⟩
  · have hperm : (held s').Perm (held s ++ [tag]) := by
      unfold held
      rw [hset]
      exact filterMap_set_add hpc rfl rfl
    have hring := h.ring.take hroom
    rw [← htag] at hring
    rw [hsh]
    exact hring.perm hperm.symm
  · intro u hu
    exact absurd (.inr ⟨u, rfl⟩) (hnone _ hu)
  · intro pd hpd hat
    exact absurd hat (hnone pd hpd)

/-- A call stores its tag back, no other being halfway. -/
theorem back_inv {s s' : State} {p tag : Nat} (h : ReturnInv s)
    (hquiet : Quiet s) (hpc : s.procs[p]? = some (.ioPutting tag s.sh.pool.backslot))
    (hset : s'.procs = s.procs.set p (.ioUncount tag))
    (hsh : s'.sh = { s.sh with pool := s.sh.pool.putback tag }) :
    RingKept s'.sh.pool (held s') ∧
      (∀ tag, .ioNext tag ∈ s'.procs → tag = s'.sh.pool.tag) ∧
      ∀ pd ∈ s'.procs, (pd = .ioTag ∨ ∃ tag, pd = .ioNext tag) →
        (held s').length < s'.sh.pool.ntags := by
  obtain ⟨x, y, hold, hnew⟩ := filterMap_set_remove (f := taken)
    (b := .ioUncount tag) hpc rfl rfl
  have hheld : held s = x ++ tag :: y := hold
  have hheld' : held s' = x ++ y := by
    unfold held
    rw [hset]
    exact hnew
  have hinuse : s.sh.pool.tagsinuse = (held s).length := by
    have hcount := h.base.count
    have hlost := h.lost
    rw [held_eq_counted hquiet]
    omega
  have hkept : TagsKept s.sh.pool (held s) := by
    have hring := h.ring
    unfold RingKept at hring
    rw [← hinuse] at hring
    exact hring
  have hlen : (held s').length + 1 = (held s).length := by
    rw [hheld, hheld']
    simp only [List.length_append, List.length_cons]
    omega
  have hstays : ∀ pd ∈ s'.procs, (pd = .ioTag ∨ ∃ tag, pd = .ioNext tag) →
      pd ∈ s.procs := by
    intro pd hpd hat
    cases mem_set_cases hset hpd with
    | inl heq =>
        rw [heq] at hat
        rcases hat with hat | ⟨u, hat⟩
        · cases hat
        · cases hat
    | inr hin => exact hin
  refine ⟨?_, ?_, ?_⟩
  · have hring := h.ring
    rw [hheld] at hring hinuse
    rw [hheld', hsh]
    exact hring.give hinuse
  · intro u hu
    have hmem := hstays _ hu (.inr ⟨u, rfl⟩)
    have hroom := h.room _ hmem (.inr ⟨u, rfl⟩)
    have hne : held s ≠ [] := by
      rw [hheld]
      simp
    rw [hsh]
    exact (h.next u hmem).trans (putback_tag hkept hne hroom).symm
  · intro pd hpd hat
    have hroom := h.room pd (hstays pd hpd hat) hat
    rw [hsh]
    show (held s').length < s.sh.pool.ntags
    omega

/-- `identify` runs while nothing is counted. -/
theorem identify_inv {s s' : State} {p w : Nat} (h : ReturnInv s)
    (hguard : s.sh.pool.tagnext < TagPool.ntagsof w)
    (hpc : s.procs[p]? = some .ata) (hset : s'.procs = s.procs.set p .ata)
    (hsh : s'.sh = { s.sh with pool := s.sh.pool.identify w }) :
    RingKept s'.sh.pool (held s') ∧
      (∀ tag, .ioNext tag ∈ s'.procs → tag = s'.sh.pool.tag) ∧
      ∀ pd ∈ s'.procs, (pd = .ioTag ∨ ∃ tag, pd = .ioNext tag) →
        (held s').length < s'.sh.pool.ntags := by
  have hnil := (h.base.idled p .ata hpc rfl).1
  have halone : ∀ pd ∈ s.procs, pd.inLock → pd = .ata := fun pd hpd hin =>
    alone h.base hpc rfl hpd hin
  have hheld : held s = [] := by
    have hle : (held s).length ≤ (counted s).length := by
      apply held_le_counted
      intro pd hpd hcounting
      rw [halone pd hpd (inLock_of_counting hcounting)] at hcounting
      exact Bool.false_ne_true hcounting
    rw [hnil] at hle
    exact List.eq_nil_of_length_eq_zero (Nat.le_zero.1 hle)
  have hheld' : held s' = [] := by
    rw [← hheld]
    unfold held
    rw [hset]
    exact filterMap_set_same hpc rfl
  have hnone : ∀ pd ∈ s'.procs, ¬ (pd = .ioTag ∨ ∃ tag, pd = .ioNext tag) := by
    intro pd hpd hat
    have hin := inLock_of_taking hat
    have heq : pd = .ata := by
      cases mem_set_cases hset hpd with
      | inl heq => exact heq
      | inr hold => exact halone pd hold hin
    rw [heq] at hat
    rcases hat with hat | ⟨u, hat⟩
    · cases hat
    · cases hat
  refine ⟨?_, ?_, ?_⟩
  · rw [hheld', hsh]
    exact (identifytags_kept_iff (p := { s.sh.pool with tagsinuse := 0 }) w rfl).2
      hguard
  · intro u hu
    exact absurd (.inr ⟨u, rfl⟩) (hnone _ hu)
  · intro pd hpd hat
    exact absurd hat (hnone pd hpd)

/-- A lock that is taken is with the process that took it. -/
theorem holder_inv {s s' : State} {p : Nat} {pc pc' : Pc} {m : Move}
    (h : ReturnInv s) (hpc : s.procs[p]? = some pc)
    (hm : move s.sh p pc m = some (s'.sh, pc')) (hwell : MovesWell s pc m)
    (hset : s'.procs = s.procs.set p pc') :
    ∀ q, s'.sh.reqsl = some q → ∃ pd, s'.procs[q]? = some pd ∧ pd.inLock := by
  intro q hq
  have hself : s'.procs[p]? = some pc' := by
    rw [hset, List.getElem?_set_self']
    rw [hpc]
    rfl
  have hother : q ≠ p → s'.procs[q]? = s.procs[q]? := by
    intro hne
    rw [hset]
    exact List.getElem?_set_ne (Ne.symm hne)
  have hkeep : s'.sh.reqsl = s.sh.reqsl → (pc.inLock → pc'.inLock) →
      ∃ pd, s'.procs[q]? = some pd ∧ pd.inLock := by
    intro hsame hstay
    rw [hsame] at hq
    obtain ⟨pd, hpd, hin⟩ := h.holder q hq
    by_cases hqp : q = p
    · rw [hqp, hpc] at hpd
      rw [← Option.some.inj hpd] at hin
      exact ⟨pc', by rw [hqp, hself], hstay hin⟩
    · exact ⟨pd, by rw [hother hqp, hpd], hin⟩
  have hmoves : (s'.sh.reqsl = s.sh.reqsl ∧ (pc.inLock → pc'.inLock)) ∨
      (s'.sh.reqsl = some p ∧ pc'.inLock) ∨ s'.sh.reqsl = none := by
    apply move_reqsl hm
    intro herror
    rw [herror] at hwell
    exact hwell
  rcases hmoves with ⟨hsame, hstay⟩ | ⟨hgot, hin⟩ | hfree
  · exact hkeep hsame hstay
  · rw [hgot] at hq
    rw [← Option.some.inj hq]
    exact ⟨pc', hself, hin⟩
  · rw [hfree] at hq
    cases hq

theorem proc_inv {s s' : State} {p : Nat} {m : Move} (h : ReturnInv s)
    (hg : EndsWell s (.proc p m)) (hs : step s (.proc p m) = some s') :
    ReturnInv s' := by
  obtain ⟨pc, pc', hpc, hm, hset⟩ := proc_step hs
  have hwell : MovesWell s pc m := hg pc hpc
  have hstill : Orderly s (.proc p m) := by
    intro pd hpd
    obtain rfl : pc = pd := Option.some.inj (hpc.symm.trans hpd)
    exact hwell.undisturbed hm
  have hbase := step_inv h.base hstill hs
  have hholder := holder_inv h hpc hm hwell hset
  have hring : RingKept s'.sh.pool (held s') ∧
      (∀ tag, .ioNext tag ∈ s'.procs → tag = s'.sh.pool.tag) ∧
      (∀ pd ∈ s'.procs, (pd = .ioTag ∨ ∃ tag, pd = .ioNext tag) →
        (held s').length < s'.sh.pool.ntags) := by
    generalize hsh : s'.sh = t at hm
    cases ringMove hm with
    | frame htags hnext hn hsame htag hread =>
        subst hsh
        exact frame_inv h hpc hset htags hnext hn hsame htag hread
    | out tag =>
        rw [← hsh]
        exact out_inv h hpc hset hsh
    | back tag slot =>
        obtain ⟨rfl, hquiet⟩ := hwell
        rw [← hsh]
        exact back_inv h hquiet hpc hset hsh
    | lose tag hbad =>
        rcases hbad with rfl | ⟨rfl, hne⟩
        · exact absurd hwell Bool.false_ne_true
        · exact absurd hwell hne
    | identify w =>
        rw [← hsh]
        exact identify_inv h hwell hpc hset hsh
  have hlost : s'.sh.lost = 0 := by
    rcases move_lost hm with hsame | ⟨tag, rfl, hbad⟩
    · rw [hsame]
      exact h.lost
    · rcases hbad with rfl | ⟨rfl, hne⟩
      · exact absurd hwell Bool.false_ne_true
      · exact absurd hwell hne
  exact {
    base := hbase
    lost := hlost
    holder := hholder
    ring := hring.1
    next := hring.2.1
    room := hring.2.2 }

/-- A reset while no tag is out of the ring. -/
theorem satainit_inv {s s' : State} (h : ReturnInv s)
    (hg : EndsWell s .satainit) (hs : step s .satainit = some s') :
    ReturnInv s' := by
  have hcounted : counted s = [] := by
    unfold counted
    apply List.filterMap_eq_nil_iff.2
    intro pc hpc
    exact (hg pc hpc).2.1
  have hheld : held s = [] := by
    unfold held
    apply List.filterMap_eq_nil_iff.2
    intro pc hpc
    exact (hg pc hpc).1
  have hbase := step_inv h.base (show Orderly s .satainit from hcounted) hs
  cases hs
  exact {
    base := hbase
    lost := rfl
    holder := h.holder
    ring := by
      show RingKept s.sh.pool.satainit (held s)
      rw [hheld]
      exact satainit_kept s.sh.pool
    next := fun tag hmem => absurd rfl (hg _ hmem).2.2
    room := by
      intro pd _ _
      show (held s).length < 1
      rw [hheld]
      exact Nat.zero_lt_one }

theorem step_returns {s : State} {a : Action} {s' : State} (h : ReturnInv s)
    (hg : EndsWell s a) (hs : step s a = some s') : ReturnInv s' := by
  cases a with
  | proc p m => exact proc_inv h hg hs
  | satainit => exact satainit_inv h hg hs
  | done tag =>
      have hbase := step_inv h.base (show Orderly s (.done tag) from trivial) hs
      cases hs
      exact { h with base := hbase }
  | atadone =>
      have hbase := step_inv h.base (show Orderly s (.atadone) from trivial) hs
      cases hs
      exact { h with base := hbase }
  | sataabort =>
      have hbase := step_inv h.base (show Orderly s (.sataabort) from trivial) hs
      cases hs
      exact { h with base := hbase }

theorem init_returns (n : Nat) (pool : TagPool) : ReturnInv (init n pool) := by
  have hidle : ∀ pc ∈ (init n pool).procs, pc = .idle := fun pc hpc =>
    List.eq_of_mem_replicate hpc
  have hheld : held (init n pool) = [] := by
    unfold held
    apply List.filterMap_eq_nil_iff.2
    intro pc hpc
    rw [hidle pc hpc]
    rfl
  exact {
    base := init_inv n pool
    lost := rfl
    holder := by
      intro p hp
      cases hp
    ring := by
      rw [hheld]
      exact satainit_kept pool
    next := by
      intro tag hmem
      cases hidle _ hmem
    room := by
      intro pc hpc hat
      rw [hidle pc hpc] at hat
      rcases hat with hat | ⟨u, hat⟩
      · cases hat
      · cases hat }

/-! ## What is returned -/

theorem ReturnInv.returned {s : State} (h : ReturnInv s) : Returned s := by
  have hcount : s.sh.pool.tagsinuse = (counted s).length := by
    have hbase := h.base.count
    have hlost := h.lost
    omega
  exact {
    lock := h.holder
    count := hcount
    ring := h.ring
    tags := by
      intro hquiet
      have hring := h.ring
      unfold RingKept at hring
      rw [held_eq_counted hquiet] at hring ⊢
      rw [← hcount] at hring
      exact hring
    next := by
      intro hidle
      constructor
      · cases hlock : s.sh.reqsl with
        | none => rfl
        | some p =>
            obtain ⟨pc, hpc, hin⟩ := h.holder p hlock
            rw [hidle pc (List.mem_of_getElem? hpc)] at hin
            exact absurd hin Bool.false_ne_true
      · have hnil : counted s = [] := by
          unfold counted
          apply List.filterMap_eq_nil_iff.2
          intro pc hpc
          rw [hidle pc hpc]
          rfl
        have hpos := h.ring.tagnext_lt
        rw [hnil] at hcount
        show s.sh.pool.tagsinuse < s.sh.pool.ntags
        rw [hcount]
        show ((0 : Nat) : Int) < s.sh.pool.ntags
        have : 0 < s.sh.pool.ntags := by
          show 0 < s.sh.pool.ntags
          exact Nat.lt_of_le_of_lt (Nat.zero_le _) hpos
        omega }

/-- A call that ends and leaves nothing held has ended well. -/
theorem ends_only {s s' : State} {p : Nat} {m : Move} (h : ReturnInv s)
    (hs : step s (.proc p m) = some s') (hidle : s'.procs[p]? = some .idle)
    (hP : Returned s') : EndsWell s (.proc p m) := by
  obtain ⟨pc, pc', hpc, hm, hset⟩ := proc_step hs
  have hlen := counted_set hpc hset
  have hself : s'.procs[p]? = some pc' := by
    rw [hset, List.getElem?_set_self', hpc]
    rfl
  have hend : pc' = .idle := Option.some.inj (hself.symm.trans hidle)
  have hnewcount := hP.count
  have holdcount : s.sh.pool.tagsinuse = (counted s).length := h.returned.count
  have hlock := h.base.lock p pc hpc
  have hfree : s'.sh.reqsl = some p → False := by
    intro hq
    obtain ⟨pd, hpd, hin⟩ := hP.lock p hq
    rw [hidle] at hpd
    rw [← Option.some.inj hpd] at hin
    exact Bool.false_ne_true hin
  intro pd hpd
  have hpdeq : pd = pc := Option.some.inj (hpd.symm.trans hpc)
  rw [hpdeq]
  generalize s'.sh = t at hm hfree hnewcount
  unfold move at hm
  split at hm
  all_goals try split at hm
  all_goals cases hm
  all_goals first
    | (cases hend; done)
    | trivial
    | exact (hfree (hlock rfl)).elim
    | (simp only [Pc.counted, Option.toList_some, Option.toList_none,
        List.length_singleton, List.length_nil] at hlen hnewcount
       first
         | omega
         | (change _ = s.sh.pool.tagsinuse
            omega))

/-- In every run whose calls all end well, nothing is missing in any state; and
a call that ends there, in whatever way, leaves nothing missing exactly when it
ends well. -/
theorem reach_returned {s : State} (h : Reach step EndsWell Initial s) :
    Returned s ∧ ∀ (p : Nat) (m : Move) (s' : State),
      step s (.proc p m) = some s' → s'.procs[p]? = some .idle →
        (Returned s' ↔ EndsWell s (.proc p m)) := by
  have hinv : ReturnInv s := by
    apply Reach.invariant (P := ReturnInv) _ _ h
    · intro s hs
      obtain ⟨n, pool, rfl⟩ := hs
      exact init_returns n pool
    · intro s a s' hinv hg hs
      exact step_returns hinv hg hs
  refine ⟨hinv.returned, ?_⟩
  intro p m s' hs hidle
  exact ⟨ends_only hinv hs hidle, fun hg =>
    (step_returns hinv hg hs).returned⟩

/-- Process 0 reads, and its request is done. -/
def readRun : List Action := ioRun ++ .done 0 :: List.replicate 5 (.proc 0 .go)

/-- A call that reads and ends well. -/
theorem reach_returned_read :
    ∃ s, run step (init 2 samplePool) readRun = some s ∧
      s.procs = [.idle, .idle] ∧ Returned s :=
  ⟨_, rfl, rfl, (reach_returned (Reach.of_run readRun
    (.start ⟨2, samplePool, rfl⟩) (by decide +kernel) rfl)).1⟩

/-- An interrupt in the sleep for a tag leaves `reqsl` with no process. -/
theorem interrupt_keeps_lock : ¬ ∀ s, Reach step Free Initial s → Returned s := by
  intro hall
  have hrun : ∃ s, run step (init 1 samplePool)
      [.proc 0 .io, .proc 0 .go, .proc 0 .error] = some s ∧
      s.procs = [.idle] ∧ s.sh.reqsl = some 0 := ⟨_, rfl, rfl, rfl⟩
  obtain ⟨s, hs, hprocs, hlock⟩ := hrun
  have hreach : Reach step Free Initial s :=
    Reach.of_run_free _ (.start ⟨1, samplePool, rfl⟩) hs
  obtain ⟨pc, hpc, hin⟩ := (hall s hreach).lock 0 hlock
  rw [hprocs] at hpc
  rw [← Option.some.inj hpc] at hin
  exact Bool.false_ne_true hin

end Kirkwood.Ports.SataReturn
