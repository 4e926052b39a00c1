import Mathlib.Data.Nat.Bitwise
import Mathlib.Data.List.Perm.Basic
import Mathlib.Data.List.Perm.Subperm
import Kirkwood.Verified.Trans
import Kirkwood.Verified.Ring
import Kirkwood.Ports.SataRequest

/-!
# Completions of the SATA disk

The EDMA engine appends a response with the tag of each request it completed to
the 32 entries of `resps` and moves its in pointer on.  On an interrupt,
`sataintr` of `devsata.c` goes from its out pointer to the in pointer and sets
`reqsdone` of each tag to `Rok`.

## Main results

* `loop_eq`: the loop ends, and does one response after the other up to the in
  pointer;
* `run_reported_iff`: the runs in which every interrupt reports exactly what
  completed since the last one are those in which no interrupt finds all 32
  entries used.

With 32 tags all 32 responses can come between two interrupts.  The pointers are
then equal again, as if none had.
-/

namespace Kirkwood.Ports.SataResponse

open Kirkwood.Verified.Trans
open Kirkwood.Verified.Ring
open Kirkwood.Ports.SataRequest

/-! ## The code -/

/-- The values of `reqsdone`. -/
inductive Done where
  | Rok
  | Rtimeout
  | Rfail
  deriving DecidableEq, Repr

/-- `(r & MASK(8))/sizeof (Resp)` -/
def index (r : Nat) : Nat := (r &&& MASK 8) / 8

/-- One run of the loop, for the statements below: the tags that completed since
the run before, those it set to `Rok`, and whether it left the pointers equal. -/
structure Run where
  completed : List Nat
  set : List Nat
  level : Bool
  deriving DecidableEq, Repr

/-- `resps[i].idflags`, the pointer registers and `reqsdone`.  The tags of the
calls under way are at the disk, completed but not seen by `sataintr`, or
reported by it. -/
structure State where
  resps : Nat → Nat
  respin : Nat
  respout : Nat
  reqsdone : Nat → Done
  atdisk : List Nat
  completed : List Nat
  reported : List Nat
  runs : List Run

/-- What the loop changes. -/
structure Turn where
  reqsdone : Nat → Done
  respout : Nat
  set : List Nat

/-- The loop of `sataintr`; `resps` is where the responses are in memory. -/
def loop (addr : Nat) (resps : Nat → Nat) (inp : Nat) : Nat → Nat → Turn →
    Option Turn
  | 0, _, _ => none
  | fuel + 1, out, t =>
      if inp = out then some t
      else
        let tag := resps out &&& MASK 5
        let out' := (out + 1) % 32
        loop addr resps inp fuel out'
          { reqsdone := Function.update t.reqsdone tag .Rok
            respout := addr + out' * 8
            set := t.set ++ [tag] }

/-- The loop from the pointers as they are at the interrupt. -/
def sataintr (addr : Nat) (s : State) : Option Turn :=
  loop addr s.resps (index s.respin) 33 (index s.respout)
    { reqsdone := s.reqsdone, respout := s.respout, set := [] }

/-- `io` submits a request with a free tag; the engine appends the response of
the `k`th request at the disk, `flags` being the bits above its tag; an
interrupt; the call with the `k`th reported tag takes its result. -/
inductive Action where
  | submit (tag : Nat)
  | respond (k flags : Nat)
  | interrupt
  | finish (k : Nat)

/-- The in pointer after a response: the next entry, modulo 32. -/
def nextin (r : Nat) : Nat := r / 256 * 256 + (r % 256 + 8) % 256

/-- The tags in use. -/
def inuse (s : State) : List Nat := s.atdisk ++ s.completed ++ s.reported

def step (addr ntags : Nat) (s : State) : Action → Option State
  | .submit tag =>
      if tag < ntags ∧ tag ∉ inuse s then
        some { s with
          reqsdone := Function.update s.reqsdone tag .Rtimeout
          atdisk := s.atdisk ++ [tag] }
      else none
  | .respond k flags =>
      match s.atdisk[k]? with
      | none => none
      | some tag =>
          some { s with
            resps := Function.update s.resps (index s.respin) (tag + 32 * flags)
            respin := nextin s.respin
            atdisk := s.atdisk.eraseIdx k
            completed := s.completed ++ [tag] }
  | .interrupt =>
      match sataintr addr s with
      | none => none
      | some t =>
          some { s with
            reqsdone := t.reqsdone
            respout := t.respout
            completed := []
            reported := s.reported ++ s.completed
            runs := s.runs ++ [{
              completed := s.completed
              set := t.set
              level := index t.respout = index s.respin }] }
  | .finish k =>
      if k < s.reported.length then
        some { s with reported := s.reported.eraseIdx k }
      else none

/-- After `satainit`. -/
def init (addr : Nat) (resps : Nat → Nat) (reqsdone : Nat → Done) : State :=
  { resps := resps
    respin := 0
    respout := addr
    reqsdone := reqsdone
    atdisk := []
    completed := []
    reported := []
    runs := [] }

/-! ## The pointers -/

theorem index_eq (r : Nat) : index r = r % 256 / 8 := by
  unfold index MASK
  rw [Nat.one_shiftLeft, Nat.and_two_pow_sub_one_eq_mod]

theorem index_lt (r : Nat) : index r < 32 := by
  rw [index_eq]
  omega

theorem index_nextin {r : Nat} (hr : r % 8 = 0) :
    index (nextin r) = (index r + 1) % 32 ∧ nextin r % 8 = 0 := by
  rw [index_eq, index_eq]
  unfold nextin
  omega

/-- `resps` lies on a multiple of its size. -/
theorem index_addr {addr i : Nat} (haddr : addr % 256 = 0) (hi : i < 32) :
    index (addr + i * 8) = i := by
  rw [index_eq]
  omega

theorem tag_of_flags {tag : Nat} (flags : Nat) (htag : tag < 32) :
    (tag + 32 * flags) &&& MASK 5 = tag := by
  unfold MASK
  rw [Nat.one_shiftLeft, Nat.and_two_pow_sub_one_eq_mod]
  omega

/-! ## The loop -/

/-- The tags of `k` responses. -/
def tags (resps : Nat → Nat) (out k : Nat) : List Nat :=
  (window resps 32 out k).map fun r => r &&& MASK 5

def setdone (done : Nat → Done) (l : List Nat) : Nat → Done :=
  l.foldl (fun d tag => Function.update d tag .Rok) done

theorem setdone_apply (done : Nat → Done) (l : List Nat) (tag : Nat) :
    setdone done l tag = if tag ∈ l then .Rok else done tag := by
  induction l generalizing done with
  | nil => rfl
  | cons t l ih =>
      show setdone (Function.update done t .Rok) l tag = _
      rw [ih]
      by_cases heq : tag = t
      · simp [heq]
      · simp [heq]

/-- The loop with `k` responses before it, fewer than 32. -/
theorem loop_eq (addr : Nat) (resps : Nat → Nat) {k fuel out : Nat} (t : Turn)
    (hk : k < 32) (hfuel : k < fuel) (hout : out < 32) :
    loop addr resps (slot 32 out k) fuel out t = some {
      reqsdone := setdone t.reqsdone (tags resps out k)
      respout := if k = 0 then t.respout else addr + slot 32 out k * 8
      set := t.set ++ tags resps out k } := by
  induction k generalizing fuel out t with
  | zero =>
      cases fuel with
      | zero => exact absurd hfuel (Nat.lt_irrefl 0)
      | succ fuel =>
          rw [slot_zero hout]
          unfold loop
          rw [if_pos rfl]
          simp [tags, setdone]
  | succ k ih =>
      cases fuel with
      | zero => exact absurd hfuel (Nat.not_lt_zero _)
      | succ fuel =>
          have hne : slot 32 out (k + 1) ≠ out := by
            intro heq
            have hzero : slot 32 out (k + 1) = slot 32 out 0 := by
              rw [slot_zero hout]
              exact heq
            have := slot_inj hk (by omega) hzero
            omega
          have hnext : (out + 1) % 32 < 32 := Nat.mod_lt _ (by decide)
          have hslot : slot 32 out (k + 1) = slot 32 ((out + 1) % 32) k :=
            (slot_succ 32 out k).symm
          have htags : tags resps out (k + 1) =
              (resps out &&& MASK 5) :: tags resps ((out + 1) % 32) k := by
            unfold tags
            rw [window_succ resps k hout, List.map_cons]
          unfold loop
          rw [if_neg hne, hslot, ih _ (by omega) (by omega) hnext, htags]
          congr 2
          · by_cases hzero : k = 0
            · rw [if_pos hzero, if_neg (by omega), hzero, slot_zero hnext]
            · rw [if_neg hzero, if_neg (by omega)]
          · rw [List.append_assoc]
            rfl

/-! ## What is reported -/

/-- Every run of the loop set `reqsdone` for exactly what completed since the
run before, in that order, and left the pointers equal; and of the tags in use
the reported ones are those with `reqsdone` set to `Rok`. -/
structure Reported (s : State) : Prop where
  set : ∀ r ∈ s.runs, r.set = r.completed
  once : ∀ r ∈ s.runs, r.set.Nodup
  level : ∀ r ∈ s.runs, r.level
  done : ∀ tag ∈ inuse s, s.reqsdone tag = .Rok ↔ tag ∈ s.reported

/-- An interrupt finds an unused entry. -/
def NotFull (s : State) : Action → Prop
  | .interrupt => s.completed.length < 32
  | _ => True

instance (s : State) : (a : Action) → Decidable (NotFull s a)
  | .interrupt => inferInstanceAs (Decidable (s.completed.length < 32))
  | .submit _ => isTrue trivial
  | .respond _ _ => isTrue trivial
  | .finish _ => isTrue trivial

/-- The responses between the pointers are those of the completed requests. -/
structure RingInv (ntags : Nat) (s : State) : Prop where
  reported : Reported s
  aligned : s.respin % 8 = 0
  ahead : index s.respin = slot 32 (index s.respout) s.completed.length
  responses : tags s.resps (index s.respout) s.completed.length = s.completed
  distinct : (inuse s).Nodup
  below : ∀ tag ∈ inuse s, tag < ntags

theorem RingInv.inuse_length {ntags : Nat} {s : State} (h : RingInv ntags s) :
    (inuse s).length ≤ ntags := by
  have hsub : inuse s ⊆ List.range ntags := by
    intro tag htag
    exact List.mem_range.2 (h.below tag htag)
  have hle := (h.distinct.subperm hsub).length_le
  rwa [List.length_range] at hle

theorem submit_inv {addr ntags tag : Nat} {s s' : State} (h : RingInv ntags s)
    (hs : step addr ntags s (.submit tag) = some s') : RingInv ntags s' := by
  simp only [step] at hs
  split at hs
  case isFalse => cases hs
  case isTrue hfree =>
      cases hs
      have hperm : ((s.atdisk ++ [tag]) ++ s.completed ++ s.reported).Perm
          (tag :: inuse s) := by
        unfold inuse
        rw [List.append_assoc, List.append_assoc, List.append_assoc]
        exact List.perm_middle
      have hdone : ∀ t ∈ inuse s, Function.update s.reqsdone tag .Rtimeout t =
          s.reqsdone t := by
        intro t ht
        apply Function.update_of_ne
        intro heq
        rw [heq] at ht
        exact hfree.2 ht
      exact {
        reported := {
          set := h.reported.set
          once := h.reported.once
          level := h.reported.level
          done := by
            intro t ht
            show Function.update s.reqsdone tag .Rtimeout t = .Rok ↔ t ∈ s.reported
            cases List.mem_cons.1 (hperm.mem_iff.1 ht) with
            | inl heq =>
                have hnot : t ∉ s.reported := by
                  intro hin
                  rw [heq] at hin
                  exact hfree.2 (List.mem_append_right _ hin)
                rw [heq, Function.update_self]
                rw [heq] at hnot
                exact iff_of_false Done.noConfusion hnot
            | inr hold =>
                rw [hdone t hold]
                exact h.reported.done t hold }
        aligned := h.aligned
        ahead := h.ahead
        responses := h.responses
        distinct := by
          apply hperm.nodup_iff.2
          exact List.nodup_cons.2 ⟨hfree.2, h.distinct⟩
        below := by
          intro t ht
          cases List.mem_cons.1 (hperm.mem_iff.1 ht) with
          | inl heq =>
              rw [heq]
              exact hfree.1
          | inr hold => exact h.below t hold }

theorem respond_inv {addr ntags k flags : Nat} {s s' : State} (hntags : ntags ≤ 32)
    (h : RingInv ntags s) (hs : step addr ntags s (.respond k flags) = some s') :
    RingInv ntags s' := by
  simp only [step] at hs
  split at hs
  case h_1 => cases hs
  case h_2 tag hk =>
      cases hs
      have hmem : tag ∈ s.atdisk := List.mem_of_getElem? hk
      have hperm : (s.atdisk.eraseIdx k ++ (s.completed ++ [tag]) ++ s.reported).Perm
          (inuse s) := by
        unfold inuse
        apply List.Perm.append_right
        have hsplit : s.atdisk.Perm (tag :: s.atdisk.eraseIdx k) := by
          have hlt : k < s.atdisk.length := (List.getElem?_eq_some_iff.1 hk).1
          have hget : s.atdisk[k] = tag := (List.getElem?_eq_some_iff.1 hk).2
          rw [← hget]
          exact (List.getElem_cons_eraseIdx_perm hlt).symm
        have hright := hsplit.append_right s.completed
        apply List.Perm.trans _ hright.symm
        rw [← List.append_assoc]
        exact List.perm_append_singleton _ _
      have hlen : s.completed.length < 32 := by
        have hle := h.inuse_length
        have hpos : 0 < s.atdisk.length := List.length_pos_of_mem hmem
        unfold inuse at hle
        rw [List.length_append, List.length_append] at hle
        omega
      have htag : tag < 32 := by
        have hin : tag ∈ inuse s := by
          unfold inuse
          simp [hmem]
        have := h.below tag hin
        omega
      have hnext := index_nextin h.aligned
      exact {
        reported := {
          set := h.reported.set
          once := h.reported.once
          level := h.reported.level
          done := fun t ht => h.reported.done t (hperm.mem_iff.1 ht) }
        aligned := hnext.2
        ahead := by
          show index (nextin s.respin) =
            slot 32 (index s.respout) (s.completed ++ [tag]).length
          rw [hnext.1, h.ahead, slot_next, List.length_append,
            List.length_singleton]
        responses := by
          show tags (Function.update s.resps (index s.respin) (tag + 32 * flags))
            (index s.respout) (s.completed ++ [tag]).length = s.completed ++ [tag]
          have hold := h.responses
          unfold tags at hold ⊢
          rw [List.length_append, List.length_singleton, h.ahead,
            window_push _ hlen, List.map_append, hold, List.map_singleton,
            tag_of_flags flags htag]
        distinct := hperm.nodup_iff.2 h.distinct
        below := fun t ht => h.below t (hperm.mem_iff.1 ht) }

/-- What an interrupt with an unused entry does. -/
theorem sataintr_eq {addr ntags : Nat} {s : State} (h : RingInv ntags s)
    (hlt : s.completed.length < 32) :
    sataintr addr s = some {
      reqsdone := setdone s.reqsdone s.completed
      respout := if s.completed.length = 0 then s.respout
        else addr + index s.respin * 8
      set := s.completed } := by
  unfold sataintr
  rw [h.ahead, loop_eq addr s.resps _ hlt (by omega) (index_lt _), h.responses]
  rfl

theorem interrupt_inv {addr ntags : Nat} {s s' : State} (haddr : addr % 256 = 0)
    (h : RingInv ntags s) (hlt : s.completed.length < 32)
    (hs : step addr ntags s .interrupt = some s') : RingInv ntags s' := by
  simp only [step, sataintr_eq h hlt] at hs
  cases hs
  have hlevel : index (if s.completed.length = 0 then s.respout
      else addr + index s.respin * 8) = index s.respin := by
    by_cases hzero : s.completed.length = 0
    · rw [if_pos hzero, h.ahead, hzero, slot_zero (index_lt _)]
    · rw [if_neg hzero]
      exact index_addr haddr (index_lt _)
  have hmem : ∀ t, t ∈ s.atdisk ++ [] ++ (s.reported ++ s.completed) ↔ t ∈ inuse s := by
    intro t
    unfold inuse
    simp only [List.mem_append, List.not_mem_nil, or_false]
    exact ⟨fun h => by rcases h with h | h | h <;> simp [h],
      fun h => by rcases h with (h | h) | h <;> simp [h]⟩
  exact {
    reported := {
      set := by
        intro r hr
        cases List.mem_append.1 hr with
        | inl hold => exact h.reported.set r hold
        | inr hnew =>
            rw [List.mem_singleton.1 hnew]
      once := by
        intro r hr
        cases List.mem_append.1 hr with
        | inl hold => exact h.reported.once r hold
        | inr hnew =>
            rw [List.mem_singleton.1 hnew]
            have hnodup := h.distinct
            unfold inuse at hnodup
            exact (List.nodup_append.1 (List.nodup_append.1 hnodup).1).2.1
      level := by
        intro r hr
        cases List.mem_append.1 hr with
        | inl hold => exact h.reported.level r hold
        | inr hnew =>
            rw [List.mem_singleton.1 hnew]
            exact decide_eq_true hlevel
      done := by
        intro t ht
        have hin := (hmem t).1 ht
        show setdone s.reqsdone s.completed t = .Rok ↔ t ∈ s.reported ++ s.completed
        rw [setdone_apply, List.mem_append]
        by_cases hc : t ∈ s.completed
        · simp [hc]
        · rw [if_neg hc]
          simp only [hc, or_false]
          exact h.reported.done t hin }
    aligned := h.aligned
    ahead := by
      show index s.respin = slot 32 (index (if s.completed.length = 0 then
        s.respout else addr + index s.respin * 8)) 0
      rw [hlevel, slot_zero (index_lt _)]
    responses := rfl
    distinct := by
      have hperm : (s.atdisk ++ [] ++ (s.reported ++ s.completed)).Perm (inuse s) := by
        unfold inuse
        rw [List.append_nil, List.append_assoc]
        exact List.Perm.append_left _ List.perm_append_comm
      exact hperm.nodup_iff.2 h.distinct
    below := fun t ht => h.below t ((hmem t).1 ht) }

theorem finish_inv {addr ntags k : Nat} {s s' : State} (h : RingInv ntags s)
    (hs : step addr ntags s (.finish k) = some s') : RingInv ntags s' := by
  simp only [step] at hs
  split at hs
  case isFalse => cases hs
  case isTrue hk =>
      cases hs
      have hsub : (s.atdisk ++ s.completed ++ s.reported.eraseIdx k).Sublist
          (inuse s) := (List.eraseIdx_sublist _ _).append_left _
      exact {
        reported := {
          set := h.reported.set
          once := h.reported.once
          level := h.reported.level
          done := by
            intro t ht
            have hin := hsub.subset ht
            show s.reqsdone t = .Rok ↔ t ∈ s.reported.eraseIdx k
            rw [h.reported.done t hin]
            constructor
            · intro hrep
              have hnodup := h.distinct
              unfold inuse at hnodup
              cases List.mem_append.1 ht with
              | inl hleft =>
                  exact absurd rfl ((List.nodup_append.1 hnodup).2.2 t hleft t hrep)
              | inr hright => exact hright
            · intro herase
              exact (List.eraseIdx_sublist _ _).subset herase }
        aligned := h.aligned
        ahead := h.ahead
        responses := h.responses
        distinct := hsub.nodup h.distinct
        below := fun t ht => h.below t (hsub.subset ht) }

theorem step_inv {addr ntags : Nat} {s : State} {a : Action} {s' : State}
    (haddr : addr % 256 = 0) (hntags : ntags ≤ 32) (h : RingInv ntags s)
    (hg : NotFull s a) (hs : step addr ntags s a = some s') : RingInv ntags s' := by
  cases a with
  | submit tag => exact submit_inv h hs
  | respond k flags => exact respond_inv hntags h hs
  | interrupt => exact interrupt_inv haddr h hg hs
  | finish k => exact finish_inv h hs

/-- With all 32 entries used the loop does nothing. -/
theorem sataintr_full {addr ntags : Nat} {s : State} (h : RingInv ntags s)
    (hfull : s.completed.length = 32) :
    sataintr addr s = some {
      reqsdone := s.reqsdone, respout := s.respout, set := [] } := by
  unfold sataintr loop
  have heq : index s.respin = index s.respout := by
    rw [h.ahead, hfull]
    exact slot_full (index_lt _)
  rw [if_pos heq]

theorem step_only {addr ntags : Nat} {s : State} {a : Action} {s' : State}
    (hntags : ntags ≤ 32) (h : RingInv ntags s)
    (hs : step addr ntags s a = some s') (hP : Reported s') : NotFull s a := by
  cases a with
  | interrupt =>
      show s.completed.length < 32
      by_contra hge
      have hfull : s.completed.length = 32 := by
        have hle := h.inuse_length
        unfold inuse at hle
        rw [List.length_append, List.length_append] at hle
        omega
      simp only [step, sataintr_full h hfull] at hs
      cases hs
      have hset : [] = s.completed := hP.set _ (List.mem_append_right _
        (List.mem_singleton_self _))
      rw [← hset] at hfull
      cases hfull
  | submit tag => trivial
  | respond k flags => trivial
  | finish k => trivial

theorem init_inv {addr : Nat} (ntags : Nat) (haddr : addr % 256 = 0)
    (resps : Nat → Nat) (done : Nat → Done) :
    RingInv ntags (init addr resps done) where
  reported := {
    set := by
      intro r hr
      cases hr
    once := by
      intro r hr
      cases hr
    level := by
      intro r hr
      cases hr
    done := by
      intro t ht
      cases ht }
  aligned := rfl
  ahead := by
    show index 0 = slot 32 (index addr) 0
    have hzero : index addr = 0 := index_addr haddr (Nat.succ_pos 31)
    rw [hzero]
    decide
  responses := rfl
  distinct := List.nodup_nil
  below := by
    intro t ht
    cases ht

/-- In every run with up to 32 tags, every interrupt reports exactly what
completed since the last one exactly when none finds all 32 entries used. -/
theorem run_reported_iff {addr ntags : Nat} (haddr : addr % 256 = 0)
    (hntags : ntags ≤ 32) (resps : Nat → Nat) (done : Nat → Done)
    (as : List Action) :
    AllStates (step addr ntags) Reported (init addr resps done) as ↔
      AllSteps (step addr ntags) NotFull (init addr resps done) as :=
  allStates_iff_allSteps (fun _ h => h.reported)
    (fun _ _ _ h hg hs => step_inv haddr hntags h hg hs)
    (fun _ _ _ h hs hP => step_only hntags h hs hP) as
    (init_inv ntags haddr resps done)

/-- Three tags: one response at the first interrupt, and two at the second, one of them of
a tag that was used again. -/
def sampleActions : List Action :=
  [.submit 2, .submit 0, .respond 1 0, .interrupt, .finish 0, .submit 1, .submit 0,
    .respond 1 5, .respond 1 0, .interrupt, .finish 1]

theorem run_reported_iff_three :
    (run (step 0x300 3) (init 0x300 (fun _ => 0) fun _ => .Rok) sampleActions).map
        (fun s => (s.runs, s.atdisk, s.reported, s.respout)) =
      some ([⟨[0], [0], true⟩, ⟨[1, 0], [1, 0], true⟩], [2], [1], 0x318) ∧
    AllStates (step 0x300 3) Reported (init 0x300 (fun _ => 0) fun _ => .Rok)
      sampleActions :=
  ⟨by decide +kernel,
    (run_reported_iff (by decide) (by decide) _ _ sampleActions).2 (by decide +kernel)⟩

/-- 32 requests complete between two interrupts: none is reported. -/
theorem full_not_reported : ¬ ∀ (addr ntags : Nat) (resps : Nat → Nat)
    (done : Nat → Done) (as : List Action), addr % 256 = 0 → ntags ≤ 32 →
    AllStates (step addr ntags) Reported (init addr resps done) as := by
  intro hall
  have hrun := hall 0 32 (fun _ => 0) (fun _ => .Rtimeout)
    ((List.range 32).map .submit ++ List.replicate 32 (.respond 0 0) ++
      [.interrupt]) (by decide) (by decide)
  have hguard := (allStates_iff_allSteps (fun _ h => h.reported)
    (fun _ _ _ h hg hs => step_inv (show 0 % 256 = 0 from rfl) (by decide) h hg hs)
    (fun _ _ _ h hs hP => step_only (by decide) h hs hP) _
    (init_inv 32 (by decide) _ _)).1 hrun
  have hnot : ¬ AllSteps (step 0 32) NotFull
      (init 0 (fun _ => 0) fun _ => .Rtimeout)
      ((List.range 32).map .submit ++ List.replicate 32 (.respond 0 0) ++
        [.interrupt]) := by
    decide +kernel
  exact hnot hguard

end Kirkwood.Ports.SataResponse
