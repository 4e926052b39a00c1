import Kirkwood.Ports.StoreChan

/-!
# Exclusive open of partitions

A partition that is not `data` may be open once: `bsopen` tests `isopen` and
counts it up, and `bsclose` of a channel with the current version counts it down.

## Main results

* `step_alone`: a step keeps `isopen` in step with the open channels, when no
  other open has counted between the test and the count of this one, and no
  channel has the version that an initialisation is about to give;
* `run_exclusive_iff`: a run keeps partitions exclusive throughout exactly when
  all its steps are like that.

`bsopen` has the lock of the store for writing when it opens a directory, but for
reading when it opens a partition.
-/

namespace Kirkwood.Ports.StoreChanOpen

open Kirkwood.Verified
open Kirkwood.Verified.Trans
open Kirkwood.Ports.BlockStore
open Kirkwood.Ports.StoreInit (newVers oneMbr)
open Kirkwood.Ports.StoreChan

/-- An open that has counted, and has not yet handed out its channel. -/
def OpenStage.counts : OpenStage → Bool
  | .counted _ _ => true
  | _ => false

/-- An open channel on partition `i` that has the current version. -/
def holds (d : Store) (i : Nat) (c : Chan) : Bool :=
  decide (c.part = i ∧ c.vers = d.vers)

/-- An open of partition `i` that has counted. -/
def holding (i : Nat) (o : Opening) : Bool :=
  decide (o.part = i ∧ OpenStage.counts o.stage = true)

/-- The open channels on partition `i` with the current version, with those that
an open is about to hand out. -/
def holders (s : State) (i : Nat) : Nat :=
  s.chans.countP (holds s.d i) + s.opens.countP (holding i)

/-- No partition but `data` is open twice, `isopen` says whether it is open, and
`bsclose` has not found it otherwise. -/
structure Exclusive (s : State) : Prop where
  calm : s.panicked = false
  count : ∀ i, 1 ≤ i → isopen s i = holders s i
  one : ∀ i, 1 ≤ i → holders s i ≤ 1

/-- When an open of a partition counts, `isopen` is still what its test has found;
when the store gets a new version, no channel has that already. -/
def Alone (s : State) : Action → Prop
  | .open k _ => ∀ o p, s.opens[k]? = some o → o.stage = .devopened p false →
      1 ≤ o.part → openCount s o.part = 0
  | a => Rebuilds s a → ∀ c ∈ s.chans, 1 ≤ c.part → c.vers ≠ newVers s.d

instance (s : State) (who : Caller) : Decidable (mayWrite s who = .ok ()) :=
  match _h : mayWrite s who with
  | .ok () => isTrue rfl
  | .error _ => isFalse nofun

instance (s : State) : (a : Action) → Decidable (Rebuilds s a)
  | .init _ => isTrue trivial
  | .ctl vers who cmd _ => inferInstanceAs (Decidable (vers = s.d.vers ∧
      mayWrite s who = .ok () ∧ (cmd = .partinit → s.d.ready ≠ 0)))
  | .opening _ | .open _ _ | .close _ | .accessing _ _ | .access _ | .wstat _ _ _ =>
      isFalse id

/-- An open that is about to count. -/
def OpenStage.counting : OpenStage → Bool
  | .devopened _ false => true
  | _ => false

instance (s : State) : (a : Action) → Decidable (Alone s a)
  | .open k _ =>
      decidable_of_iff (∀ o ∈ s.opens[k]?, OpenStage.counting o.stage = true →
          1 ≤ o.part → openCount s o.part = 0) ⟨
        fun h o p ho hstage => h o ho (by rw [hstage]; rfl),
        fun h o ho hcounting => by
          cases hstage : o.stage with
          | devopened p nilp =>
              cases nilp with
              | false => exact h o p ho hstage
              | true =>
                  rw [hstage] at hcounting
                  cases hcounting
          | _ =>
              rw [hstage] at hcounting
              cases hcounting⟩
  | .init r => inferInstanceAs (Decidable (Rebuilds s (.init r) → _))
  | .ctl vers who cmd r => inferInstanceAs (Decidable (Rebuilds s (.ctl vers who cmd r) → _))
  | .opening q => inferInstanceAs (Decidable (Rebuilds s (.opening q) → _))
  | .close k => inferInstanceAs (Decidable (Rebuilds s (.close k) → _))
  | .accessing k w => inferInstanceAs (Decidable (Rebuilds s (.accessing k w) → _))
  | .access k => inferInstanceAs (Decidable (Rebuilds s (.access k) → _))
  | .wstat who uid mode => inferInstanceAs (Decidable (Rebuilds s (.wstat who uid mode) → _))

/-- What an open knows of its partition: only for `data` is `p` nil. -/
def Aware (d : Store) (part : Nat) : OpenStage → Prop
  | .locked => True
  | .found p => part < d.nparts ∧ (1 ≤ part → p.index = part)
  | .tested _ nilp | .devopened _ nilp | .counted _ nilp =>
      part < d.nparts ∧ (nilp = true → part = 0)

structure OpenInv (s : State) : Prop where
  table : Table s
  opens : ∀ o ∈ s.opens, o.part < 256 ∧ Aware s.d o.part o.stage
  excl : Exclusive s

theorem isopen_setOpen (s : State) (i : Nat) (n : Int) {j : Nat}
    (hlive : j < s.d.nparts → j < s.table.length) :
    isopen (setOpen s i n) j = if i = j ∧ j < s.d.nparts then n else isopen s j := by
  unfold isopen openCount setOpen
  rw [(s.setpart_frame i _).nparts]
  by_cases hj : j < s.d.nparts
  · obtain ⟨p, hget⟩ : ∃ p, s.table[j]? = some p :=
      ⟨_, List.getElem?_eq_getElem (hlive hj)⟩
    rw [if_pos hj, setpart_get, hget]
    show (if i = j then { p with isopen := n } else p).isopen = _
    by_cases hij : i = j
    · rw [if_pos hij, if_pos ⟨hij, hj⟩]
    · rw [if_neg hij, if_neg (fun h => hij h.1), if_pos hj]
  · rw [if_neg hj, if_neg (fun h => hj h.2), if_neg hj]

theorem isopen_owned (s : State) {f : Part → Part} (h : Placing f) (i : Nat) :
    isopen (s.setpart 0 f) i = isopen s i := by
  unfold isopen openCount
  rw [(s.setpart_frame 0 f).nparts, setpart_get]
  cases s.table[i]? with
  | none => rfl
  | some p =>
      show (if i < s.d.nparts then (if 0 = i then f p else p).isopen else 0) = _
      split
      · split
        · exact (h p).2.2.2.2
        · rfl
      · rfl

/-- The count of a nil `Part` is of no partition. -/
theorem isopen_low (s : State) (n : Int) {i : Nat} (hi : 1 ≤ i) :
    isopen { s with low := { s.low with isopen := n } } i = isopen s i := by
  have hget : { s with low := { s.low with isopen := n } }.table[i]? = s.table[i]? := by
    unfold State.table
    by_cases hnil : s.d.parts = []
    · obtain ⟨j, rfl⟩ := Nat.exists_eq_add_of_le' hi
      rw [if_pos hnil, if_pos hnil]
      rfl
    · rw [if_neg hnil, if_neg hnil]
  unfold isopen openCount
  rw [hget]

/-! ## The number of holders -/

/-- An open that goes on without counting. -/
theorem holding_set {s : State} {k : Nat} {o : Opening} {stage : OpenStage} (i : Nat)
    (hk : s.opens[k]? = some o)
    (hsame : OpenStage.counts stage = OpenStage.counts o.stage) :
    (s.opens.set k { o with stage := stage }).countP (holding i) =
      s.opens.countP (holding i) := by
  have hset := Table.countP_set (q := holding i) (b := { o with stage := stage }) hk
  have heq : holding i { o with stage := stage } = holding i o := by
    unfold holding
    rw [hsame]
  rw [heq] at hset
  omega

/-- An open that counts. -/
theorem holding_count {s : State} {k : Nat} {o : Opening} {stage : OpenStage}
    (i : Nat) (hk : s.opens[k]? = some o) (hold : OpenStage.counts o.stage = false)
    (hnew : OpenStage.counts stage = true) :
    (s.opens.set k { o with stage := stage }).countP (holding i) =
      s.opens.countP (holding i) + (if o.part = i then 1 else 0) := by
  have hset := Table.countP_set (q := holding i) (b := { o with stage := stage }) hk
  unfold holding at hset ⊢
  simp only [hold, hnew, and_true, Bool.false_eq_true, and_false, decide_false,
    if_false, decide_eq_true_eq] at hset
  exact hset

/-- An open that ends. -/
theorem holding_erase {s : State} {k : Nat} {o : Opening} (i : Nat)
    (hk : s.opens[k]? = some o) :
    (s.opens.eraseIdx k).countP (holding i) +
      (if o.part = i ∧ OpenStage.counts o.stage = true then 1 else 0) =
      s.opens.countP (holding i) := by
  have herase := Table.countP_eraseIdx (q := holding i) hk
  unfold holding at herase ⊢
  simp only [decide_eq_true_eq] at herase
  exact herase

/-- A channel that is closed. -/
theorem holds_erase {s : State} {k : Nat} {c : Chan} (i : Nat)
    (hk : s.chans[k]? = some c) :
    (s.chans.eraseIdx k).countP (holds s.d i) +
      (if c.part = i ∧ c.vers = s.d.vers then 1 else 0) =
      s.chans.countP (holds s.d i) := by
  have herase := Table.countP_eraseIdx (q := holds s.d i) hk
  unfold holds at herase ⊢
  simp only [decide_eq_true_eq] at herase
  exact herase

theorem holds_congr {d d' : Store} (h : d'.vers = d.vers) (i : Nat) :
    holds d' i = holds d i := by
  unfold holds
  rw [h]

theorem Aware.keep {d d' : Store} {part : Nat} {stage : OpenStage}
    (h : Aware d part stage) (hn : d'.nparts = d.nparts) : Aware d' part stage := by
  cases stage with
  | locked => trivial
  | found p => unfold Aware at *; rw [hn]; exact h
  | tested p nilp => unfold Aware at *; rw [hn]; exact h
  | devopened p nilp => unfold Aware at *; rw [hn]; exact h
  | counted p nilp => unfold Aware at *; rw [hn]; exact h

/-- A step that changes neither `isopen` nor the holders. -/
theorem OpenInv.frame {s t : State} (h : OpenInv s) (htable : Table t)
    (hn : t.d.nparts = s.d.nparts)
    (hopens : ∀ o ∈ t.opens, o ∈ s.opens ∨
      (o.part < 256 ∧ Aware s.d o.part o.stage))
    (hcalm : t.panicked = s.panicked)
    (hisopen : ∀ i, 1 ≤ i → isopen t i = isopen s i)
    (hholders : ∀ i, 1 ≤ i → holders t i = holders s i) : OpenInv t :=
  { table := htable
    opens := by
      intro o ho
      cases hopens o ho with
      | inl hold =>
          obtain ⟨hsmall, haware⟩ := h.opens o hold
          exact ⟨hsmall, haware.keep hn⟩
      | inr hnew => exact ⟨hnew.1, hnew.2.keep hn⟩
    excl :=
      { calm := hcalm.trans h.excl.calm
        count := by
          intro i hi
          rw [hisopen i hi, hholders i hi]
          exact h.excl.count i hi
        one := by
          intro i hi
          rw [hholders i hi]
          exact h.excl.one i hi } }

private theorem mem_set_aware {s : State} {k : Nat} {o : Opening} {stage : OpenStage}
    (h : OpenInv s) (hk : s.opens[k]? = some o) (haware : Aware s.d o.part stage) :
    ∀ o' ∈ s.opens.set k { o with stage := stage }, o' ∈ s.opens ∨
      (o'.part < 256 ∧ Aware s.d o'.part o'.stage) := by
  intro o' ho'
  cases Table.mem_set_cases ho' with
  | inl heq =>
      rw [heq]
      exact Or.inr ⟨(h.opens o (List.mem_of_getElem? hk)).1, haware⟩
  | inr hold => exact Or.inl hold

/-- A partition that an open has found is in the table. -/
private theorem aware_found {s : State} {o : Opening} {p : Part} (h : OpenInv s)
    (ho : o.part < 256) (hget : xpartget s o.part = .ok p) :
    Aware s.d o.part (.found p) := by
  obtain ⟨-, hlive, hp⟩ := xpartget_ok hget
  refine ⟨hlive, fun hpart => ?_⟩
  rw [h.table.index _ _ hpart hlive hp]
  exact Nat.mod_eq_of_lt ho

/-- An open that goes on without counting. -/
private theorem go_inv {s : State} {k : Nat} {o : Opening} (stage : OpenStage)
    (h : OpenInv s) (hk : s.opens[k]? = some o) (haware : Aware s.d o.part stage)
    (hsame : OpenStage.counts stage = OpenStage.counts o.stage) :
    OpenInv { s with opens := s.opens.set k { o with stage := stage } } := by
  refine h.frame (h.table.congr rfl rfl rfl) rfl (mem_set_aware h hk haware) rfl
    (fun _ _ => rfl) ?_
  intro i _
  exact congrArg (_ + ·) (holding_set i hk hsame)

/-- `p->isopen++` -/
private theorem isopen_counted {s : State} {o : Opening} (h : OpenInv s)
    (hlive : o.part < s.d.nparts) (i : Nat) :
    isopen (setOpen s o.part (openCount s o.part + 1)) i =
      isopen s i + (if o.part = i then 1 else 0) := by
  rw [isopen_setOpen _ _ _ fun hj => hj.trans_le h.table.live]
  by_cases hi : o.part = i
  · rw [if_pos ⟨hi, hi ▸ hlive⟩, if_pos hi]
    unfold isopen
    rw [if_pos (hi ▸ hlive), hi]
  · rw [if_neg (fun hc => hi hc.1), if_neg hi, Int.add_zero]

/-- The state after an open has counted. -/
def counted (s : State) (k : Nat) (o : Opening) (p : Part) : State :=
  { setOpen s o.part (openCount s o.part + 1) with
    opens := s.opens.set k { o with stage := .counted p false } }

/-- The open that counts is a holder from then on. -/
private theorem holders_counted {s : State} {k : Nat} {o : Opening} {p : Part}
    (hk : s.opens[k]? = some o) (hstage : o.stage = .devopened p false) (i : Nat) :
    holders (counted s k o p) i = holders s i + (if o.part = i then 1 else 0) := by
  have hcount := @holding_count s k o (.counted p false) i hk (by rw [hstage]; rfl) rfl
  have hframe : Frame s (setOpen s o.part (openCount s o.part + 1)) :=
    s.setpart_frame _ _
  show (setOpen s o.part _).chans.countP (holds (setOpen s o.part _).d i) +
    (s.opens.set k { o with stage := .counted p false }).countP (holding i) = _
  rw [hframe.chans, holds_congr hframe.vers, hcount, ← Nat.add_assoc]
  rfl

/-- Counting keeps partitions exclusive exactly where none has counted before. -/
private theorem counted_alone {s : State} {k : Nat} {o : Opening} {p : Part}
    (h : OpenInv s) (hk : s.opens[k]? = some o) (hstage : o.stage = .devopened p false)
    (htable : Table (counted s k o p)) :
    ((1 ≤ o.part → openCount s o.part = 0) → OpenInv (counted s k o p)) ∧
    (Exclusive (counted s k o p) → 1 ≤ o.part → openCount s o.part = 0) := by
  have haware := (h.opens o (List.mem_of_getElem? hk)).2
  rw [hstage] at haware
  obtain ⟨hlive, hnil⟩ := haware
  have hframe : Frame s (setOpen s o.part (openCount s o.part + 1)) :=
    s.setpart_frame _ _
  have hopen : isopen s o.part = openCount s o.part := if_pos hlive
  constructor
  · intro hfree
    have hnew : Aware s.d o.part (.counted p false) := ⟨hlive, nofun⟩
    exact {
      table := htable
      opens := by
        intro o' ho'
        cases mem_set_aware h hk hnew o' ho' with
        | inl hin => exact ⟨(h.opens o' hin).1, (h.opens o' hin).2.keep hframe.nparts⟩
        | inr hnew => exact ⟨hnew.1, hnew.2.keep hframe.nparts⟩
      excl := {
        calm := hframe.panicked.trans h.excl.calm
        count := by
          intro i hi
          show isopen (setOpen s o.part (openCount s o.part + 1)) i = _
          rw [isopen_counted h hlive, holders_counted hk hstage, h.excl.count i hi]
          by_cases hoi : o.part = i
          · rw [if_pos hoi, if_pos hoi]
            rfl
          · rw [if_neg hoi, if_neg hoi]
            rfl
        one := by
          intro i hi
          rw [holders_counted hk hstage]
          by_cases hoi : o.part = i
          · have hold := h.excl.count i hi
            rw [if_pos hoi]
            rw [← hoi] at hi hold ⊢
            have hzero := hfree hi
            omega
          · rw [if_neg hoi]
            exact h.excl.one i hi } }
  · intro hexcl hpart
    have hold := h.excl.count o.part hpart
    have hone := hexcl.one o.part hpart
    rw [holders_counted hk hstage, if_pos rfl] at hone
    omega

/-- The open that has counted is a holder, as its channel is. -/
private theorem holders_opened {s : State} {k : Nat} {o : Opening} {c : Chan}
    (hk : s.opens[k]? = some o) (hcounts : OpenStage.counts o.stage = true)
    (hpart : c.part = o.part) (hvers : c.vers = s.d.vers) (i : Nat) :
    holders { s with opens := s.opens.eraseIdx k, chans := s.chans ++ [c] } i =
      holders s i := by
  have herase := holding_erase i hk
  rw [hcounts] at herase
  unfold holders
  rw [Table.countP_snoc]
  show s.chans.countP (holds s.d i) + (if decide (c.part = i ∧ c.vers = s.d.vers) =
    true then 1 else 0) + _ = _
  simp only [hpart, hvers, and_true, decide_eq_true_eq] at herase ⊢
  omega

/-- The next statement of an open keeps the count exactly when it is alone. -/
theorem open_alone {s s' : State} {k : Nat} {o : Opening} {permit : Bool}
    (h : OpenInv s) (hk : s.opens[k]? = some o) (hdid : OpenDid s k o s') :
    (Alone s (.open k permit) → OpenInv s') ∧
      (Exclusive s' → Alone s (.open k permit)) := by
  obtain ⟨hsmall, haware⟩ := h.opens o (List.mem_of_getElem? hk)
  have htable : Table s' := (@Did.open s k permit o s' hk hdid).table h.table
  have hquiet : (∀ p, o.stage ≠ .devopened p false) → Alone s (.open k permit) := by
    intro hnot o' p ho' hstage
    rw [hk] at ho'
    cases ho'
    exact absurd hstage (hnot p)
  cases hdid with
  | @failed msg hbefore =>
      have hcounts : OpenStage.counts o.stage = false := by
        cases hstage : o.stage with
        | counted p nilp => exact absurd hstage (hbefore p nilp).2
        | locked => rfl
        | found p => rfl
        | tested p nilp => rfl
        | devopened p nilp => rfl
      refine ⟨fun _ => ?_, fun _ => hquiet fun p => (hbefore p false).1⟩
      refine h.frame htable rfl (fun _ ho => Or.inl (List.mem_of_mem_eraseIdx ho)) rfl
        (fun _ _ => rfl) ?_
      intro i _
      have herase := holding_erase i hk
      rw [hcounts] at herase
      simp only [Bool.false_eq_true, and_false, if_false, Nat.add_zero] at herase
      exact congrArg (_ + ·) herase
  | @found p hstage hget =>
      refine ⟨fun _ => ?_, fun _ => hquiet (by rw [hstage]; exact nofun)⟩
      exact go_inv _ h hk (aware_found h hsmall hget) (by rw [hstage]; rfl)
  | @tested p nilp hstage hnil hfree =>
      rw [hstage] at haware
      obtain ⟨hlive, hindex⟩ := haware
      have hzero : nilp = true → o.part = 0 := by
        intro hnilp
        by_contra hne
        have hpart := hindex (Nat.one_le_iff_ne_zero.2 hne)
        rw [hnil.1 hnilp] at hpart
        exact hne hpart.symm
      refine ⟨fun _ => ?_, fun _ => hquiet (by rw [hstage]; exact nofun)⟩
      exact go_inv (.tested p nilp) h hk ⟨hlive, hzero⟩ (by rw [hstage]; rfl)
  | @devopened p nilp hstage =>
      rw [hstage] at haware
      refine ⟨fun _ => ?_, fun _ => hquiet (by rw [hstage]; exact nofun)⟩
      exact go_inv (.devopened p nilp) h hk haware (by rw [hstage]; rfl)
  | @countedNil p hstage =>
      rw [hstage] at haware
      have hzero : o.part = 0 := haware.2 rfl
      refine ⟨fun _ => ?_, fun _ => hquiet (by rw [hstage]; exact nofun)⟩
      refine h.frame htable rfl (mem_set_aware h hk haware) rfl
        (fun _ hi => isopen_low s _ hi) ?_
      intro i hi
      have hcount := @holding_count s k o (.counted p true) i hk (by rw [hstage]; rfl) rfl
      rw [if_neg (by omega), Nat.add_zero] at hcount
      exact congrArg (_ + ·) hcount
  | @counted p hstage =>
      obtain ⟨hkeep, honly⟩ := counted_alone h hk hstage htable
      refine ⟨fun halone => hkeep (halone o p hk hstage), ?_⟩
      intro hexcl o' p' ho' _
      rw [hk] at ho'
      cases ho'
      exact honly hexcl
  | @opened p nilp hstage =>
      refine ⟨fun _ => ?_, fun _ => hquiet (by rw [hstage]; exact nofun)⟩
      refine h.frame htable rfl (fun _ ho => Or.inl (List.mem_of_mem_eraseIdx ho)) rfl
        (fun _ _ => rfl) ?_
      intro i _
      exact holders_opened hk (by rw [hstage]; rfl) rfl rfl i

/-- A channel with the current version, on a partition that is not `data`, has it
open. -/
theorem held_open {s : State} {k : Nat} {c : Chan} (h : OpenInv s)
    (hk : s.chans[k]? = some c) (hpart : c.part ≠ 0) (hvers : c.vers = s.d.vers) :
    isopen s c.part = 1 ∧ c.part < s.d.nparts := by
  have hpos : 1 ≤ c.part := Nat.one_le_iff_ne_zero.2 hpart
  have herase := holds_erase c.part hk
  have hone := h.excl.one c.part hpos
  have hcount := h.excl.count c.part hpos
  rw [if_pos ⟨rfl, hvers⟩] at herase
  unfold holders at hone hcount
  have hopen : isopen s c.part = 1 := by omega
  refine ⟨hopen, ?_⟩
  by_contra hlive
  unfold isopen at hopen
  rw [if_neg hlive] at hopen
  exact absurd hopen (by decide)

/-- `p->isopen = 0` -/
private theorem isopen_shut {s : State} {c : Chan} (h : OpenInv s)
    (hlive : c.part < s.d.nparts) (i : Nat) :
    isopen (setOpen s c.part 0) i = if c.part = i then 0 else isopen s i := by
  rw [isopen_setOpen _ _ _ fun hj => hj.trans_le h.table.live]
  by_cases hi : c.part = i
  · rw [if_pos ⟨hi, hi ▸ hlive⟩, if_pos hi]
  · rw [if_neg (fun hc => hi hc.1), if_neg hi]

/-- The channel that is closed is no longer a holder. -/
private theorem holders_shut {s : State} {k : Nat} {c : Chan}
    (hk : s.chans[k]? = some c) (hvers : c.vers = s.d.vers) (i : Nat) :
    holders { setOpen s c.part 0 with chans := s.chans.eraseIdx k } i +
      (if c.part = i then 1 else 0) = holders s i := by
  have herase := holds_erase i hk
  have hframe : Frame s (setOpen s c.part 0) := s.setpart_frame _ _
  simp only [hvers, and_true] at herase
  show (s.chans.eraseIdx k).countP (holds (setOpen s c.part 0).d i) +
    (setOpen s c.part 0).opens.countP (holding i) + _ = _
  rw [hframe.opens, holds_congr hframe.vers]
  unfold holders
  omega

theorem close_alone {s s' : State} {k : Nat} {c : Chan} (h : OpenInv s)
    (hk : s.chans[k]? = some c) (htable : Table s') (hdid : CloseDid s k c s') :
    OpenInv s' := by
  cases hdid with
  | kept hold =>
      refine h.frame htable rfl (fun _ ho => Or.inl ho) rfl (fun _ _ => rfl) ?_
      intro i hi
      have herase := holds_erase i hk
      have hnot : ¬ (c.part = i ∧ c.vers = s.d.vers) := by
        intro hc
        cases hold with
        | inl hzero => omega
        | inr hne => exact hne hc.2
      rw [if_neg hnot, Nat.add_zero] at herase
      exact congrArg (· + _) herase
  | failed hpart hvers hget =>
      obtain ⟨-, hlive⟩ := held_open h hk hpart hvers
      obtain ⟨p, hp, -⟩ := xpartget_live h.table hlive
      exact absurd hp (hget p)
  | @panicked p hpart hvers hget hopen =>
      obtain ⟨hone, hlive⟩ := held_open h hk hpart hvers
      unfold isopen openCount at hone
      rw [if_pos hlive, hget] at hone
      exact absurd hone hopen
  | @shut p hpart hvers hget hopen =>
      have hlive := (held_open h hk hpart hvers).2
      have hisopen := isopen_shut h hlive
      have hholders := @holders_shut s k c hk hvers
      have hframe : Frame s (setOpen s c.part 0) := s.setpart_frame _ _
      exact {
        table := htable
        opens := by
          intro o ho
          have hold : o ∈ s.opens := hframe.opens ▸ ho
          exact ⟨(h.opens o hold).1, (h.opens o hold).2.keep hframe.nparts⟩
        excl := {
          calm := hframe.panicked.trans h.excl.calm
          count := by
            intro i hi
            have hi' := hholders i
            have hcount := h.excl.count i hi
            show isopen (setOpen s c.part 0) i = _
            rw [hisopen]
            by_cases hci : c.part = i
            · rw [if_pos hci] at hi' ⊢
              have hone := h.excl.one i hi
              omega
            · rw [if_neg hci] at hi' ⊢
              rw [hcount, ← hi']
              rfl
          one := by
            intro i hi
            have hi' := hholders i
            have hmax := h.excl.one i hi
            omega } }

/-- A new version: nothing is open, and no channel has it already. -/
theorem built_alone {s s' : State} {a : Action} (h : OpenInv s) (hlock : Unlocked s)
    (hrebuilds : Rebuilds s a) (hrebuilt : Rebuilt s s') :
    (Alone s a → OpenInv s') ∧ (Exclusive s' → Alone s a) := by
  obtain ⟨d', low, err, rfl, hbuilt⟩ := hrebuilt
  have hchans : (built s d' low err).chans = s.chans := by cases err <;> rfl
  have hopens : (built s d' low err).opens = [] := by
    cases err
    · exact hlock.1
    · exact hlock.1
  have hcalm : (built s d' low err).panicked = s.panicked := by cases err <;> rfl
  have halone : Alone s a ↔ ∀ c ∈ s.chans, 1 ≤ c.part → c.vers ≠ newVers s.d := by
    cases a with
    | «open» k permit => exact absurd hrebuilds id
    | opening q => exact absurd hrebuilds id
    | close k => exact absurd hrebuilds id
    | accessing k w => exact absurd hrebuilds id
    | access k => exact absurd hrebuilds id
    | wstat who uid mode => exact absurd hrebuilds id
    | init r => exact ⟨fun hall => hall hrebuilds, fun hall _ => hall⟩
    | ctl vers who cmd r => exact ⟨fun hall => hall hrebuilds, fun hall _ => hall⟩
  have hvers : d'.vers = newVers s.d := by
    rw [← hbuilt.vers, built_d]
  have hholders : ∀ i, holders (built s d' low err) i = s.chans.countP (holds d' i) := by
    intro i
    unfold holders
    rw [hopens, hchans, built_d]
    rfl
  constructor
  · intro hall
    have hzero : ∀ i, 1 ≤ i → holders (built s d' low err) i = 0 := by
      intro i hi
      rw [hholders, List.countP_eq_zero]
      intro c hc
      unfold holds
      rw [decide_eq_true_eq, hvers]
      intro hboth
      exact halone.1 hall c hc (hboth.1 ▸ hi) hboth.2
    exact {
      table := hbuilt.table
      opens := by rw [hopens]; exact nofun
      excl := {
        calm := hcalm.trans h.excl.calm
        count := by
          intro i hi
          rw [hzero i hi]
          exact hbuilt.shut i hi
        one := by
          intro i hi
          rw [hzero i hi]
          exact Nat.zero_le 1 } }
  · intro hexcl
    refine halone.2 ?_
    intro c hc hpart hsame
    have hcount := hexcl.count c.part hpart
    rw [hholders] at hcount
    have hshut := hbuilt.shut c.part hpart
    have hpos : 0 < s.chans.countP (holds d' c.part) := by
      apply List.countP_pos_iff.2
      exact ⟨c, hc, decide_eq_true ⟨rfl, hsame.trans hvers.symm⟩⟩
    omega

private theorem alone_quiet {s : State} {a : Action} (hnot : ¬ Rebuilds s a)
    (hopen : ∀ k permit, a ≠ .open k permit) : Alone s a := by
  cases a with
  | «open» k permit => exact absurd rfl (hopen k permit)
  | opening q => exact fun hr => absurd hr hnot
  | close k => exact fun hr => absurd hr hnot
  | accessing k w => exact fun hr => absurd hr hnot
  | access k => exact fun hr => absurd hr hnot
  | wstat who uid mode => exact fun hr => absurd hr hnot
  | init dev => exact fun hr => absurd hr hnot
  | ctl vers who cmd dev => exact fun hr => absurd hr hnot

/-- A step keeps the count exactly when it is alone. -/
theorem step_alone {s s' : State} {a : Action} (h : OpenInv s) (hdid : Did s a s') :
    (Alone s a → OpenInv s') ∧ (Exclusive s' → Alone s a) := by
  have htable : Table s' := hdid.table h.table
  cases hdid with
  | arrived q =>
      refine ⟨fun _ => ?_, fun _ => alone_quiet id nofun⟩
      refine h.frame htable rfl ?_ rfl (fun _ _ => rfl) ?_
      · intro o ho
        cases List.mem_append.1 ho with
        | inl hold => exact Or.inl hold
        | inr hnew =>
            rw [List.mem_singleton.1 hnew]
            exact Or.inr ⟨Nat.mod_lt _ (by decide), trivial⟩
      · intro i _
        unfold holders
        rw [Table.countP_snoc]
        unfold holding
        simp only [OpenStage.counts, Bool.false_eq_true, and_false, decide_false,
          if_false, Nat.add_zero]
  | «open» hk h' => exact open_alone h hk h'
  | close hk hlock h' =>
      exact ⟨fun _ => close_alone h hk htable h', fun _ => alone_quiet id nofun⟩
  | accessing hk =>
      refine ⟨fun _ => ?_, fun _ => alone_quiet id nofun⟩
      exact h.frame htable rfl (fun _ ho => Or.inl ho) rfl (fun _ _ => rfl)
        (fun _ _ => rfl)
  | access hk h' =>
      refine ⟨fun _ => ?_, fun _ => alone_quiet id nofun⟩
      cases h' with
      | failed _ =>
          exact h.frame htable rfl (fun _ ho => Or.inl ho) rfl (fun _ _ => rfl)
            (fun _ _ => rfl)
      | moved _ =>
          exact h.frame htable rfl (fun _ ho => Or.inl ho) rfl (fun _ _ => rfl)
            (fun _ _ => rfl)
      | io _ _ =>
          exact h.frame htable rfl (fun _ ho => Or.inl ho) rfl (fun _ _ => rfl)
            (fun _ _ => rfl)
  | raised hlock hopen hnot =>
      refine ⟨fun _ => ?_, fun _ => alone_quiet hnot hopen⟩
      exact h.frame htable rfl (fun _ ho => Or.inl ho) rfl (fun _ _ => rfl)
        (fun _ _ => rfl)
  | built hlock hr hbuilt => exact built_alone h hlock hr hbuilt
  | @owned _ _ _ f hlock h' =>
      refine ⟨fun _ => ?_, fun _ => alone_quiet id nofun⟩
      have hframe := s.setpart_frame 0 f
      refine h.frame htable hframe.nparts (fun _ ho => Or.inl (hframe.opens ▸ ho))
        hframe.panicked (fun i _ => isopen_owned s h' i) ?_
      intro i _
      unfold holders
      rw [hframe.chans, hframe.opens, holds_congr hframe.vers]

theorem initial_open {s : State} (h : Initial s) : OpenInv s := by
  have htable := h.table
  obtain ⟨-, -, hnparts, -, -, hopens, hchans, -, -, hcalm⟩ := h
  have hzero : ∀ i, holders s i = 0 := by
    intro i
    unfold holders
    rw [hopens, hchans]
    rfl
  exact {
    table := htable
    opens := by rw [hopens]; exact nofun
    excl := {
      calm := hcalm
      count := by
        intro i _
        rw [hzero]
        unfold isopen
        rw [hnparts, if_neg (Nat.not_lt_zero i)]
        rfl
      one := by
        intro i _
        rw [hzero]
        exact Nat.zero_le 1 } }

/-- An open that fails has not counted, and no other statement of an open than
the one that counts changes the store. -/
theorem open_failed {s s' : State} {k : Nat} {permit : Bool}
    (h : step s (.open k permit) = some s') :
    ∃ o, s.opens[k]? = some o ∧
      (s'.d = s.d ∨ ∃ p, o.stage = .devopened p false) ∧
      ((∃ msg, s'.log = s.log ++ [.raised msg]) → s'.d = s.d ∧
        OpenStage.counts o.stage = false) := by
  unfold step at h
  by_cases hp : s.panicked = true
  · rw [if_pos hp] at h
    cases h
  · rw [if_neg hp] at h
    cases hk : s.opens[k]? with
    | none => simp only [hk] at h; cases h
    | some o =>
        simp only [hk] at h
        have hlog : ∀ msg, s.log ≠ s.log ++ [Event.raised msg] := by
          intro msg heq
          have hlen := congrArg List.length heq
          rw [List.length_append, List.length_singleton] at hlen
          omega
        refine ⟨o, rfl, ?_⟩
        cases openNext_did h with
        | @failed msg hbefore =>
            refine ⟨Or.inl rfl, fun _ => ⟨rfl, ?_⟩⟩
            cases hstage : o.stage with
            | counted p nilp => exact absurd hstage (hbefore p nilp).2
            | locked => rfl
            | found p => rfl
            | tested p nilp => rfl
            | devopened p nilp => rfl
        | found _ _ => exact ⟨Or.inl rfl, fun hr => absurd hr.choose_spec (hlog _)⟩
        | tested _ _ _ => exact ⟨Or.inl rfl, fun hr => absurd hr.choose_spec (hlog _)⟩
        | devopened _ => exact ⟨Or.inl rfl, fun hr => absurd hr.choose_spec (hlog _)⟩
        | countedNil _ => exact ⟨Or.inl rfl, fun hr => absurd hr.choose_spec (hlog _)⟩
        | @counted p hstage =>
            refine ⟨Or.inr ⟨p, hstage⟩, fun hr => ?_⟩
            obtain ⟨msg, hraised⟩ := hr
            have hframe : Frame s (setOpen s o.part (openCount s o.part + 1)) :=
              s.setpart_frame _ _
            exact absurd (hframe.log.symm.trans hraised) (hlog msg)
        | opened _ => exact ⟨Or.inl rfl, fun hr => absurd hr.choose_spec (hlog _)⟩

/-- A run from a store that is not initialised keeps partitions exclusive in all
its states exactly when all its steps are alone; and whatever the run, an open
that fails has not counted and leaves the store as it was. -/
theorem run_exclusive_iff (s : State) (hs : Initial s) :
    (∀ as, AllStates step Exclusive s as ↔ AllSteps step Alone s as) ∧
      ∀ t t' k permit, step t (.open k permit) = some t' →
        ∃ o, t.opens[k]? = some o ∧
          (t'.d = t.d ∨ ∃ p, o.stage = .devopened p false) ∧
          ((∃ msg, t'.log = t.log ++ [.raised msg]) → t'.d = t.d ∧
            OpenStage.counts o.stage = false) := by
  constructor
  · intro as
    apply allStates_iff_allSteps (I := OpenInv)
    · intro t ht
      exact ht.excl
    · intro t a t' ht halone hstep
      exact (step_alone ht (step_did hstep).2).1 halone
    · intro t a t' ht hstep hexcl
      exact (step_alone ht (step_did hstep).2).2 hexcl
    · exact initial_open hs
  · intro t t' k permit hstep
    exact open_failed hstep

/-- A client opens the partition of a disk and closes it. -/
def openRun : List Action :=
  [.init oneMbr, .opening 1] ++ List.replicate 5 (.open 0 true) ++ [.close 0]

/-- A partition that is opened and closed. -/
theorem run_exclusive_open :
    AllStates step Exclusive blank openRun ∧
      ∃ s, run step blank openRun = some s ∧ s.d.nparts = 2 ∧ s.chans = [] ∧
        isopen s 1 = 0 := by
  refine ⟨((run_exclusive_iff blank blank_initial).1 _).2 (by decide +kernel), ?_⟩
  have hrun : (run step blank openRun).map
      (fun s => (s.d.nparts, s.chans, isopen s 1)) = some (2, [], 0) := by
    decide +kernel
  cases hs : run step blank openRun with
  | none => rw [hs] at hrun; cases hrun
  | some s =>
      rw [hs, Option.map_some, Option.some.injEq] at hrun
      simp only [Prod.mk.injEq] at hrun
      exact ⟨s, rfl, hrun⟩

/-- Two clients open the partition, and both test before either counts. -/
def raceRun : List Action :=
  [.init oneMbr, .opening 1, .opening 1] ++
    [.open 0 true, .open 1 true, .open 0 true, .open 1 true] ++
    [.open 0 true, .open 1 true, .open 0 true, .open 1 true] ++
    [.open 0 true, .open 0 true]

/-- Both have it open. -/
theorem race_opens_twice :
    ∃ s, run step blank raceRun = some s ∧ holders s 1 = 2 ∧ isopen s 1 = 2 ∧
      ¬ Exclusive s := by
  have hrun : (run step blank raceRun).map (fun s => (holders s 1, isopen s 1)) =
      some (2, 2) := by
    decide +kernel
  cases hs : run step blank raceRun with
  | none => rw [hs] at hrun; cases hrun
  | some s =>
      rw [hs, Option.map_some, Option.some.injEq] at hrun
      simp only [Prod.mk.injEq] at hrun
      refine ⟨s, rfl, hrun.1, hrun.2, ?_⟩
      intro hexcl
      have hone := hexcl.one 1 (le_refl 1)
      rw [hrun.1] at hone
      exact absurd hone (by decide)

end Kirkwood.Ports.StoreChanOpen
