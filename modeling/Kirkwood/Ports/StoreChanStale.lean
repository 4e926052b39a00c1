import Kirkwood.Ports.StoreChan

/-!
# No transfer through a stale channel

Every initialisation of a store gives it a new version before it touches the
table, and it has the lock of the store for writing.  A read or write compares
the version of its channel under the same lock, for reading.

## Main results

* `step_chans`: one step keeps the invariant that ties the versions of channels
  to the number of times that the table was built;
* `io_current`: over any run with fewer than `2^32` initialisations, the part
  that `io` is given is the one that the channel opened, and the table is the one
  it was opened in.
-/

namespace Kirkwood.Ports.StoreChanStale

open Kirkwood.Verified
open Kirkwood.Verified.CInt
open Kirkwood.Verified.Trans
open Kirkwood.Ports.BlockStore
open Kirkwood.Ports.StoreInit (newVers oneMbr)
open Kirkwood.Ports.StoreChan

/-- What places a part. -/
def extent (p : Part) : Nat × Int × Int × Int := (p.index, p.s, p.e, p.size)

/-- Where part `i` of the table is. -/
def extentAt (s : State) (i : Nat) : Option (Nat × Int × Int × Int) :=
  s.table[i]?.map extent

/-- A channel has the version of the table that it was opened in, and if that is
still the table, the part that it opened is there. -/
structure Known (s : State) (c : Chan) : Prop where
  vers : c.vers = long c.gen
  old : c.gen ≤ s.gen
  same : c.gen = s.gen → extentAt s c.part = some (extent c.opened)

/-- The part that an open has found. -/
def OpenStage.part : OpenStage → Option Part
  | .locked => none
  | .found p => some p
  | .tested p _ => some p
  | .devopened p _ => some p
  | .counted p _ => some p

structure ChanInv (s : State) : Prop where
  table : Table s
  vers : s.d.vers = long s.gen
  chans : ∀ c ∈ s.chans, Known s c
  accesses : ∀ a ∈ s.accesses, Known s a.chan ∧
    (a.stage ≠ .locked → a.chan.vers = s.d.vers)
  opens : ∀ o ∈ s.opens, ∀ p, OpenStage.part o.stage = some p →
    extentAt s o.part = some (extent p)
  log : ∀ c iswrite p gen, Event.io c iswrite p gen ∈ s.log →
    extent p = extent c.opened ∧ c.gen = gen

/-- Versions repeat only after `2^32` initialisations. -/
theorem long_gen_inj {a b : Nat} (hle : a ≤ b) (hb : b < 2 ^ 32)
    (h : long a = long b) : a = b := by
  unfold long at h
  omega

/-- A store to a part that does not place it. -/
theorem extentAt_setpart (s : State) (i : Nat) {f : Part → Part}
    (hf : ∀ p, extent (f p) = extent p) (j : Nat) :
    extentAt (s.setpart i f) j = extentAt s j := by
  unfold extentAt
  rw [setpart_get, Option.map_map]
  apply congrArg (fun f => s.table[j]?.map f)
  funext p
  show extent (if i = j then f p else p) = extent p
  split
  · exact hf p
  · rfl

theorem extentAt_owned (s : State) {f : Part → Part} (h : Placing f) (j : Nat) :
    extentAt (s.setpart 0 f) j = extentAt s j := by
  refine extentAt_setpart s 0 (fun p => ?_) j
  obtain ⟨hindex, hs, he, hsize, -⟩ := h p
  unfold extent
  rw [hindex, hs, he, hsize]

theorem extentAt_low (s : State) (n : Int) (j : Nat) :
    extentAt { s with low := { s.low with isopen := n } } j = extentAt s j := by
  unfold extentAt
  rw [table_low, List.getElem?_map, Option.map_map]
  apply congrArg (fun f => s.table[j]?.map f)
  funext p
  show extent (if s.d.parts = [] then { p with isopen := n } else p) = extent p
  split <;> rfl

/-- The table is the same, as far as it places parts. -/
structure SameTable (s t : State) : Prop where
  vers : t.d.vers = s.d.vers
  gen : t.gen = s.gen
  extents : ∀ i, extentAt t i = extentAt s i

theorem Known.keep {s t : State} {c : Chan} (h : Known s c) (ht : SameTable s t) :
    Known t c :=
  { vers := h.vers
    old := by rw [ht.gen]; exact h.old
    same := by
      rw [ht.gen, ht.extents]
      exact h.same }

/-- A new table takes no channel with it. -/
theorem Known.rebuilt {s t : State} {c : Chan} (h : Known s c)
    (hgen : t.gen = s.gen + 1) : Known t c :=
  { vers := h.vers
    old := by
      have hold := h.old
      omega
    same := by
      intro heq
      have hold := h.old
      omega }

/-- A step that leaves the table: what is there was there, or is as it should be. -/
theorem ChanInv.next {s t : State} (h : ChanInv s) (ht : SameTable s t)
    (htable : Table t)
    (hchans : ∀ c ∈ t.chans, c ∈ s.chans ∨ Known s c)
    (haccesses : ∀ a ∈ t.accesses, a ∈ s.accesses ∨
      (Known s a.chan ∧ (a.stage ≠ .locked → a.chan.vers = s.d.vers)))
    (hopens : ∀ o ∈ t.opens, o ∈ s.opens ∨
      ∀ p, OpenStage.part o.stage = some p → extentAt s o.part = some (extent p))
    (hlog : ∀ c iswrite p gen, Event.io c iswrite p gen ∈ t.log →
      Event.io c iswrite p gen ∈ s.log ∨ (extent p = extent c.opened ∧ c.gen = gen)) :
    ChanInv t :=
  { table := htable
    vers := by rw [ht.vers, ht.gen]; exact h.vers
    chans := by
      intro c hc
      cases hchans c hc with
      | inl hold => exact (h.chans c hold).keep ht
      | inr hnew => exact hnew.keep ht
    accesses := by
      intro a ha
      rw [ht.vers]
      cases haccesses a ha with
      | inl hold =>
          obtain ⟨hknown, hvers⟩ := h.accesses a hold
          exact ⟨hknown.keep ht, hvers⟩
      | inr hnew => exact ⟨hnew.1.keep ht, hnew.2⟩
    opens := by
      intro o ho p hp
      rw [ht.extents]
      cases hopens o ho with
      | inl hold => exact h.opens o hold p hp
      | inr hnew => exact hnew p hp
    log := by
      intro c iswrite p gen hio
      cases hlog c iswrite p gen hio with
      | inl hold => exact h.log c iswrite p gen hold
      | inr hnew => exact hnew }

private theorem mem_raised {l : List Event} {c : Chan} {iswrite : Bool} {p : Part}
    {gen : Nat} {msg : String}
    (h : Event.io c iswrite p gen ∈ l ++ [Event.raised msg]) :
    Event.io c iswrite p gen ∈ l := by
  cases List.mem_append.1 h with
  | inl hl => exact hl
  | inr hr => cases List.mem_singleton.1 hr

theorem open_inv {s s' : State} {k : Nat} {o : Opening} (h : ChanInv s)
    (htable : Table s') (hk : s.opens[k]? = some o) (hdid : OpenDid s k o s') :
    ChanInv s' := by
  have ho : o ∈ s.opens := List.mem_of_getElem? hk
  -- an open that goes on has still found what it had found
  have hset : ∀ stage : OpenStage,
      (∀ p, OpenStage.part stage = some p → extentAt s o.part = some (extent p)) →
      ∀ o' ∈ s.opens.set k { o with stage := stage }, o' ∈ s.opens ∨
        ∀ p, OpenStage.part o'.stage = some p →
          extentAt s o'.part = some (extent p) := by
    intro stage hstage o' ho'
    cases Table.mem_set_cases ho' with
    | inl heq => rw [heq]; exact Or.inr hstage
    | inr hold => exact Or.inl hold
  cases hdid with
  | @failed msg hbefore =>
      exact h.next ⟨rfl, rfl, fun _ => rfl⟩ htable (fun _ hc => Or.inl hc)
        (fun _ ha => Or.inl ha) (fun _ ho' => Or.inl (List.mem_of_mem_eraseIdx ho'))
        (fun _ _ _ _ hio => Or.inl (mem_raised hio))
  | @found p hstage hget =>
      refine h.next ⟨rfl, rfl, fun _ => rfl⟩ htable (fun _ hc => Or.inl hc)
        (fun _ ha => Or.inl ha) (hset _ ?_) (fun _ _ _ _ hio => Or.inl hio)
      intro q hq
      unfold extentAt
      rw [(xpartget_ok hget).2.2, ← Option.some.inj hq]
      rfl
  | @tested p nilp hstage hnil hfree =>
      refine h.next ⟨rfl, rfl, fun _ => rfl⟩ htable (fun _ hc => Or.inl hc)
        (fun _ ha => Or.inl ha) (hset _ ?_) (fun _ _ _ _ hio => Or.inl hio)
      intro q hq
      exact h.opens o ho q (by rw [hstage]; exact hq)
  | @devopened p nilp hstage =>
      refine h.next ⟨rfl, rfl, fun _ => rfl⟩ htable (fun _ hc => Or.inl hc)
        (fun _ ha => Or.inl ha) (hset _ ?_) (fun _ _ _ _ hio => Or.inl hio)
      intro q hq
      exact h.opens o ho q (by rw [hstage]; exact hq)
  | @countedNil p hstage =>
      refine h.next ⟨rfl, rfl, extentAt_low s _⟩ htable (fun _ hc => Or.inl hc)
        (fun _ ha => Or.inl ha) (hset _ ?_) (fun _ _ _ _ hio => Or.inl hio)
      intro q hq
      exact h.opens o ho q (by rw [hstage]; exact hq)
  | @counted p hstage =>
      have hframe : Frame s (setOpen s o.part (openCount s o.part + 1)) :=
        s.setpart_frame _ _
      refine h.next ⟨hframe.vers, hframe.gen, extentAt_setpart s _ fun _ => rfl⟩ htable
        (fun _ hc => Or.inl (hframe.chans ▸ hc))
        (fun _ ha => Or.inl (hframe.accesses ▸ ha)) (hset _ ?_)
        (fun _ _ _ _ hio => Or.inl (hframe.log ▸ hio))
      intro q hq
      exact h.opens o ho q (by rw [hstage]; exact hq)
  | @opened p nilp hstage =>
      refine h.next ⟨rfl, rfl, fun _ => rfl⟩ htable ?_ (fun _ ha => Or.inl ha)
        (fun _ ho' => Or.inl (List.mem_of_mem_eraseIdx ho'))
        (fun _ _ _ _ hio => Or.inl hio)
      intro c hc
      cases List.mem_append.1 hc with
      | inl hold => exact Or.inl hold
      | inr hnew =>
          rw [List.mem_singleton.1 hnew]
          exact Or.inr
            { vers := h.vers
              old := le_refl _
              same := fun _ => h.opens o ho p (by rw [hstage]; rfl) }

theorem close_inv {s s' : State} {k : Nat} {c : Chan} (h : ChanInv s)
    (htable : Table s') (hdid : CloseDid s k c s') : ChanInv s' := by
  have hchans : ∀ c' ∈ s.chans.eraseIdx k, c' ∈ s.chans ∨ Known s c' :=
    fun _ hc => Or.inl (List.mem_of_mem_eraseIdx hc)
  cases hdid with
  | kept _ =>
      exact h.next ⟨rfl, rfl, fun _ => rfl⟩ htable hchans (fun _ ha => Or.inl ha)
        (fun _ ho => Or.inl ho) (fun _ _ _ _ hio => Or.inl hio)
  | failed _ _ _ =>
      exact h.next ⟨rfl, rfl, fun _ => rfl⟩ htable hchans (fun _ ha => Or.inl ha)
        (fun _ ho => Or.inl ho) (fun _ _ _ _ hio => Or.inl (mem_raised hio))
  | panicked _ _ _ _ =>
      exact h.next ⟨rfl, rfl, fun _ => rfl⟩ htable hchans (fun _ ha => Or.inl ha)
        (fun _ ho => Or.inl ho) (fun _ _ _ _ hio => Or.inl hio)
  | shut _ _ _ _ =>
      have hframe : Frame s (setOpen s c.part 0) := s.setpart_frame _ _
      exact h.next ⟨hframe.vers, hframe.gen, extentAt_setpart s _ fun _ => rfl⟩ htable
        hchans (fun _ ha => Or.inl (hframe.accesses ▸ ha))
        (fun _ ho => Or.inl (hframe.opens ▸ ho))
        (fun _ _ _ _ hio => Or.inl (hframe.log ▸ hio))

/-- What `io` is given is what the channel opened, since versions agree. -/
theorem io_right {s : State} {a : Access} {p : Part} (h : ChanInv s)
    (hbound : s.gen < 2 ^ 32) (ha : a ∈ s.accesses) (hstage : a.stage = .got)
    (hget : s.table[a.chan.part]? = some p) :
    extent p = extent a.chan.opened ∧ a.chan.gen = s.gen := by
  obtain ⟨hknown, hvers⟩ := h.accesses a ha
  have hsame : a.chan.gen = s.gen := by
    apply long_gen_inj hknown.old hbound
    rw [← hknown.vers, ← h.vers]
    exact hvers (by rw [hstage]; exact nofun)
  have hextent := hknown.same hsame
  unfold extentAt at hextent
  rw [hget] at hextent
  exact ⟨Option.some.inj hextent, hsame⟩

theorem access_inv {s s' : State} {k : Nat} {a : Access} (h : ChanInv s)
    (hbound : s.gen < 2 ^ 32) (htable : Table s') (hk : s.accesses[k]? = some a)
    (hdid : AccessDid s k a s') : ChanInv s' := by
  have ha : a ∈ s.accesses := List.mem_of_getElem? hk
  cases hdid with
  | failed _ =>
      exact h.next ⟨rfl, rfl, fun _ => rfl⟩ htable (fun _ hc => Or.inl hc)
        (fun _ ha' => Or.inl (List.mem_of_mem_eraseIdx ha')) (fun _ ho => Or.inl ho)
        (fun _ _ _ _ hio => Or.inl (mem_raised hio))
  | @moved stage hvers =>
      refine h.next ⟨rfl, rfl, fun _ => rfl⟩ htable (fun _ hc => Or.inl hc) ?_
        (fun _ ho => Or.inl ho) (fun _ _ _ _ hio => Or.inl hio)
      intro a' ha'
      cases Table.mem_set_cases ha' with
      | inr hold => exact Or.inl hold
      | inl heq =>
          obtain ⟨hknown, hold⟩ := h.accesses a ha
          rw [heq]
          refine Or.inr ⟨hknown, fun _ => ?_⟩
          by_cases hlocked : a.stage = .locked
          · exact hvers hlocked
          · exact hold hlocked
  | @io p hstage hget =>
      refine h.next ⟨rfl, rfl, fun _ => rfl⟩ htable (fun _ hc => Or.inl hc)
        (fun _ ha' => Or.inl (List.mem_of_mem_eraseIdx ha')) (fun _ ho => Or.inl ho) ?_
      intro c iswrite q gen hio
      cases List.mem_append.1 hio with
      | inl hold => exact Or.inl hold
      | inr hnew =>
          cases List.mem_singleton.1 hnew
          exact Or.inr (io_right h hbound ha hstage hget)

/-- An initialisation runs alone. -/
theorem built_inv {s s' : State} (h : ChanInv s) (hlock : Unlocked s)
    (hrebuilt : Rebuilt s s') : ChanInv s' := by
  obtain ⟨d', low, err, rfl, hbuilt⟩ := hrebuilt
  have hvers : d'.vers = long ((s.gen + 1 : Nat) : Int) := by
    have hnew := hbuilt.vers
    rw [built_d] at hnew
    rw [hnew, newVers, h.vers]
    unfold long
    omega
  have htable : Table { s with d := d', low := low, gen := s.gen + 1 } := by
    cases err with
    | none => exact hbuilt.table
    | some msg => exact hbuilt.table.congr rfl rfl rfl
  have hstate : ChanInv { s with d := d', low := low, gen := s.gen + 1 } :=
    { table := htable
      vers := hvers
      chans := fun c hc => (h.chans c hc).rebuilt rfl
      accesses := by
        intro a ha
        have hnone : a ∈ s.accesses := ha
        rw [hlock.2] at hnone
        cases hnone
      opens := by
        intro o ho
        have hnone : o ∈ s.opens := ho
        rw [hlock.1] at hnone
        cases hnone
      log := h.log }
  cases err with
  | none => exact hstate
  | some msg =>
      exact hstate.next ⟨rfl, rfl, fun _ => rfl⟩ hbuilt.table (fun _ hc => Or.inl hc)
        (fun _ ha => Or.inl ha) (fun _ ho => Or.inl ho)
        (fun _ _ _ _ hio => Or.inl (mem_raised hio))

/-- Every step keeps the channels in step with the table. -/
theorem step_chans {s s' : State} {a : Action} (h : ChanInv s)
    (hbound : s.gen < 2 ^ 32) (hdid : Did s a s') : ChanInv s' := by
  have htable : Table s' := hdid.table h.table
  cases hdid with
  | arrived q =>
      refine h.next ⟨rfl, rfl, fun _ => rfl⟩ htable (fun _ hc => Or.inl hc)
        (fun _ ha => Or.inl ha) ?_ (fun _ _ _ _ hio => Or.inl hio)
      intro o ho
      cases List.mem_append.1 ho with
      | inl hold => exact Or.inl hold
      | inr hnew =>
          rw [List.mem_singleton.1 hnew]
          exact Or.inr nofun
  | «open» hk h' => exact open_inv h htable hk h'
  | close hk hlock h' => exact close_inv h htable h'
  | @accessing k iswrite c hk =>
      refine h.next ⟨rfl, rfl, fun _ => rfl⟩ htable (fun _ hc => Or.inl hc) ?_
        (fun _ ho => Or.inl ho) (fun _ _ _ _ hio => Or.inl hio)
      intro a ha
      cases List.mem_append.1 ha with
      | inl hold => exact Or.inl hold
      | inr hnew =>
          rw [List.mem_singleton.1 hnew]
          exact Or.inr ⟨h.chans c (List.mem_of_getElem? hk), fun hne => absurd rfl hne⟩
  | access hk h' => exact access_inv h hbound htable hk h'
  | raised _ _ _ =>
      exact h.next ⟨rfl, rfl, fun _ => rfl⟩ htable (fun _ hc => Or.inl hc)
        (fun _ ha => Or.inl ha) (fun _ ho => Or.inl ho)
        (fun _ _ _ _ hio => Or.inl (mem_raised hio))
  | built hlock hr hbuilt => exact built_inv h hlock hbuilt
  | @owned _ _ _ f hlock h' =>
      have hframe := s.setpart_frame 0 f
      exact h.next ⟨hframe.vers, hframe.gen, extentAt_owned s h'⟩ htable
        (fun _ hc => Or.inl (hframe.chans ▸ hc))
        (fun _ ha => Or.inl (hframe.accesses ▸ ha))
        (fun _ ho => Or.inl (hframe.opens ▸ ho))
        (fun _ _ _ _ hio => Or.inl (hframe.log ▸ hio))

theorem initial_chans {s : State} (h : Initial s) : ChanInv s := by
  have htable := h.table
  obtain ⟨-, -, -, hvers, hgen, hopens, hchans, haccesses, hlog, -⟩ := h
  exact {
    table := htable
    vers := by rw [hvers, hgen]; rfl
    chans := by
      intro c hc
      rw [hchans] at hc
      exact absurd hc List.not_mem_nil
    accesses := by
      intro a ha
      rw [haccesses] at ha
      exact absurd ha List.not_mem_nil
    opens := by
      intro o ho
      rw [hopens] at ho
      exact absurd ho List.not_mem_nil
    log := by
      intro c iswrite p gen hio
      rw [hlog] at hio
      exact absurd hio List.not_mem_nil
  }

/-- No step takes a rebuild back. -/
theorem gen_mono {s s' : State} {a : Action} (h : Did s a s') : s.gen ≤ s'.gen := by
  cases h with
  | arrived q => exact le_refl _
  | «open» hk h =>
      cases h with
      | counted _ => exact Nat.le_of_eq (s.setpart_frame _ _).gen.symm
      | _ => exact le_refl _
  | close hk hlock h =>
      cases h with
      | shut _ _ _ _ => exact Nat.le_of_eq (s.setpart_frame _ _).gen.symm
      | _ => exact le_refl _
  | accessing hk => exact le_refl _
  | access hk h => cases h <;> exact le_refl _
  | raised _ _ _ => exact le_refl _
  | built _ _ hbuilt =>
      obtain ⟨d', low, err, rfl, -⟩ := hbuilt
      cases err <;> exact Nat.le_succ _
  | owned _ _ => exact Nat.le_of_eq (s.setpart_frame _ _).gen.symm

theorem reach_chans {s : State} (h : Reach step Free Initial s)
    (hgen : s.gen < 2 ^ 32) : ChanInv s := by
  have hinv : s.gen < 2 ^ 32 → ChanInv s := by
    apply Reach.invariant (P := fun s => s.gen < 2 ^ 32 → ChanInv s) _ _ h
    · exact fun s hs _ => initial_chans hs
    · intro s a s' hs _ hstep hbound
      obtain ⟨-, hdid⟩ := step_did hstep
      have hold : s.gen < 2 ^ 32 := (gen_mono hdid).trans_lt hbound
      exact step_chans (hs hold) hold hdid
  exact hinv hgen

/-- In every run with fewer than `2^32` initialisations: a read or write that
reached `io` used a part with the index, start, end and size of the one that its
channel opened, from the table that it was opened in; on a channel from before
the last initialisation, one raises `Estale` and does nothing else. -/
theorem io_current {s : State} (h : Reach step Free Initial s)
    (hgen : s.gen < 2 ^ 32) :
    (∀ c iswrite p gen, Event.io c iswrite p gen ∈ s.log →
      p.index = c.opened.index ∧ p.s = c.opened.s ∧ p.e = c.opened.e ∧
        p.size = c.opened.size ∧ c.gen = gen) ∧
    ∀ k a, s.accesses[k]? = some a → s.panicked = false → a.chan.gen ≠ s.gen →
      step s (.access k) =
        some (raise { s with accesses := s.accesses.eraseIdx k } Estale) := by
  have hinv := reach_chans h hgen
  constructor
  · intro c iswrite p gen hio
    obtain ⟨hextent, hsame⟩ := hinv.log c iswrite p gen hio
    unfold extent at hextent
    simp only [Prod.mk.injEq] at hextent
    exact ⟨hextent.1, hextent.2.1, hextent.2.2.1, hextent.2.2.2, hsame⟩
  · intro k a hk hrun hstale
    obtain ⟨hknown, hvers⟩ := hinv.accesses a (List.mem_of_getElem? hk)
    have hdiffer : a.chan.vers ≠ s.d.vers := by
      intro heq
      rw [hknown.vers, hinv.vers] at heq
      exact hstale (long_gen_inj hknown.old hgen heq)
    have hlocked : a.stage = .locked := by
      by_contra hne
      exact hdiffer (hvers hne)
    unfold step
    rw [if_neg (by rw [hrun]; exact Bool.false_ne_true)]
    simp only [hk]
    unfold accessNext
    simp only [hlocked]
    exact if_pos hdiffer

/-- The disk is found, its partition is opened and read, and then the disk is
initialised again while the channel is open, without room for the first entry; a
read that comes after that. -/
def staleRun : List Action :=
  [.init oneMbr, .opening 1] ++ List.replicate 5 (.open 0 true) ++
    [.accessing 0 false, .access 0, .access 0, .access 0,
      .init { oneMbr with room := false }, .accessing 0 false]

/-- The channel of that run. -/
def staleChan : Chan where
  part := 1
  vers := 1
  opened := PartTable.samplePart 1 0x83 "p0" 1 101 100
  gen := 1

theorem io_current_stale :
    ∃ s p, run step blank staleRun = some s ∧ s.log = [.io staleChan false p 1] ∧
      s.gen = 2 ∧ (p.s = staleChan.opened.s ∧ p.e = staleChan.opened.e) ∧
      step s (.access 0) = some (raise { s with accesses := [] } Estale) := by
  have hrun : (run step blank staleRun).map
      (fun s => (s.log, s.gen, s.panicked, s.accesses)) =
      some ([.io staleChan false { staleChan.opened with isopen := 1 } 1], 2, false,
        [{ chan := staleChan, iswrite := false, stage := .locked }]) := by
    decide +kernel
  cases hs : run step blank staleRun with
  | none => rw [hs] at hrun; cases hrun
  | some s =>
      rw [hs, Option.map_some, Option.some.injEq] at hrun
      simp only [Prod.mk.injEq] at hrun
      obtain ⟨hlog, hgen, hcalm, haccess⟩ := hrun
      have hreach : Reach step Free Initial s :=
        Reach.of_run_free staleRun (.start blank_initial) hs
      have hright := io_current hreach (by rw [hgen]; decide)
      have hio := hright.1 _ _ _ _ (by rw [hlog]; exact List.mem_singleton_self _)
      have hraise := hright.2 0 _ (by rw [haccess]; rfl) hcalm
        (by rw [hgen]; exact Nat.succ_ne_self 1 |>.symm)
      rw [haccess] at hraise
      exact ⟨s, _, rfl, hlog, hgen, ⟨hio.2.1, hio.2.2.1⟩, hraise⟩

end Kirkwood.Ports.StoreChanStale
